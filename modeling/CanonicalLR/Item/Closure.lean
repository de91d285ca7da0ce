import CanonicalLR.Item.Goal
import CanonicalLR.Item.Set

/-!
# Closure and successors of item sets

The closure of a set adds everything that its items let start, directly or through other items. The goals
of the items are explored, since many items have the same ones. The successor of a set on a symbol moves
the dot over that symbol where it can, and is closed again. Main statement: the closure holds exactly what
the steps of expansion reach (`mem_closure_iff`).
-/

namespace CanonicalLR

open Std

namespace ItemSet

/-- The goals that come about from some items, directly or through others. -/
def allGoals (items : List Item) (g : Grammar) (first : TerminalSets) : List Goal :=
  let start := items.flatMap (Item.goals first)
  (explore (Goal.subgoals g first) start (Goal.confined_goals g first start)).map Visit.node

/-- The set with all that its items let start. -/
def closure (s : ItemSet) (g : Grammar) (first : TerminalSets) : ItemSet :=
  .ofList (s.toList ++ (allGoals s.toList g first).flatMap (Goal.items g))

/-- The set in which an automaton starts: the closure of the start of the root production. -/
def initial (g : Grammar) (first : TerminalSets) : ItemSet :=
  closure (.ofList [Item.initial g.root .endMarker]) g first

/-- The set behind the symbol `x`: the dots that can move over it do, and the result is closed. -/
def successor (s : ItemSet) (x : Symbol) (g : Grammar) (first : TerminalSets) : ItemSet :=
  closure (.ofList (s.toList.filterMap (·.advance? x))) g first

/-- The set behind the symbol `x`, if some item expects it. -/
def successor? (s : ItemSet) (x : Symbol) (g : Grammar) (first : TerminalSets) : Option ItemSet :=
  if s.toList.any (·.current? == some x) then some (s.successor x g first) else none

/-! ### Closure as reachability -/

theorem reachable_of_mem_items {items : List Item} {g : Grammar} {first : TerminalSets} {goal : Goal}
    (h : Reachable (Goal.subgoals g first) (items.flatMap (Item.goals first)) goal) :
    ∀ i ∈ goal.items g, Reachable (Item.expansion g first) items i := by
  induction h with
  | start hgoal =>
    obtain ⟨j, hj, hgoal⟩ := List.mem_flatMap.1 hgoal
    exact fun i hi => .step (.start hj) (List.mem_flatMap.2 ⟨_, hgoal, hi⟩)
  | step _ hgoal ih =>
    obtain ⟨j, hj, hgoal⟩ := List.mem_flatMap.1 hgoal
    exact fun i hi => .step (ih j hj) (List.mem_flatMap.2 ⟨_, hgoal, hi⟩)

theorem mem_or_mem_items_of_reachable {items : List Item} {g : Grammar} {first : TerminalSets} {i : Item}
    (h : Reachable (Item.expansion g first) items i) :
    i ∈ items ∨ ∃ goal, Reachable (Goal.subgoals g first) (items.flatMap (Item.goals first)) goal
      ∧ i ∈ goal.items g := by
  induction h with
  | start hi => exact .inl hi
  | step _ hi ih =>
    obtain ⟨goal, hgoal, hi⟩ := List.mem_flatMap.1 hi
    refine .inr ⟨goal, ?_, hi⟩
    rcases ih with hmem | ⟨above, habove, hmem⟩
    · exact .start (List.mem_flatMap.2 ⟨_, hmem, hgoal⟩)
    · exact .step habove (List.mem_flatMap.2 ⟨_, hmem, hgoal⟩)

theorem mem_closure_iff {s : ItemSet} {g : Grammar} {first : TerminalSets} {i : Item} :
    i ∈ s.closure g first ↔ Reachable (Item.expansion g first) s.toList i := by
  rw [closure, SortedSet.mem_ofList, List.mem_append, List.mem_flatMap]
  simp only [allGoals, mem_explore_iff]
  constructor
  · rintro (h | ⟨goal, hgoal, h⟩)
    · exact .start h
    · exact reachable_of_mem_items hgoal i h
  · exact mem_or_mem_items_of_reachable

/-! ### All successors at once -/

/-- For each symbol the items behind it, before closing. -/
def kernels (s : ItemSet) : TreeMap Symbol (List Item) :=
  s.toList.foldr (fun i behind => match i.current? with
    | some x => behind.insert x ({ i with dot := i.dot + 1 } :: behind.getD x [])
    | none => behind) ∅

theorem getD_kernels (s : ItemSet) (x : Symbol) :
    s.kernels.getD x [] = s.toList.filterMap (·.advance? x) := by
  rw [kernels]
  induction s.toList with
  | nil => exact TreeMap.getD_emptyc
  | cons i rest ih =>
    rw [List.foldr_cons, List.filterMap_cons, Item.advance?]
    split
    · rename_i y hy
      rw [TreeMap.getD_insert, hy]
      by_cases h : y = x
      · subst h
        simp [ih]
      · have hne : compare y x ≠ .eq := fun heq => h (LawfulEqCmp.eq_of_compare heq)
        simp [h, hne, ih]
    · rename_i hnone
      simp [hnone, ih]

/-- The successors of a set, in the order of its pending symbols. -/
def successors (g : Grammar) (first : TerminalSets) (s : ItemSet) : List ItemSet :=
  let behind := s.kernels
  s.pending.toList.map fun x => closure (.ofList (behind.getD x [])) g first

theorem successors_eq (g : Grammar) (first : TerminalSets) (s : ItemSet) :
    successors g first s = s.pending.toList.map (s.successor · g first) := by
  simp only [successors, getD_kernels, successor]

end ItemSet

end CanonicalLR
