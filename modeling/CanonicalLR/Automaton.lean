import CanonicalLR.Collection.KeyedSet
import CanonicalLR.Item.Closure

/-!
# The automaton of item sets

The states are the item sets that can be reached from the start by successors, numbered in the order in
which a breadth-first search meets them; the successors of a state are taken in the order of their
symbols. A transition leads from a state to its successor on a symbol. The search ends because the items
of all states come from one finite list (`confined_successors`).
-/

namespace CanonicalLR

/-- The step from a state to another on a symbol. -/
structure Transition where
  source : Nat
  label : Symbol
  target : Nat
deriving DecidableEq

/-- Departures are ordered by state, then by symbol. -/
instance : Ord (Nat × Symbol) := lexOrd

namespace Transition

/-- A state has at most one transition on a symbol. -/
def key (t : Transition) : Nat × Symbol := (t.source, t.label)

def inspect (t : Transition) : String :=
  "Transition \x7b " ++ s!"from: {t.source}, label: {t.label.inspect}, to: {t.target}" ++ " \x7d"

end Transition

/-- The items of a set, in order. -/
def ItemSet.key (s : ItemSet) : List Item := s.toList

structure Automaton where
  states : KeyedSet ItemSet.key
  transitions : KeyedSet Transition.key

namespace ItemSet

/-! ### Finitely many item sets -/

/-- The lookaheads that the items of an automaton can have. -/
def lookaheads (g : Grammar) (first : TerminalSets) : List Terminal :=
  .endMarker :: (g.terminals ++ first.all)

/-- An item of the grammar: its production is one of the grammar's, its dot is not past the end, and its
lookahead is one that an automaton can have. -/
def Belongs (g : Grammar) (first : TerminalSets) (i : Item) : Prop :=
  i.production ∈ g.productions ∧ i.dot ≤ i.production.size ∧ i.lookahead ∈ lookaheads g first

theorem Belongs.initial {g : Grammar} {first : TerminalSets} {p : Production} {t : Terminal}
    (hp : p ∈ g.productions) (ht : t ∈ lookaheads g first) : Belongs g first (.initial p t) :=
  ⟨hp, Nat.zero_le _, ht⟩

theorem Belongs.advance {g : Grammar} {first : TerminalSets} {i j : Item} {x : Symbol}
    (h : Belongs g first i) (hj : i.advance? x = some j) : Belongs g first j := by
  unfold Item.advance? at hj
  split at hj
  · rename_i hx
    obtain rfl := Option.some.inj hj
    have hlt : i.dot < i.production.symbols.length := (List.getElem?_eq_some_iff.1 hx).1
    exact ⟨h.1, hlt, h.2.2⟩
  · simp at hj

theorem Belongs.expansion {g : Grammar} {first : TerminalSets} {i j : Item} (h : Belongs g first i)
    (hj : j ∈ i.expansion g first) : Belongs g first j := by
  obtain ⟨n, p, t, -, hp, ht, rfl⟩ := Item.mem_expansion.1 hj
  refine .initial (Grammar.mem_productionsOf.1 hp).1 ?_
  unfold Item.expansionLookaheads at ht
  split at ht
  · exact List.mem_singleton.1 ht ▸ h.2.2
  · rename_i s hs
    obtain rfl := List.mem_singleton.1 ht
    exact List.mem_cons_of_mem _ (List.mem_append_left _
      (Grammar.mem_terminals.2 ⟨_, h.1, List.mem_of_getElem? hs⟩))
  · split at ht
    · rename_i hfirst
      exact List.mem_cons_of_mem _ (List.mem_append_right _ (TerminalSets.mem_all_of_get? hfirst ht))
    · exact List.mem_singleton.1 ht ▸ h.2.2

theorem belongs_closure {g : Grammar} {first : TerminalSets} {s : ItemSet}
    (h : ∀ i ∈ s, Belongs g first i) : ∀ i ∈ s.closure g first, Belongs g first i := by
  intro i hi
  induction mem_closure_iff.1 hi with
  | start hmem => exact h _ hmem
  | step hreach hstep ih => exact (ih (mem_closure_iff.2 hreach)).expansion hstep

theorem belongs_initial {g : Grammar} {first : TerminalSets} :
    ∀ i ∈ initial g first, Belongs g first i := by
  apply belongs_closure
  intro i hi
  obtain rfl := List.mem_singleton.1 (SortedSet.mem_ofList.1 hi)
  exact .initial g.root_mem List.mem_cons_self

theorem belongs_successor {g : Grammar} {first : TerminalSets} {s : ItemSet} {x : Symbol}
    (h : ∀ i ∈ s, Belongs g first i) : ∀ i ∈ s.successor x g first, Belongs g first i := by
  apply belongs_closure
  intro j hj
  obtain ⟨i, hi, hadvance⟩ := List.mem_filterMap.1 (SortedSet.mem_ofList.1 hj)
  exact (h i hi).advance hadvance

/-- One list holds every item that belongs to the grammar. -/
theorem exists_list_of_belongs (g : Grammar) (first : TerminalSets) :
    ∃ items : List Item, ∀ i, Belongs g first i → i ∈ items := by
  refine ⟨g.productions.flatMap fun p => (List.range (p.size + 1)).flatMap fun dot =>
    (lookaheads g first).map fun t => ⟨p, dot, t⟩, fun i hi => ?_⟩
  exact List.mem_flatMap.2 ⟨_, hi.1, List.mem_flatMap.2 ⟨_, List.mem_range.2 (Nat.lt_succ_of_le hi.2.1),
    List.mem_map.2 ⟨_, hi.2.2, rfl⟩⟩⟩

theorem exists_list_of_filter {α : Type} (l : List α) :
    ∃ parts : List (List α), ∀ p : α → Bool, l.filter p ∈ parts := by
  induction l with
  | nil => exact ⟨[[]], fun p => by simp⟩
  | cons x rest ih =>
    obtain ⟨parts, hparts⟩ := ih
    refine ⟨parts ++ parts.map (x :: ·), fun p => ?_⟩
    rw [List.filter_cons]
    split
    · exact List.mem_append_right _ (List.mem_map_of_mem (hparts p))
    · exact List.mem_append_left _ (hparts p)

theorem confined_successors (g : Grammar) (first : TerminalSets) :
    Confined (successors g first) [initial g first] := by
  obtain ⟨items, hitems⟩ := exists_list_of_belongs g first
  obtain ⟨parts, hparts⟩ := exists_list_of_filter items
  have hmem (s : ItemSet) (hs : ∀ i ∈ s, Belongs g first i) : s ∈ parts.map SortedSet.ofList := by
    refine List.mem_map.2 ⟨_, hparts fun i => decide (i ∈ s), SortedSet.ext_mem fun i => ?_⟩
    simp only [SortedSet.mem_ofList, List.mem_filter, decide_eq_true_eq]
    exact ⟨And.right, fun hi => ⟨hitems i (hs i hi), hi⟩⟩
  classical
  refine ⟨(parts.map SortedSet.ofList).filter fun s => decide (∀ i ∈ s, Belongs g first i), ?_, ?_⟩
  · intro s hs
    obtain rfl := List.mem_singleton.1 hs
    exact List.mem_filter.2 ⟨hmem _ belongs_initial, decide_eq_true belongs_initial⟩
  · intro s hs t ht
    have hbelongs := of_decide_eq_true (List.mem_filter.1 hs).2
    rw [successors_eq] at ht
    obtain ⟨x, -, rfl⟩ := List.mem_map.1 ht
    exact List.mem_filter.2
      ⟨hmem _ (belongs_successor hbelongs), decide_eq_true (belongs_successor hbelongs)⟩

end ItemSet

namespace Automaton

/-- The states with their successors, in the order of their numbers. -/
def search (g : Grammar) (first : TerminalSets) : List (Visit ItemSet) :=
  explore (ItemSet.successors g first) [ItemSet.initial g first] (ItemSet.confined_successors g first)

/-- The transitions of the state with number `source`. -/
def transitionsFrom (states : KeyedSet ItemSet.key) (source : Nat) (v : Visit ItemSet) : List Transition :=
  (v.node.pending.toList.zip v.next).filterMap fun (label, next) =>
    (states.indexOf? next).map fun target => ⟨source, label, target⟩

/-- The automaton of a grammar whose FIRST sets are given. -/
def build (g : Grammar) (first : TerminalSets) : Automaton :=
  let visits := search g first
  let states := .ofList (visits.map Visit.node)
  ⟨states, .ofList (visits.zipIdx.flatMap fun (v, source) => transitionsFrom states source v)⟩

def ofGrammar (g : Grammar) : Automaton := build g g.first

def size (a : Automaton) : Nat := a.states.size

def isEmpty (a : Automaton) : Bool := a.states.isEmpty

def itemSet? (a : Automaton) (state : Nat) : Option ItemSet := a.states.get? state

def indexOf? (a : Automaton) (s : ItemSet) : Option Nat := a.states.indexOf? s

/-- The state behind `source` on the symbol `x`. -/
def goto? (a : Automaton) (source : Nat) (x : Symbol) : Option Nat :=
  (a.transitions.withKey? (source, x)).map Transition.target

/-- The steps out of a state. -/
def gotos (a : Automaton) (source : Nat) : List (Symbol × Nat) :=
  (a.transitions.toList.filter (·.source == source)).map fun t => (t.label, t.target)

def inspect (a : Automaton) : String :=
  "Family \x7b item_sets: " ++ a.states.inspect ItemSet.inspect ++ ", transitions: "
    ++ a.transitions.inspect Transition.inspect ++ " \x7d"

end Automaton

end CanonicalLR
