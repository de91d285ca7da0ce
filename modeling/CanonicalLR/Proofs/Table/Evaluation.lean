import CanonicalLR.Table.Build
import CanonicalLR.Token

/-!
# Tables that a proof evaluates

A search goes on as long as nodes are left, and that it ends is known only by the existence of a finite list of nodes. A proof that evaluates an automaton gives its searches a number of visits instead, and inserts the members of sets one by one. Such a computation can give up, but what it gives is the automaton, and with it the table of the grammar (`ofSource_of_within`). A property of one table can be decided in this way (`exists_table_of_within`).
-/

namespace CanonicalLR

open Std

universe u

/-- A token that spells its kind, at no place. -/
def Token.plain (kind : String) : Token := ⟨kind, kind, none⟩

variable {α : Type u} [Ord α] [TransOrd α] [LawfulEqOrd α]

/-- The search with at most `limit` visits, which gives up where `next?` does. -/
def exploreWithin (next? : α → Option (List α)) :
    Nat → Array (Visit α) → KeyedSet (id : α → α) → Option (List (Visit α))
  | 0, _, _ => none
  | limit + 1, visited, met =>
    match met.get? visited.size with
    | none => some visited.toList
    | some x => (next? x).bind fun found =>
      exploreWithin next? limit (visited.push ⟨x, found⟩) (met.insertAll found)

theorem exploreFrom_of_exploreWithin {next : α → List α} {next? : α → Option (List α)} {start : List α}
    (hnext : ∀ x found, next? x = some found → next x = found) (hconfined : Confined next start) {limit : Nat}
    {visited : Array (Visit α)} {met : KeyedSet (id : α → α)} (hinvariant : SearchInvariant next start visited met)
    {visits : List (Visit α)} (h : exploreWithin next? limit visited met = some visits) :
    exploreFrom next start hconfined visited met hinvariant = visits := by
  induction limit generalizing visited met with
  | zero => cases h
  | succ limit ih =>
    rw [exploreWithin] at h
    rw [exploreFrom]
    split
    · rename_i hnone
      rw [hnone] at h
      exact Option.some.inj h
    · rename_i x hx
      rw [hx] at h
      obtain ⟨found, hfound, hrest⟩ := Option.bind_eq_some_iff.1 h
      have hfound' := hnext x found hfound
      subst hfound'
      exact ih _ hrest

theorem explore_of_exploreWithin {next : α → List α} {next? : α → Option (List α)} {start : List α}
    (hnext : ∀ x found, next? x = some found → next x = found) (hconfined : Confined next start) {limit : Nat}
    {visits : List (Visit α)} (h : exploreWithin next? limit #[] (.ofList start) = some visits) :
    explore next start hconfined = visits :=
  exploreFrom_of_exploreWithin hnext hconfined .init h

theorem map_of_mapM {β γ : Type} {f : β → γ} {f? : β → Option γ} (hf : ∀ x y, f? x = some y → f x = y)
    {xs : List β} {ys : List γ} (h : xs.mapM f? = some ys) : xs.map f = ys := by
  induction xs generalizing ys with
  | nil =>
    rw [List.mapM_nil] at h
    exact Option.some.inj h
  | cons x rest ih =>
    rw [List.mapM_cons] at h
    obtain ⟨y, hy, hrest⟩ := Option.bind_eq_some_iff.1 h
    obtain ⟨more, hmore, heq⟩ := Option.bind_eq_some_iff.1 hrest
    rw [List.map_cons, hf x y hy, ih hmore]
    exact Option.some.inj heq

/-! ### Item sets -/

namespace ItemSet

/-- The pending symbols, inserted one by one. -/
def pendingList (s : ItemSet) : List Symbol :=
  ((s.toList.filterMap Item.current?).foldl .insert .empty : SortedSet Symbol).toList

theorem pendingList_eq (s : ItemSet) : s.pendingList = s.pending.toList := by
  rw [pendingList, pending, SortedSet.ofList_eq_foldl_insert]

def closureWithin (limit : Nat) (g : Grammar) (first : TerminalSets) (s : ItemSet) : Option ItemSet :=
  (exploreWithin (some ∘ Goal.subgoals g first) limit #[] (.ofList (s.toList.flatMap (Item.goals first)))).map
    fun visits => (s.toList ++ (visits.map Visit.node).flatMap (Goal.items g)).foldl .insert .empty

theorem closure_of_closureWithin {limit : Nat} {g : Grammar} {first : TerminalSets} {s s' : ItemSet}
    (h : s.closureWithin limit g first = some s') : s.closure g first = s' := by
  obtain ⟨visits, hvisits, rfl⟩ := Option.map_eq_some_iff.1 h
  have hexplore := explore_of_exploreWithin (fun _ _ hfound => Option.some.inj hfound)
    (Goal.confined_goals g first _) hvisits
  rw [closure, allGoals, hexplore, SortedSet.ofList_eq_foldl_insert]

def successorsWithin (limit : Nat) (g : Grammar) (first : TerminalSets) (s : ItemSet) : Option (List ItemSet) :=
  s.pendingList.mapM fun x =>
    closureWithin limit g first ((s.toList.filterMap (·.advance? x)).foldl .insert .empty)

theorem successors_of_successorsWithin {limit : Nat} {g : Grammar} {first : TerminalSets} {s : ItemSet}
    {found : List ItemSet} (h : s.successorsWithin limit g first = some found) :
    successors g first s = found := by
  rw [successors_eq, ← pendingList_eq]
  refine map_of_mapM (fun x s' hs' => ?_) h
  rw [successor, SortedSet.ofList_eq_foldl_insert]
  exact closure_of_closureWithin hs'

end ItemSet

/-! ### Automata and tables -/

namespace Automaton

def transitionsWithin (states : KeyedSet ItemSet.key) (source : Nat) (v : Visit ItemSet) : List Transition :=
  (v.node.pendingList.zip v.next).filterMap fun (label, next) =>
    (states.indexOf? next).map fun target => ⟨source, label, target⟩

def within (limit : Nat) (g : Grammar) : Option Automaton :=
  (ItemSet.closureWithin limit g g.first (SortedSet.empty.insert (.initial g.root .endMarker))).bind fun start =>
    (exploreWithin (ItemSet.successorsWithin limit g g.first) limit #[] (.ofList [start])).map fun visits =>
      let states := .ofList (visits.map Visit.node)
      ⟨states, .ofList (visits.zipIdx.flatMap fun (v, source) => transitionsWithin states source v)⟩

theorem ofGrammar_of_within {limit : Nat} {g : Grammar} {a : Automaton} (h : within limit g = some a) :
    ofGrammar g = a := by
  obtain ⟨start, hstart, hrest⟩ := Option.bind_eq_some_iff.1 h
  obtain ⟨visits, hvisits, rfl⟩ := Option.map_eq_some_iff.1 hrest
  have hinitial : ItemSet.initial g g.first = start := by
    rw [ItemSet.initial, SortedSet.ofList_eq_foldl_insert]
    exact ItemSet.closure_of_closureWithin hstart
  subst hinitial
  have hsearch : search g g.first = visits :=
    explore_of_exploreWithin (fun _ _ => ItemSet.successors_of_successorsWithin) _ hvisits
  have htransitions : transitionsFrom = transitionsWithin := by
    funext states source v
    rw [transitionsFrom, transitionsWithin, ItemSet.pendingList_eq]
  rw [ofGrammar, build, hsearch, htransitions]

end Automaton

namespace Table

/-- The grammar of a text and its table, computed with at most `limit` visits in a search. -/
def within (policy : ConflictPolicy) (limit : Nat) (source : String) : Option (Grammar × Table) :=
  (Grammar.ofSource source).toOption.bind fun g => (Automaton.within limit g).bind fun a =>
    (build policy a g).toOption.map fun t => (g, t)

theorem eq_ok_of_toOption {ε β : Type} {x : Except ε β} {y : β} (h : x.toOption = some y) : x = .ok y := by
  cases x with
  | error e => cases h
  | ok z => exact congrArg Except.ok (Option.some.inj h)

theorem ofSource_of_within {policy : ConflictPolicy} {limit : Nat} {source : String} {g : Grammar} {t : Table}
    (h : within policy limit source = some (g, t)) :
    Grammar.ofSource source = .ok g ∧ ofGrammar policy g = .ok t := by
  obtain ⟨g', hg, hrest⟩ := Option.bind_eq_some_iff.1 h
  obtain ⟨a, ha, hrest⟩ := Option.bind_eq_some_iff.1 hrest
  obtain ⟨t', ht, heq⟩ := Option.map_eq_some_iff.1 hrest
  injection heq with hgrammar htable
  subst hgrammar htable
  refine ⟨eq_ok_of_toOption hg, ?_⟩
  rw [ofGrammar, Automaton.ofGrammar_of_within ha]
  exact eq_ok_of_toOption ht

/-- What is decided of the computed table is true of the grammar's table. -/
theorem exists_table_of_within (policy : ConflictPolicy) (limit : Nat) (source : String)
    {P : Grammar → Table → Prop} [∀ g t, Decidable (P g t)]
    (h : (within policy limit source).any (fun (g, t) => decide (P g t)) = true) :
    ∃ g t, Grammar.ofSource source = .ok g ∧ ofGrammar policy g = .ok t ∧ P g t := by
  obtain ⟨⟨g, t⟩, hwithin, hdecide⟩ := (Option.any_eq_true _ _).1 h
  obtain ⟨hg, ht⟩ := ofSource_of_within hwithin
  exact ⟨g, t, hg, ht, of_decide_eq_true hdecide⟩

end Table

end CanonicalLR
