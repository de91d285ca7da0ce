import CanonicalLR.Proofs.Automaton.Collection
import CanonicalLR.Proofs.Table.Conflicts

/-!
# Conflicts between productions

A reduction keeps only the name and the length of its production, but that is enough to tell productions apart where it matters: the symbols of a complete item are the end of every path to its state, so complete items of one state that agree on name and length have the same symbols (`Places.production_eq`). Hence a table has conflicts exactly when in some state, over some terminal, a shift meets a reduction or the reductions by two productions meet (`exists_conflict_iff`).
-/

namespace CanonicalLR

theorem Item.isComplete_iff {i : Item} : i.isComplete ↔ i.current? = none := by
  rw [isComplete, decide_eq_true_eq, current?, List.getElem?_eq_none_iff, Production.size]

namespace ItemSet

/-- An item expects the terminal, and a complete one has it for its lookahead. -/
def ShiftReduce (s : ItemSet) (x : Terminal) : Prop :=
  ∃ i ∈ s, ∃ j ∈ s, i.current? = some (.terminal x) ∧ j.isComplete ∧ j.lookahead = x

/-- Complete items of different productions have the terminal for their lookahead. -/
def ReduceReduce (s : ItemSet) (x : Terminal) : Prop :=
  ∃ i ∈ s, ∃ j ∈ s, i.isComplete ∧ j.isComplete ∧ i.lookahead = x ∧ j.lookahead = x
    ∧ i.production ≠ j.production

end ItemSet

namespace Grammar

variable {g : Grammar} {path : List Symbol} {i j : Item}

theorem Places.exists_before (h : g.Places path i) (hcomplete : i.isComplete) :
    ∃ before, path = before ++ i.production.symbols := by
  obtain ⟨before, hpath, -⟩ := h.split
  rw [h.dot_eq (Item.isComplete_iff.1 hcomplete), Production.size, List.take_length] at hpath
  exact ⟨before, hpath⟩

/-- Productions that are complete behind one path are told apart by name and length. -/
theorem Places.production_eq (hi : g.Places path i) (hj : g.Places path j) (hcomplete : i.isComplete)
    (hcomplete' : j.isComplete) (hname : i.production.name = j.production.name)
    (hsize : i.production.size = j.production.size) : i.production = j.production := by
  obtain ⟨before, hpath⟩ := hi.exists_before hcomplete
  obtain ⟨before', hpath'⟩ := hj.exists_before hcomplete'
  have hsymbols : i.production.symbols = j.production.symbols :=
    (List.append_inj' (hpath.symm.trans hpath') hsize).2
  calc i.production
    _ = ⟨i.production.name, i.production.symbols⟩ := rfl
    _ = ⟨j.production.name, j.production.symbols⟩ := by rw [hname, hsymbols]
    _ = j.production := rfl

end Grammar

/-- What complete items do on one lookahead tells their productions' names and lengths. -/
theorem Item.name_size_of_completion_eq {i j : Item} (hlookahead : i.lookahead = j.lookahead)
    (h : i.completion = j.completion) :
    i.production.name = j.production.name ∧ i.production.size = j.production.size := by
  rw [completion_eq, completion_eq, hlookahead] at h
  split at h
  · rename_i hroot
    split at h
    · rename_i hroot'
      exact ⟨hroot.2.trans hroot'.2.symm, Action.accept.inj h⟩
    · cases h
  · split at h
    · cases h
    · exact Action.reduce.inj h

namespace Automaton

variable {g : Grammar} {state : Nat} {s : ItemSet} {i j : Item}

theorem completion_ne (hs : (ofGrammar g).itemSet? state = some s) (hi : i ∈ s) (hj : j ∈ s)
    (hcomplete : i.isComplete) (hcomplete' : j.isComplete) (hlookahead : i.lookahead = j.lookahead)
    (hproduction : i.production ≠ j.production) : i.completion ≠ j.completion := by
  intro hsame
  obtain ⟨path, hwalk⟩ := exists_walk?_of_itemSet? hs
  have hi := (mem_itemSet_iff hwalk hs).1 hi
  have hj := (mem_itemSet_iff hwalk hs).1 hj
  obtain ⟨hname, hsize⟩ := Item.name_size_of_completion_eq hlookahead hsame
  exact hproduction (hi.production_eq hj hcomplete hcomplete' hname hsize)

theorem clashes_iff (hs : (ofGrammar g).itemSet? state = some s) :
    s.Clashes ↔ ∃ x, s.ShiftReduce x ∨ s.ReduceReduce x := by
  constructor
  · intro h
    obtain ⟨i, hi, j, hj, hcurrent', hodds⟩ := h
    have hcomplete' := Item.isComplete_iff.2 hcurrent'
    refine ⟨j.lookahead, ?_⟩
    rcases hodds with hcurrent | ⟨hcurrent, hlookahead, hne⟩
    · exact .inl ⟨i, hi, j, hj, hcurrent, hcomplete', rfl⟩
    · refine .inr ⟨i, hi, j, hj, Item.isComplete_iff.2 hcurrent, hcomplete', hlookahead, rfl, fun hproduction => ?_⟩
      rw [Item.completion_eq, Item.completion_eq, hlookahead, hproduction] at hne
      exact hne rfl
  · intro h
    obtain ⟨x, ⟨i, hi, j, hj, hcurrent, hcomplete', rfl⟩ | hreduce⟩ := h
    · exact ⟨i, hi, j, hj, Item.isComplete_iff.1 hcomplete', .inl hcurrent⟩
    · obtain ⟨i, hi, j, hj, hcomplete, hcomplete', rfl, hlookahead, hproduction⟩ := hreduce
      have hne := completion_ne hs hi hj hcomplete hcomplete' hlookahead.symm hproduction
      exact ⟨i, hi, j, hj, Item.isComplete_iff.1 hcomplete',
        .inr ⟨Item.isComplete_iff.1 hcomplete, hlookahead.symm, hne⟩⟩

end Automaton

namespace Table

/-- The overwriting table of a grammar has conflicts exactly when somewhere a shift meets a reduction or the reductions by two productions meet. Productions that are complete in one state on one lookahead always act differently. -/
theorem exists_conflict_iff (g : Grammar) :
    (∃ t, ofGrammar .overwrite g = .ok t ∧ (t.conflicts ≠ [] ↔
      ∃ state s, (Automaton.ofGrammar g).itemSet? state = some s ∧ ∃ x, s.ShiftReduce x ∨ s.ReduceReduce x)) ∧
    ∀ state s, (Automaton.ofGrammar g).itemSet? state = some s → ∀ i ∈ s, ∀ j ∈ s,
      i.isComplete → j.isComplete → i.lookahead = j.lookahead → i.production ≠ j.production →
      i.completion ≠ j.completion := by
  constructor
  · obtain ⟨t, ht, -⟩ := build_policies (.ofGrammar g) g
    refine ⟨t, ht, ?_⟩
    rw [ne_eq, conflicts_eq_nil_iff ht]
    simp only [not_forall, not_not, exists_prop]
    exact exists₂_congr fun state s => and_congr_right Automaton.clashes_iff
  · intro state s hs i hi j hj hcomplete hcomplete' hlookahead hproduction
    exact Automaton.completion_ne hs hi hj hcomplete hcomplete' hlookahead hproduction

end Table

end CanonicalLR
