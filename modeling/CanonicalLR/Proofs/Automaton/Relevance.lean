import CanonicalLR.Proofs.Automaton.Items
import CanonicalLR.Proofs.Grammar.Relevance

/-!
# Automata of grammars with the same relevant productions

Every item of an automaton is of a relevant production, for the root's is and an item lets only such items start. On sets of such items closures and successors depend on the relevant productions alone. They are equal as lists, not only as sets, because the members of a set stand in the order of their values. So the searches for the item sets make the same visits in the same order (`explore_congr`), and the automata are equal, with the same numbers for the same states (`ofGrammar_eq`).
-/

namespace CanonicalLR

open Std

universe u

variable {α : Type u} {next next' : α → List α} {start : List α}

/-! ### Searches that go on alike -/

variable [Ord α] [TransOrd α] [LawfulEqOrd α]

theorem exploreFrom_congr (hnext : ∀ x, Reachable next start x → next' x = next x)
    (hconfined : Confined next start) (hconfined' : Confined next' start) {visited : Array (Visit α)}
    {met : KeyedSet (id : α → α)} (h : SearchInvariant next start visited met)
    (h' : SearchInvariant next' start visited met) :
    exploreFrom next' start hconfined' visited met h' = exploreFrom next start hconfined visited met h := by
  fun_induction exploreFrom next start hconfined visited met h with
  | case1 visited met h hnone =>
    rw [exploreFrom]
    split
    · rfl
    · rename_i x hx
      cases hnone.symm.trans hx
  | case2 visited met h x hx found ih =>
    rw [exploreFrom]
    split
    · rename_i hnone
      cases hnone.symm.trans hx
    · rename_i y hy
      obtain rfl := Option.some.inj (hx.symm.trans hy)
      have hmem : x ∈ met.toList := by
        rw [KeyedSet.get?_eq] at hx
        exact List.mem_of_getElem? hx
      have hfound : next' x = found := hnext x (h.reachable x hmem)
      simp only [hfound]
      exact ih _

/-- Searches that find the same behind all that is met make the same visits. -/
theorem explore_congr {start' : List α} (hstart : start' = start)
    (hnext : ∀ x, Reachable next start x → next' x = next x) (hconfined : Confined next start)
    (hconfined' : Confined next' start') : explore next' start' hconfined' = explore next start hconfined := by
  subst hstart
  exact exploreFrom_congr hnext hconfined hconfined' .init .init

/-! ### Item sets -/

variable {g h : Grammar} {s : ItemSet}

namespace ItemSet

/-- The items of the set are of relevant productions. -/
def Relevant (g : Grammar) (s : ItemSet) : Prop := ∀ i ∈ s, g.Relevant i.production

theorem relevant_start (g : Grammar) : Relevant g (.ofList [.initial g.root .endMarker]) := by
  intro i hi
  rw [List.mem_singleton.1 (SortedSet.mem_ofList.1 hi)]
  exact g.relevant_root

theorem Relevant.advance (hs : s.Relevant g) (x : Symbol) :
    Relevant g (.ofList (s.toList.filterMap (·.advance? x))) := by
  intro j hj
  obtain ⟨i, hi, hadvance⟩ := List.mem_filterMap.1 (SortedSet.mem_ofList.1 hj)
  obtain ⟨-, rfl⟩ := Item.advance?_eq_some_iff.1 hadvance
  exact hs i hi

theorem Relevant.mem_closure (hs : s.Relevant g) (hgh : g.SameRelevant h) {i : Item}
    (hi : i ∈ s.closure g g.first) : g.Relevant i.production ∧ i ∈ s.closure h h.first := by
  rw [mem_closure_iff] at hi ⊢
  exact hi.congr_within hs fun i hi j hj => ⟨hi.expansion hj, hgh.mem_expansion hi hj⟩

theorem Relevant.closure (hs : s.Relevant g) : (s.closure g g.first).Relevant g :=
  fun _ hi => (hs.mem_closure (fun _ => Iff.rfl) hi).1

theorem Relevant.closure_eq (hs : s.Relevant g) (hgh : g.SameRelevant h) :
    s.closure h h.first = s.closure g g.first := by
  have hs' : s.Relevant h := fun i hi => (hgh _).1 (hs i hi)
  exact SortedSet.ext_mem fun i => ⟨fun hi => (hs'.mem_closure hgh.symm hi).2, fun hi => (hs.mem_closure hgh hi).2⟩

theorem initial_eq (hgh : g.SameRelevant h) : initial h h.first = initial g g.first := by
  rw [initial, initial, ← hgh.root_eq]
  exact (relevant_start g).closure_eq hgh

theorem Relevant.successors_eq (hs : s.Relevant g) (hgh : g.SameRelevant h) :
    successors h h.first s = successors g g.first s := by
  rw [ItemSet.successors_eq, ItemSet.successors_eq]
  exact List.map_congr_left fun x _ => (hs.advance x).closure_eq hgh

theorem relevant_of_reachable (hs : Reachable (successors g g.first) [initial g g.first] s) : s.Relevant g := by
  induction hs with
  | start hs =>
    rw [List.mem_singleton.1 hs]
    exact (relevant_start g).closure
  | step _ hs ih =>
    rw [ItemSet.successors_eq] at hs
    obtain ⟨x, -, rfl⟩ := List.mem_map.1 hs
    exact (ih.advance x).closure

end ItemSet

namespace Automaton

theorem search_eq (hgh : g.SameRelevant h) : search h h.first = search g g.first :=
  explore_congr (congrArg (fun s => [s]) (ItemSet.initial_eq hgh))
    (fun _ hs => (ItemSet.relevant_of_reachable hs).successors_eq hgh) _ _

theorem ofGrammar_eq (hgh : g.SameRelevant h) : ofGrammar h = ofGrammar g := by
  rw [ofGrammar, ofGrammar, build, build, search_eq hgh]

end Automaton

end CanonicalLR
