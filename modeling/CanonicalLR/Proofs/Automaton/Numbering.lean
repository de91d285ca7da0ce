import CanonicalLR.Collection.Distinct
import CanonicalLR.Proofs.Automaton.Collection

/-!
# The numbers of states

Departures leave the worklist in the order in which they were put there, so transitions come about in the order of their sources and labels, and a state gets its number when the first of them leads to it. `Worklist.Numbered` says this of a worklist at any moment: the departures left stand behind the transitions made, in one order, and the states that the transitions have led to are those below the next number. What a step does to it depends only on whether the step leads to a state that is known (`Numbered.known`) or to a new one (`Numbered.discover`). The symbol on which a state is entered can be read off its items: it stands before the dot wherever something does (`label_before_dot`).
-/

namespace CanonicalLR

open Relation

theorem compare_departure (d e : Nat × Symbol) : compare d e = (compare d.1 e.1).then (compare d.2 e.2) := rfl

theorem compare_departure_of_lt {d e : Nat × Symbol} (h : d.1 < e.1) : compare d e = .lt := by
  rw [compare_departure, Nat.compare_eq_lt.2 h]
  rfl

namespace Worklist

variable {g : Grammar} {w w' : Worklist} {source : Nat} {x : Symbol} {rest : List (Nat × Symbol)}

/-! ### One step -/

theorem fst_of_mem_departuresFrom {state : Nat} {s : ItemSet} {d : Nat × Symbol}
    (hd : d ∈ departuresFrom state [s]) : d.1 = state := by
  rw [departuresFrom, departuresFrom, List.append_nil] at hd
  obtain ⟨y, -, rfl⟩ := List.mem_map.1 hd
  rfl

theorem pairwise_departuresFrom_singleton (state : Nat) (s : ItemSet) :
    (departuresFrom state [s]).Pairwise fun d e => compare d e = .lt := by
  rw [departuresFrom, departuresFrom, List.append_nil, List.pairwise_map]
  refine s.pending.sorted.imp fun h => ?_
  rw [compare_departure, Nat.compare_eq_eq.2 rfl]
  exact h

/-- The first departure is dropped, or it leads to a known state or to a new one. -/
theorem follows_cases (h : w.Follows g w') : ∃ source x rest, w.departures = (source, x) :: rest ∧
    (w' = { w with departures := rest } ∨
      (∃ target < w.states.size, w' = ⟨w.states, w.transitions.insert ⟨source, x, target⟩, rest⟩) ∨
      ∃ next hnew, w' = ⟨w.states.push next hnew, w.transitions.insert ⟨source, x, w.states.size⟩,
        rest ++ departuresFrom w.states.size [next]⟩) := by
  rw [Follows, follow?] at h
  split at h
  · cases h
  rename_i source x rest hdepartures
  refine ⟨source, x, rest, hdepartures, ?_⟩
  split at h
  · exact .inl (Option.some.inj h).symm
  rename_i next hnext
  cases hposition : w.states.positionOf? next.key with
  | some target =>
    rw [KeyedSet.add_of_positionOf? hposition] at h
    have hlt := (List.getElem?_eq_some_iff.1 (KeyedSet.positionOf?_eq_some_iff.1 hposition)).1
    rw [List.length_map] at hlt
    exact .inr (.inl ⟨target, hlt, (Option.some.inj h).symm⟩)
  | none =>
    rw [KeyedSet.add_of_positionOf?_none hposition] at h
    exact .inr (.inr ⟨next, hposition, (Option.some.inj h).symm⟩)

/-! ### All steps -/

/-- The transitions made and the departures left are in one order, the transitions have led to the states below the next number, in the order of their numbers, and to each of them from an earlier one. -/
structure Numbered (w : Worklist) : Prop where
  ordered : (w.transitions.toList.map Transition.key ++ w.departures).Pairwise fun d e => compare d e = .lt
  below : ∀ d ∈ w.transitions.toList.map Transition.key ++ w.departures, d.1 < w.states.size
  discovered : distinct (0 :: w.transitions.toList.map Transition.target) = List.range w.states.size
  entered : ∀ k, 0 < k → k < w.states.size → ∃ t ∈ w.transitions.toList, t.source < k ∧ t.target = k

theorem numbered_start (g : Grammar) : (start g).Numbered where
  ordered := pairwise_departuresFrom_singleton 0 _
  below _ hd := (fst_of_mem_departuresFrom hd).symm ▸ Nat.zero_lt_one
  discovered := distinct_of_nodup (List.nodup_singleton 0)
  entered k hpos hlt := absurd (Nat.lt_of_lt_of_le hlt hpos) (Nat.lt_irrefl k)

theorem Numbered.toList_insert (hw : w.Numbered) (hdepartures : w.departures = (source, x) :: rest) (target : Nat) :
    (w.transitions.insert ⟨source, x, target⟩).toList = w.transitions.toList ++ [⟨source, x, target⟩] := by
  refine KeyedSet.toList_insert_of_not_mem fun hmem => ?_
  have hordered := hw.ordered
  rw [hdepartures, List.pairwise_append] at hordered
  have hlt : compare (source, x) (source, x) = .lt := hordered.2.2 _ hmem _ List.mem_cons_self
  rw [compare_departure, Nat.compare_eq_eq.2 rfl, Std.ReflOrd.compare_self] at hlt
  cases hlt

theorem Numbered.keys_insert (hw : w.Numbered) (hdepartures : w.departures = (source, x) :: rest) (target : Nat) :
    (w.transitions.insert ⟨source, x, target⟩).toList.map Transition.key ++ rest
      = w.transitions.toList.map Transition.key ++ w.departures := by
  rw [hw.toList_insert hdepartures, hdepartures, List.map_append, List.append_assoc]
  rfl

theorem Numbered.drop (hw : w.Numbered) (hdepartures : w.departures = (source, x) :: rest) :
    ({ w with departures := rest } : Worklist).Numbered := by
  have hsublist : (w.transitions.toList.map Transition.key ++ rest).Sublist
      (w.transitions.toList.map Transition.key ++ w.departures) := by
    rw [hdepartures]
    exact (List.sublist_cons_self _ rest).append_left _
  exact ⟨hw.ordered.sublist hsublist, fun d hd => hw.below d (hsublist.subset hd), hw.discovered, hw.entered⟩

theorem Numbered.known (hw : w.Numbered) (hdepartures : w.departures = (source, x) :: rest) {target : Nat}
    (htarget : target < w.states.size) :
    (⟨w.states, w.transitions.insert ⟨source, x, target⟩, rest⟩ : Worklist).Numbered where
  ordered := hw.keys_insert hdepartures target ▸ hw.ordered
  below := hw.keys_insert hdepartures target ▸ hw.below
  discovered := by
    have hmem : target ∈ 0 :: w.transitions.toList.map Transition.target := by
      rw [← mem_distinct, hw.discovered, List.mem_range]
      exact htarget
    rw [hw.toList_insert hdepartures, List.map_append, List.map_singleton, ← List.cons_append,
      distinct_concat_of_mem hmem, hw.discovered]
  entered k hpos hlt := by
    obtain ⟨t, ht, hentered⟩ := hw.entered k hpos hlt
    rw [hw.toList_insert hdepartures]
    exact ⟨t, List.mem_append_left _ ht, hentered⟩

theorem Numbered.discover (hw : w.Numbered) (hdepartures : w.departures = (source, x) :: rest) {next : ItemSet}
    (hnew : w.states.positionOf? next.key = none) :
    (⟨w.states.push next hnew, w.transitions.insert ⟨source, x, w.states.size⟩,
      rest ++ departuresFrom w.states.size [next]⟩ : Worklist).Numbered := by
  have hsize : (w.states.push next hnew).size = w.states.size + 1 := by
    rw [KeyedSet.size_eq, KeyedSet.toList_push, List.length_append, ← KeyedSet.size_eq]
    rfl
  have hkeys := hw.keys_insert hdepartures w.states.size
  refine ⟨?_, ?_, ?_, ?_⟩
  · rw [← List.append_assoc, hkeys, List.pairwise_append]
    refine ⟨hw.ordered, pairwise_departuresFrom_singleton _ _, fun d hd e he => compare_departure_of_lt ?_⟩
    rw [fst_of_mem_departuresFrom he]
    exact hw.below d hd
  · intro d hd
    rw [← List.append_assoc, hkeys] at hd
    rw [hsize]
    rcases List.mem_append.1 hd with hd | hd
    · exact Nat.lt_succ_of_lt (hw.below d hd)
    · rw [fst_of_mem_departuresFrom hd]
      exact Nat.lt_succ_self _
  · have hfresh : w.states.size ∉ 0 :: w.transitions.toList.map Transition.target := by
      rw [← mem_distinct, hw.discovered, List.mem_range]
      exact Nat.lt_irrefl _
    rw [hw.toList_insert hdepartures, List.map_append, List.map_singleton, ← List.cons_append,
      distinct_concat_of_not_mem hfresh, hw.discovered, hsize, List.range_succ]
  · intro k hpos hlt
    rw [hw.toList_insert hdepartures]
    rw [hsize] at hlt
    rcases Nat.lt_succ_iff_lt_or_eq.1 hlt with hlt | rfl
    · obtain ⟨t, ht, hentered⟩ := hw.entered k hpos hlt
      exact ⟨t, List.mem_append_left _ ht, hentered⟩
    · refine ⟨_, List.mem_append_right _ (List.mem_singleton_self _), ?_, rfl⟩
      exact hw.below (source, x) (hdepartures ▸ List.mem_append_right _ List.mem_cons_self)

theorem Numbered.follow (hw : w.Numbered) (h : w.Follows g w') : w'.Numbered := by
  obtain ⟨source, x, rest, hdepartures, rfl | ⟨target, htarget, rfl⟩ | ⟨next, hnew, rfl⟩⟩ := follows_cases h
  · exact hw.drop hdepartures
  · exact hw.known hdepartures htarget
  · exact hw.discover hdepartures hnew

theorem numbered_of_reaches (h : ReflTransGen (Follows g) (start g) w) : w.Numbered := by
  induction h with
  | refl => exact numbered_start g
  | tail _ hfollows ih => exact ih.follow hfollows

end Worklist

namespace Automaton

variable {g : Grammar} {t u : Transition}

/-! ### Entering a state -/

theorem exists_walk?_of_mem_transitions (ht : t ∈ (ofGrammar g).transitions.toList) :
    ∃ path, (ofGrammar g).walk? (path ++ [t.label]) = some t.target := by
  obtain ⟨s, hs, -, -⟩ := mem_transitions_iff.1 ht
  obtain ⟨path, hpath⟩ := exists_walk?_of_itemSet? hs
  refine ⟨path, ?_⟩
  rw [walk?_concat, hpath]
  exact mem_transitions_iff_goto?.1 ht

theorem exists_moved (ht : t ∈ (ofGrammar g).transitions.toList) :
    ∃ s, (ofGrammar g).itemSet? t.target = some s ∧ ∃ i ∈ s, 0 < i.dot := by
  obtain ⟨s, -, hlabel, htarget⟩ := mem_transitions_iff.1 ht
  obtain ⟨i, hi, hcurrent⟩ := ItemSet.mem_pending.1 hlabel
  have hadvance : i.advance? t.label = some { i with dot := i.dot + 1 } := Item.advance?_eq_some_iff.2 ⟨hcurrent, rfl⟩
  exact ⟨_, htarget, _, mem_successor_of_advance? hi hadvance, Nat.succ_pos _⟩

theorem label_before_dot (ht : t ∈ (ofGrammar g).transitions.toList) {s : ItemSet}
    (hs : (ofGrammar g).itemSet? t.target = some s) {i : Item} (hi : i ∈ s) (hdot : 0 < i.dot) :
    i.production.symbols[i.dot - 1]? = some t.label := by
  obtain ⟨path, hpath⟩ := exists_walk?_of_mem_transitions ht
  have hplaces := places_of_mem_itemSet hpath hs hi
  obtain ⟨before, hbefore, -⟩ := hplaces.split
  have hlt : i.dot - 1 < i.production.symbols.length := by
    have hle : i.dot ≤ i.production.symbols.length := hplaces.dot_le
    omega
  have htake : i.production.symbols.take i.dot
      = i.production.symbols.take (i.dot - 1) ++ [i.production.symbols[i.dot - 1]] := by
    rw [← List.take_succ_eq_append_getElem hlt, Nat.sub_add_cancel hdot]
  rw [htake, ← List.append_assoc] at hbefore
  rw [(List.append_singleton_inj.1 hbefore).2]
  exact List.getElem?_eq_getElem hlt

theorem target_ne_zero (ht : t ∈ (ofGrammar g).transitions.toList) : t.target ≠ 0 := by
  intro hzero
  obtain ⟨s, hs, i, hi, hdot⟩ := exists_moved ht
  rw [hzero] at hs
  have hplaces : g.Places [] i := places_of_mem_itemSet rfl hs hi
  obtain ⟨before, hbefore, -⟩ := hplaces.split
  have hlength := congrArg List.length (List.append_eq_nil_iff.1 hbefore.symm).2
  have hle : i.dot ≤ i.production.symbols.length := hplaces.dot_le
  rw [List.length_take, Nat.min_eq_left hle] at hlength
  exact absurd hlength (Nat.ne_of_gt hdot)

theorem label_eq (ht : t ∈ (ofGrammar g).transitions.toList) (hu : u ∈ (ofGrammar g).transitions.toList)
    (htarget : t.target = u.target) : t.label = u.label := by
  obtain ⟨s, hs, i, hi, hdot⟩ := exists_moved ht
  have hbefore := label_before_dot ht hs hi hdot
  rw [htarget] at hs
  exact Option.some.inj (hbefore.symm.trans (label_before_dot hu hs hi hdot))

/-! ### Numbers -/

theorem exists_range_of_distinct {before more : List Nat} {size : Nat}
    (h : distinct (before ++ more) = List.range size) : ∃ unused, distinct before = List.range unused := by
  obtain ⟨added, hadded⟩ := exists_distinct_append before more
  have hprefix : distinct before <+: List.range size := ⟨added, hadded.symm.trans h⟩
  refine ⟨min (distinct before).length size, ?_⟩
  rw [← List.take_range]
  exact List.prefix_iff_eq_take.1 hprefix

/-- Where numbers first come in their order, those that have come are the ones below some number, and the next is one of them or is that number. -/
theorem exists_unused_of_distinct {before after : List Nat} {k size : Nat}
    (h : distinct (before ++ k :: after) = List.range size) :
    ∃ unused, (∀ m, m ∈ before ↔ m < unused) ∧ k ≤ unused := by
  obtain ⟨unused, hunused⟩ := exists_range_of_distinct h
  have hmet (m : Nat) : m ∈ before ↔ m < unused := by rw [← mem_distinct, hunused, List.mem_range]
  refine ⟨unused, hmet, ?_⟩
  by_cases hk : k ∈ before
  · exact Nat.le_of_lt ((hmet k).1 hk)
  · rw [← List.singleton_append, ← List.append_assoc] at h
    obtain ⟨next, hnext⟩ := exists_range_of_distinct h
    rw [distinct_concat_of_not_mem hk, hunused] at hnext
    have hget : (List.range next)[unused]? = some k := by
      rw [← hnext, List.getElem?_append_right (Nat.le_of_eq List.length_range), List.length_range, Nat.sub_self]
      rfl
    obtain ⟨hlt, rfl⟩ := List.getElem?_eq_some_iff.1 hget
    rw [List.getElem_range]

/-- Transitions are listed by source, then by label. Read in this order, they lead to a state that has been met, counting state zero, or else to the one with the next unused number, until all numbers are used; so every other state is entered from an earlier one. None leads to state zero, and those that lead to one state have the same label, which stands before the dot in all its items where something does. -/
structure IsNumberedByDiscovery (a : Automaton) : Prop where
  ordered : (a.transitions.toList.map Transition.key).Pairwise fun d e => compare d e = .lt
  next_unused : ∀ before t after, a.transitions.toList = before ++ t :: after →
    ∃ unused, (∀ k, k ∈ 0 :: before.map Transition.target ↔ k < unused) ∧ t.target ≤ unused
  discovered : ∀ k, k ∈ 0 :: a.transitions.toList.map Transition.target ↔ k < a.size
  entered : ∀ k, 0 < k → k < a.size → ∃ t ∈ a.transitions.toList, t.source < k ∧ t.target = k
  target_ne_zero : ∀ t ∈ a.transitions.toList, t.target ≠ 0
  label_eq : ∀ t ∈ a.transitions.toList, ∀ u ∈ a.transitions.toList, t.target = u.target → t.label = u.label
  label_before_dot : ∀ t ∈ a.transitions.toList, ∃ s, a.itemSet? t.target = some s ∧
    ∀ i ∈ s, 0 < i.dot → i.production.symbols[i.dot - 1]? = some t.label

theorem isNumberedByDiscovery (g : Grammar) : (ofGrammar g).IsNumberedByDiscovery := by
  have hnumbered := Worklist.numbered_of_reaches (Worklist.reaches_ofGrammar g)
  have hordered := hnumbered.ordered
  rw [List.append_nil] at hordered
  refine ⟨hordered, fun before t after htransitions => ?_, fun k => ?_, hnumbered.entered,
    fun _ => target_ne_zero, fun _ ht _ hu => label_eq ht hu, fun t ht => ?_⟩
  · have hdiscovered := hnumbered.discovered
    rw [htransitions, List.map_append, List.map_cons, ← List.cons_append] at hdiscovered
    exact exists_unused_of_distinct hdiscovered
  · rw [← mem_distinct, hnumbered.discovered, List.mem_range]
    rfl
  · obtain ⟨s, hs, -⟩ := exists_moved ht
    exact ⟨s, hs, fun _ hi hdot => label_before_dot ht hs hi hdot⟩

end Automaton

end CanonicalLR
