import CanonicalLR.Automaton
import Mathlib.Data.List.Nodup
import Mathlib.Data.List.Sigma

/-!
# States and transitions

The states of an automaton are different item sets (`itemSet?_injective`), state zero is the closure of the root's start (`itemSet?_zero`), and a transition leads on `x` from one state to another exactly when `x` is pending in the first and the second is its successor (`goto?_eq_some_iff`). Every pending symbol has a transition (`exists_goto`). Nothing else is used of how the automaton was searched for.
-/

namespace CanonicalLR

namespace ItemSet

theorem key_injective : Function.Injective ItemSet.key := fun _ _ h => SortedSet.toList_injective h

end ItemSet

namespace Automaton

theorem mem_states_iff {a : Automaton} {s : ItemSet} :
    s ∈ a.states.toList ↔ ∃ state, a.itemSet? state = some s := by
  simp only [itemSet?, KeyedSet.get?_eq]
  exact List.mem_iff_getElem?

variable {g : Grammar} {first : TerminalSets}

theorem toList_states : (build g first).states.toList = (search g first).map Visit.node := by
  apply KeyedSet.toList_ofList
  exact (nodup_explore _).map ItemSet.key_injective

theorem itemSet?_build (state : Nat) :
    (build g first).itemSet? state = (search g first)[state]?.map Visit.node := by
  rw [itemSet?, KeyedSet.get?_eq, toList_states, List.getElem?_map]

theorem indexOf?_eq_some_iff {s : ItemSet} {state : Nat} :
    (build g first).states.indexOf? s = some state ↔ (build g first).itemSet? state = some s := by
  rw [KeyedSet.indexOf?, KeyedSet.positionOf?_eq_some_iff, itemSet?, KeyedSet.get?_eq, List.getElem?_map,
    Option.map_eq_some_iff]
  constructor
  · intro h
    obtain ⟨s', hs', hkey⟩ := h
    rw [hs', ItemSet.key_injective hkey]
  · exact fun h => ⟨s, h, rfl⟩

theorem itemSet?_injective {i j : Nat} {s : ItemSet} (hi : (build g first).itemSet? i = some s)
    (hj : (build g first).itemSet? j = some s) : i = j :=
  Option.some.inj ((indexOf?_eq_some_iff.2 hi).symm.trans (indexOf?_eq_some_iff.2 hj))

theorem itemSet?_zero : (build g first).itemSet? 0 = some (ItemSet.initial g first) := by
  have hnodes := nodes_explore (ItemSet.confined_successors g first)
  rw [itemSet?, KeyedSet.get?_eq, toList_states, search, hnodes, List.singleton_append, distinct,
    KeyedSet.ofList, KeyedSet.insertAll_cons]
  obtain ⟨added, hadded, -⟩ := (KeyedSet.empty.insert (ItemSet.initial g first)
    : KeyedSet (id : ItemSet → ItemSet)).toList_insertAll_extends
      ((explore (ItemSet.successors g first) _ (ItemSet.confined_successors g first)).flatMap Visit.next)
  rw [hadded, KeyedSet.toList_insert_of_not_mem (by simp)]
  simp

theorem next_eq {state : Nat} {v : Visit ItemSet} (hv : (search g first)[state]? = some v) :
    v.next = v.node.pending.toList.map (v.node.successor · g first) := by
  rw [next_of_mem_explore (ItemSet.confined_successors g first) (List.mem_of_getElem? hv),
    ItemSet.successors_eq]

theorem exists_itemSet?_successor {state : Nat} {s : ItemSet} (hs : (build g first).itemSet? state = some s)
    {x : Symbol} (hx : x ∈ s.pending) :
    ∃ target, (build g first).itemSet? target = some (s.successor x g first) := by
  have hnodes (t : ItemSet) : t ∈ (search g first).map Visit.node ↔
      Reachable (ItemSet.successors g first) [ItemSet.initial g first] t :=
    mem_explore_iff (ItemSet.confined_successors g first) t
  have hmem : s ∈ (search g first).map Visit.node := by
    rw [itemSet?, KeyedSet.get?_eq, toList_states] at hs
    exact List.mem_of_getElem? hs
  have hsuccessor : s.successor x g first ∈ ItemSet.successors g first s := by
    rw [ItemSet.successors_eq]
    exact List.mem_map_of_mem hx
  have hreach := (hnodes _).2 (.step ((hnodes s).1 hmem) hsuccessor)
  obtain ⟨target, htarget⟩ := List.mem_iff_getElem?.1 hreach
  refine ⟨target, ?_⟩
  rw [itemSet?, KeyedSet.get?_eq, toList_states, htarget]

theorem transitionsFrom_eq {state : Nat} {v : Visit ItemSet} (hv : (search g first)[state]? = some v) :
    transitionsFrom (build g first).states state v = v.node.pending.toList.filterMap fun x =>
      ((build g first).states.indexOf? (v.node.successor x g first)).map fun target => ⟨state, x, target⟩ := by
  rw [transitionsFrom, next_eq hv, ← List.map_prod_left_eq_zip, List.filterMap_map]
  rfl

theorem source_of_mem_transitionsFrom {states : KeyedSet ItemSet.key} {state : Nat} {v : Visit ItemSet}
    {t : Transition} (h : t ∈ transitionsFrom states state v) : t.source = state := by
  obtain ⟨⟨x, s⟩, -, ht⟩ := List.mem_filterMap.1 h
  obtain ⟨target, -, rfl⟩ := Option.map_eq_some_iff.1 ht
  rfl

theorem nodup_keys_transitionsFrom {state : Nat} {v : Visit ItemSet}
    (hv : (search g first)[state]? = some v) :
    ((transitionsFrom (build g first).states state v).map Transition.key).Nodup := by
  rw [transitionsFrom_eq hv, List.map_filterMap]
  refine v.node.pending.nodup_toList.filterMap fun x y departure hx hy => ?_
  simp only [Option.mem_def, Option.map_map, Option.map_eq_some_iff] at hx hy
  obtain ⟨_, -, rfl⟩ := hx
  obtain ⟨_, -, heq⟩ := hy
  exact (congrArg Prod.snd heq).symm

/-- No transition is dropped: no two have the same source and label. -/
theorem toList_transitions : (build g first).transitions.toList =
    (search g first).zipIdx.flatMap fun (v, source) => transitionsFrom (build g first).states source v := by
  apply KeyedSet.toList_ofList
  rw [List.map_flatMap, List.nodup_flatMap]
  constructor
  · intro ⟨v, state⟩ hv
    exact nodup_keys_transitionsFrom (List.mem_zipIdx_iff_getElem?.1 hv)
  · have hsources : (search g first).zipIdx.Pairwise fun a b => a.2 ≠ b.2 :=
      List.pairwise_map.1 (List.nodup_zipIdx_map_snd _)
    refine hsources.imp fun {a b} hne => ?_
    intro departure ha hb
    obtain ⟨t, ht, rfl⟩ := List.mem_map.1 ha
    obtain ⟨u, hu, heq⟩ := List.mem_map.1 hb
    apply hne
    rw [← source_of_mem_transitionsFrom ht, ← source_of_mem_transitionsFrom hu]
    exact (congrArg Prod.fst heq).symm

theorem mem_transitions_iff {t : Transition} : t ∈ (build g first).transitions.toList ↔
    ∃ s, (build g first).itemSet? t.source = some s ∧ t.label ∈ s.pending
      ∧ (build g first).itemSet? t.target = some (s.successor t.label g first) := by
  rw [toList_transitions, List.mem_flatMap]
  constructor
  · intro h
    obtain ⟨⟨v, state⟩, hv, ht⟩ := h
    have hget : (search g first)[state]? = some v := List.mem_zipIdx_iff_getElem?.1 hv
    change t ∈ transitionsFrom (build g first).states state v at ht
    rw [transitionsFrom_eq hget] at ht
    obtain ⟨x, hx, ht⟩ := List.mem_filterMap.1 ht
    obtain ⟨target, htarget, rfl⟩ := Option.map_eq_some_iff.1 ht
    refine ⟨v.node, ?_, hx, indexOf?_eq_some_iff.1 htarget⟩
    rw [itemSet?_build, hget]
    rfl
  · intro h
    obtain ⟨s, hs, hlabel, htarget⟩ := h
    rw [itemSet?_build] at hs
    obtain ⟨v, hv, rfl⟩ := Option.map_eq_some_iff.1 hs
    refine ⟨(v, t.source), List.mem_zipIdx_iff_getElem?.2 hv, ?_⟩
    change t ∈ transitionsFrom (build g first).states t.source v
    rw [transitionsFrom_eq hv]
    refine List.mem_filterMap.2 ⟨t.label, hlabel, ?_⟩
    rw [indexOf?_eq_some_iff.2 htarget]
    rfl

theorem mem_transitions_iff_goto? {a : Automaton} {t : Transition} :
    t ∈ a.transitions.toList ↔ a.goto? t.source t.label = some t.target := by
  rw [goto?, Option.map_eq_some_iff]
  constructor
  · intro h
    exact ⟨t, KeyedSet.withKey?_eq_some_iff.2 ⟨h, rfl⟩, rfl⟩
  · intro h
    obtain ⟨⟨source, label, target⟩, hu, htarget⟩ := h
    obtain ⟨hmem, hkey⟩ := KeyedSet.withKey?_eq_some_iff.1 hu
    obtain ⟨rfl, rfl⟩ := Prod.mk.inj hkey
    obtain rfl : target = t.target := htarget
    exact hmem

theorem goto?_eq_some_iff {state target : Nat} {x : Symbol} :
    (build g first).goto? state x = some target ↔ ∃ s, (build g first).itemSet? state = some s ∧ x ∈ s.pending
      ∧ (build g first).itemSet? target = some (s.successor x g first) :=
  (mem_transitions_iff_goto? (t := ⟨state, x, target⟩)).symm.trans mem_transitions_iff

theorem exists_goto {state : Nat} {s : ItemSet} (hs : (build g first).itemSet? state = some s) {x : Symbol}
    (hx : x ∈ s.pending) : ∃ target, (build g first).goto? state x = some target := by
  obtain ⟨target, htarget⟩ := exists_itemSet?_successor hs hx
  exact ⟨target, goto?_eq_some_iff.2 ⟨s, hs, hx, htarget⟩⟩

end Automaton

end CanonicalLR
