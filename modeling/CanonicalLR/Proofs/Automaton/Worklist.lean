import CanonicalLR.Proofs.Automaton.Transitions
import Mathlib.Logic.Relation

/-!
# Following departures one by one

The automaton can be built by a worklist of departures, each a state with one of its pending symbols: the first departure is followed to a state, which is new or known, and a new state puts its own departures at the end. Known states and keyed transitions could let an edge get lost here; none is. While the departures of one state are followed (`exists_followAll`), the worklist does what one visit of the search does, so it ends when the search ends, with the states in the same order and with every transition (`reaches_ofGrammar`).
-/

namespace CanonicalLR

open Relation

namespace KeyedSet

universe u v

variable {α : Type u} {κ : Type v} [Ord κ] [Std.TransOrd κ] [Std.LawfulEqOrd κ] {key : α → κ}

/-- Which injective key tells values apart makes no difference to the values. -/
theorem toList_insertAll_congr {κ' : Type v} [Ord κ'] [Std.TransOrd κ'] [Std.LawfulEqOrd κ'] {key' : α → κ'}
    (hkey : Function.Injective key) (hkey' : Function.Injective key') {s : KeyedSet key} {t : KeyedSet key'}
    (h : s.toList = t.toList) (xs : List α) : (s.insertAll xs).toList = (t.insertAll xs).toList := by
  induction xs generalizing s t with
  | nil => exact h
  | cons x rest ih =>
    rw [insertAll_cons, insertAll_cons]
    apply ih
    by_cases hx : x ∈ s.toList
    · rw [insert_of_mem (List.mem_map_of_mem hx), insert_of_mem (List.mem_map_of_mem (h ▸ hx)), h]
    · rw [toList_insert_of_not_mem (fun hmem => hx ((List.mem_map_of_injective hkey).1 hmem)),
        toList_insert_of_not_mem (fun hmem => hx (h ▸ (List.mem_map_of_injective hkey').1 hmem)), h]

end KeyedSet

/-- An automaton in the making. A departure is a state with a pending symbol that has not been followed yet. -/
structure Worklist where
  states : KeyedSet ItemSet.key
  transitions : KeyedSet Transition.key
  departures : List (Nat × Symbol)

/-- The departures from some states that are numbered from `first` on. -/
def departuresFrom : Nat → List ItemSet → List (Nat × Symbol)
  | _, [] => []
  | first, s :: rest => s.pending.toList.map (first, ·) ++ departuresFrom (first + 1) rest

theorem departuresFrom_append (first : Nat) (states more : List ItemSet) :
    departuresFrom first (states ++ more)
      = departuresFrom first states ++ departuresFrom (first + states.length) more := by
  induction states generalizing first with
  | nil => rfl
  | cons s rest ih =>
    rw [List.cons_append, departuresFrom, ih, departuresFrom, List.append_assoc, List.length_cons,
      Nat.add_right_comm, Nat.add_assoc]

namespace Worklist

def start (g : Grammar) : Worklist :=
  ⟨.ofList [.initial g g.first], .empty, departuresFrom 0 [.initial g g.first]⟩

/-- The worklist when its first departure has been followed. -/
def follow? (g : Grammar) (w : Worklist) : Option Worklist :=
  match w.departures with
  | [] => none
  | (source, x) :: rest =>
    match (w.states.get? source).bind (·.successor? x g g.first) with
    | none => some { w with departures := rest }
    | some next =>
      let (states, target, isNew) := w.states.add next
      some {
        states
        transitions := w.transitions.insert ⟨source, x, target⟩
        departures := if isNew then rest ++ departuresFrom target [next] else rest }

def Follows (g : Grammar) (w w' : Worklist) : Prop := w.follow? g = some w'

variable {g : Grammar} {w : Worklist}

/-! ### One state -/

theorem successor?_of_mem_pending {s : ItemSet} {x : Symbol} (hx : x ∈ s.pending) :
    s.successor? x g g.first = some (s.successor x g g.first) := by
  obtain ⟨i, hi, hcurrent⟩ := ItemSet.mem_pending.1 hx
  rw [ItemSet.successor?, if_pos]
  exact List.any_eq_true.2 ⟨i, hi, by rw [hcurrent, beq_self_eq_true]⟩

theorem exists_follow {source : Nat} {x : Symbol} {rest : List (Nat × Symbol)} {s : ItemSet}
    (hdepartures : w.departures = (source, x) :: rest) (hs : w.states.get? source = some s) (hx : x ∈ s.pending)
    (hfresh : (source, x) ∉ w.transitions.toList.map Transition.key) : ∃ w' target, w.Follows g w'
      ∧ w'.states = w.states.insert (s.successor x g g.first)
      ∧ w'.states.indexOf? (s.successor x g g.first) = some target
      ∧ w'.transitions.toList = w.transitions.toList ++ [⟨source, x, target⟩]
      ∧ w'.departures = rest ++ departuresFrom w.states.size (w'.states.toList.drop w.states.size) := by
  have hnext : (w.states.get? source).bind (·.successor? x g g.first) = some (s.successor x g g.first) := by
    rw [hs, Option.bind_some, successor?_of_mem_pending hx]
  have htransitions (target : Nat) : (w.transitions.insert ⟨source, x, target⟩).toList
      = w.transitions.toList ++ [⟨source, x, target⟩] := KeyedSet.toList_insert_of_not_mem hfresh
  cases hposition : w.states.positionOf? (s.successor x g g.first).key with
  | some target =>
    have hadd := KeyedSet.add_of_positionOf? hposition
    refine ⟨⟨w.states, w.transitions.insert ⟨source, x, target⟩, rest⟩, target, ?_, ?_, hposition,
      htransitions target, ?_⟩
    · rw [Follows, follow?, hdepartures]
      simp only [hnext, hadd, Bool.false_eq_true, if_false]
    · exact (congrArg Prod.fst hadd).symm
    · rw [KeyedSet.size_eq, List.drop_length, departuresFrom, List.append_nil]
  | none =>
    have hadd := KeyedSet.add_of_positionOf?_none hposition
    refine ⟨⟨w.states.push _ hposition, w.transitions.insert ⟨source, x, w.states.size⟩,
      rest ++ departuresFrom w.states.size [s.successor x g g.first]⟩, w.states.size, ?_, ?_,
      KeyedSet.indexOf?_push hposition, htransitions _, ?_⟩
    · rw [Follows, follow?, hdepartures]
      simp only [hnext, hadd, if_true]
    · exact (congrArg Prod.fst hadd).symm
    · rw [KeyedSet.toList_push, KeyedSet.size_eq, List.drop_left]

theorem exists_followAll {source first : Nat} {s : ItemSet} {ys : List Symbol}
    (hdepartures : w.departures = ys.map (source, ·) ++ departuresFrom first (w.states.toList.drop first))
    (hfirst : first ≤ w.states.toList.length) (hs : w.states.get? source = some s) (hys : ∀ y ∈ ys, y ∈ s.pending)
    (hnodup : ys.Nodup) (hfresh : ∀ y ∈ ys, (source, y) ∉ w.transitions.toList.map Transition.key) :
    ∃ w', ReflTransGen (Follows g) w w' ∧ w'.states = w.states.insertAll (ys.map (s.successor · g g.first))
      ∧ w'.departures = departuresFrom first (w'.states.toList.drop first)
      ∧ w'.transitions.toList = w.transitions.toList ++ ys.filterMap fun y =>
        (w'.states.indexOf? (s.successor y g g.first)).map fun target => ⟨source, y, target⟩ := by
  induction ys generalizing w with
  | nil => exact ⟨w, .refl, rfl, hdepartures, (List.append_nil _).symm⟩
  | cons y ys ih =>
    obtain ⟨hy, hrest⟩ := List.nodup_cons.1 hnodup
    obtain ⟨w₁, target, hfollows, hstates, htarget, htransitions, hlater⟩ :=
      exists_follow (g := g) hdepartures hs (hys y List.mem_cons_self) (hfresh y List.mem_cons_self)
    obtain ⟨added, hadded, -⟩ := w.states.toList_insertAll_extends [s.successor y g g.first]
    have hstates' : w₁.states.toList = w.states.toList ++ added := by rw [hstates, ← hadded]; rfl
    have hdepartures₁ : w₁.departures = ys.map (source, ·) ++ departuresFrom first (w₁.states.toList.drop first) := by
      rw [hlater, hstates', KeyedSet.size_eq, List.drop_left, List.drop_append_of_le_length hfirst,
        departuresFrom_append, List.length_drop, Nat.add_sub_cancel' hfirst]
      exact List.append_assoc _ _ _
    have hfirst₁ : first ≤ w₁.states.toList.length := by
      rw [hstates', List.length_append]
      omega
    have hs₁ : w₁.states.get? source = some s := hstates ▸ KeyedSet.get?_insertAll hs [_]
    have hfresh₁ : ∀ z ∈ ys, (source, z) ∉ w₁.transitions.toList.map Transition.key := by
      intro z hz hmem
      rw [htransitions, List.map_append] at hmem
      rcases List.mem_append.1 hmem with hmem | hmem
      · exact hfresh z (List.mem_cons_of_mem _ hz) hmem
      · have heq : z = y := congrArg Prod.snd (List.mem_singleton.1 hmem)
        exact hy (heq ▸ hz)
    obtain ⟨w₂, hreaches, hstates₂, hdepartures₂, htransitions₂⟩ :=
      ih hdepartures₁ hfirst₁ hs₁ (fun z hz => hys z (List.mem_cons_of_mem _ hz)) hrest hfresh₁
    refine ⟨w₂, .head hfollows hreaches, ?_, hdepartures₂, ?_⟩
    · rw [hstates₂, hstates]
      rfl
    · have hkept : w₂.states.indexOf? (s.successor y g g.first) = some target :=
        hstates₂ ▸ KeyedSet.indexOf?_insertAll htarget _
      rw [htransitions₂, htransitions, List.append_assoc, List.filterMap_cons, hkept]
      rfl

/-! ### The whole search -/

theorem filterMap_zip_map {α β γ : Type} (f : α → β) (k : α × β → Option γ) (xs : List α) :
    (xs.zip (xs.map f)).filterMap k = xs.filterMap fun x => k (x, f x) := by
  rw [← List.map_prod_left_eq_zip, List.filterMap_map]
  rfl

/-- The worklist stands where the search stands: the states met, the departures from those that have not been visited, and the transitions from those that have. -/
structure Tracks (visited : Array (Visit ItemSet)) (met : KeyedSet (id : ItemSet → ItemSet)) (w : Worklist) :
    Prop where
  states : w.states.toList = met.toList
  departures : w.departures = departuresFrom visited.size (met.toList.drop visited.size)
  transitions : w.transitions.toList
    = visited.toList.zipIdx.flatMap fun (v, source) => Automaton.transitionsFrom w.states source v

theorem tracks_start (g : Grammar) : (start g).Tracks #[] (.ofList [.initial g g.first]) where
  states := KeyedSet.toList_insertAll_congr ItemSet.key_injective Function.injective_id rfl _
  departures := rfl
  transitions := rfl

/-- What is known of a state's successors does not change when states are added. -/
theorem transitionsFrom_insertAll {states : KeyedSet ItemSet.key} {v : Visit ItemSet}
    (hv : ∀ s ∈ v.next, s ∈ states.toList) (added : List ItemSet) (source : Nat) :
    Automaton.transitionsFrom (states.insertAll added) source v = Automaton.transitionsFrom states source v := by
  rw [Automaton.transitionsFrom, Automaton.transitionsFrom]
  refine List.filterMap_congr fun step hmem => ?_
  obtain ⟨place, hplace⟩ := List.mem_iff_getElem?.1 (hv step.2 (List.of_mem_zip hmem).2)
  have hindex : states.indexOf? step.2 = some place := by
    rw [KeyedSet.indexOf?, KeyedSet.positionOf?_eq_some_iff, List.getElem?_map, hplace]
    rfl
  simp only [hindex, KeyedSet.indexOf?_insertAll hindex]

variable {start : List ItemSet} {visited : Array (Visit ItemSet)} {met : KeyedSet (id : ItemSet → ItemSet)}

theorem mem_met_of_visited (h : SearchInvariant (ItemSet.successors g g.first) start visited met)
    {v : Visit ItemSet} (hv : v ∈ visited.toList) : ∀ s ∈ v.next, s ∈ met.toList := by
  intro s hs
  rw [h.met_eq]
  exact mem_distinct.2 (List.mem_append_right _ (List.mem_flatMap.2 ⟨v, hv, hs⟩))

/-- One visit of the search is as many steps of the worklist as the state has departures. -/
theorem Tracks.visit (h : SearchInvariant (ItemSet.successors g g.first) start visited met)
    (hw : w.Tracks visited met) {s : ItemSet} (hs : met.get? visited.size = some s) :
    ∃ w', ReflTransGen (Follows g) w w' ∧ w'.Tracks (visited.push ⟨s, ItemSet.successors g g.first s⟩)
      (met.insertAll (ItemSet.successors g g.first s)) := by
  rw [KeyedSet.get?_eq] at hs
  obtain ⟨hlt, hget⟩ := List.getElem?_eq_some_iff.1 hs
  have hdepartures : w.departures = s.pending.toList.map (visited.size, ·)
      ++ departuresFrom (visited.size + 1) (w.states.toList.drop (visited.size + 1)) := by
    rw [hw.departures, hw.states, List.drop_eq_getElem_cons hlt, hget]
    rfl
  have hfresh : ∀ y ∈ s.pending.toList, (visited.size, y) ∉ w.transitions.toList.map Transition.key := by
    intro y _ hmem
    obtain ⟨t, ht, hkey⟩ := List.mem_map.1 hmem
    rw [hw.transitions] at ht
    obtain ⟨⟨v, source⟩, hv, ht⟩ := List.mem_flatMap.1 ht
    have hsource : source < visited.toList.length :=
      (List.getElem?_eq_some_iff.1 (List.mem_zipIdx_iff_getElem?.1 hv)).1
    have heq : t.source = visited.size := congrArg Prod.fst hkey
    rw [Automaton.source_of_mem_transitionsFrom ht] at heq
    rw [heq, Array.length_toList] at hsource
    exact Nat.lt_irrefl _ hsource
  have hstate : w.states.get? visited.size = some s := by
    rw [KeyedSet.get?_eq, hw.states, hs]
  obtain ⟨w', hreaches, hstates, hdepartures', htransitions⟩ := exists_followAll (g := g) hdepartures
    (by rw [hw.states]; exact hlt) hstate (fun _ hy => hy) s.pending.nodup_toList hfresh
  have hmet : w'.states.toList = (met.insertAll (ItemSet.successors g g.first s)).toList := by
    rw [hstates, ItemSet.successors_eq]
    exact KeyedSet.toList_insertAll_congr ItemSet.key_injective Function.injective_id hw.states _
  refine ⟨w', hreaches, hmet, ?_, ?_⟩
  · rw [hdepartures', hmet, Array.size_push]
  · rw [Array.toList_push, List.zipIdx_append, List.flatMap_append, htransitions, hw.transitions]
    congr 1
    · refine List.flatMap_congr fun (v, source) hv => ?_
      have hmem : v ∈ visited.toList := List.mem_of_getElem? (List.mem_zipIdx_iff_getElem?.1 hv)
      rw [hstates]
      refine (transitionsFrom_insertAll (fun t ht => ?_) _ source).symm
      rw [hw.states]
      exact mem_met_of_visited h hmem t ht
    · rw [List.zipIdx_singleton, List.flatMap_singleton]
      change _ = Automaton.transitionsFrom w'.states (0 + visited.toList.length) ⟨s, ItemSet.successors g g.first s⟩
      rw [Automaton.transitionsFrom, ItemSet.successors_eq, filterMap_zip_map, Nat.zero_add, Array.length_toList]

theorem Tracks.finish (hconfined : Confined (ItemSet.successors g g.first) start)
    (h : SearchInvariant (ItemSet.successors g g.first) start visited met) (hw : w.Tracks visited met) :
    ∃ w' : Worklist, ReflTransGen (Follows g) w w' ∧ w'.departures = []
      ∧ w'.states.toList = (exploreFrom _ start hconfined visited met h).map Visit.node
      ∧ w'.transitions.toList = (exploreFrom _ start hconfined visited met h).zipIdx.flatMap fun (v, source) =>
        Automaton.transitionsFrom w'.states source v := by
  fun_induction exploreFrom (ItemSet.successors g g.first) start hconfined visited met h generalizing w with
  | case1 visited met h hnone =>
    rw [KeyedSet.get?_eq, List.getElem?_eq_none_iff] at hnone
    refine ⟨w, .refl, ?_, ?_, hw.transitions⟩
    · rw [hw.departures, List.drop_eq_nil_of_le hnone]
      rfl
    · rw [hw.states, h.nodes_eq, List.take_of_length_le hnone]
  | case2 visited met h s hs found =>
    rename_i ih
    obtain ⟨w₁, hreaches, hw₁⟩ := hw.visit h hs
    obtain ⟨w₂, hreaches₂, hend⟩ := ih hw₁
    exact ⟨w₂, hreaches.trans hreaches₂, hend⟩

/-- The worklist runs empty, and then it holds the automaton. -/
theorem reaches_ofGrammar (g : Grammar) : ReflTransGen (Follows g) (Worklist.start g)
    ⟨(Automaton.ofGrammar g).states, (Automaton.ofGrammar g).transitions, []⟩ := by
  obtain ⟨w, hreaches, hdepartures, hstates, htransitions⟩ :=
    (tracks_start g).finish (ItemSet.confined_successors g g.first) .init
  have hstates' : w.states = (Automaton.ofGrammar g).states :=
    KeyedSet.ext_toList (hstates.trans Automaton.toList_states.symm)
  have htransitions' : w.transitions = (Automaton.ofGrammar g).transitions := by
    apply KeyedSet.ext_toList
    rw [Automaton.ofGrammar, Automaton.toList_transitions, ← Automaton.ofGrammar, ← hstates']
    exact htransitions
  obtain ⟨states, transitions, departures⟩ := w
  simp only at hdepartures hstates' htransitions'
  rw [← hstates', ← htransitions', ← hdepartures]
  exact hreaches

end Worklist

end CanonicalLR
