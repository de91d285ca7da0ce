import CanonicalLR.Collection.Distinct

/-!
# Exploration of a finite graph

Starting from some nodes and following `next`, every node that can be reached is visited once, first
come first served. A search ends because its nodes stay in a finite part of the type; that part is
only known to exist, so nothing is spent on it when the search runs. Main statements: the visited
nodes are exactly the reachable ones (`mem_explore_iff`), and they stand in the order in which they
are first met (`nodes_explore`), so that none is visited twice (`nodup_explore`).
-/

namespace CanonicalLR

open Std

universe u

variable {α : Type u}

/-- A node met by a search, with the nodes it leads to. -/
structure Visit (α : Type u) where
  node : α
  next : List α

/-- Some finite list holds `start` and is closed under `next`. -/
def Confined (next : α → List α) (start : List α) : Prop :=
  ∃ within : List α, (∀ x ∈ start, x ∈ within) ∧ ∀ x ∈ within, ∀ y ∈ next x, y ∈ within

/-- Chains of steps from `start` along `next`. -/
inductive Reachable (next : α → List α) (start : List α) : α → Prop where
  | start {x : α} : x ∈ start → Reachable next start x
  | step {x y : α} : Reachable next start x → y ∈ next x → Reachable next start y

theorem Reachable.mem_of_closed {next : α → List α} {start within : List α} {x : α}
    (h : Reachable next start x) (hstart : ∀ y ∈ start, y ∈ within)
    (hclosed : ∀ y ∈ within, ∀ z ∈ next y, z ∈ within) : x ∈ within := by
  induction h with
  | start hx => exact hstart _ hx
  | step _ hy ih => exact hclosed _ ih _ hy

variable [Ord α] [TransOrd α] [LawfulEqOrd α]

/-- What holds of a search at every moment. The nodes met are the start and all that the visited nodes
lead to, each where it first comes; those visited are the first of them, and all are reachable. -/
structure SearchInvariant (next : α → List α) (start : List α) (visited : Array (Visit α))
    (met : KeyedSet (id : α → α)) : Prop where
  met_eq : met = .ofList (start ++ visited.toList.flatMap Visit.next)
  nodes_eq : visited.toList.map Visit.node = met.toList.take visited.size
  next_eq : ∀ v ∈ visited.toList, v.next = next v.node
  reachable : ∀ x ∈ met.toList, Reachable next start x

variable {next : α → List α} {start : List α}

theorem SearchInvariant.init : SearchInvariant next start #[] (.ofList start) where
  met_eq := by simp
  nodes_eq := by simp
  next_eq v hv := by simp at hv
  reachable x hx := .start (mem_distinct.1 hx)

theorem SearchInvariant.visit {visited : Array (Visit α)} {met : KeyedSet (id : α → α)} {x : α}
    (h : SearchInvariant next start visited met) (hx : met.get? visited.size = some x) :
    SearchInvariant next start (visited.push ⟨x, next x⟩) (met.insertAll (next x)) := by
  rw [KeyedSet.get?_eq] at hx
  obtain ⟨hlt, hget⟩ := List.getElem?_eq_some_iff.1 hx
  refine ⟨?_, ?_, ?_, ?_⟩
  · rw [Array.toList_push, List.flatMap_append, ← List.append_assoc, KeyedSet.ofList,
      KeyedSet.insertAll_append, ← KeyedSet.ofList, ← h.met_eq]
    simp
  · obtain ⟨added, hadded, -⟩ := met.toList_insertAll_extends (next x)
    rw [hadded, Array.toList_push, List.map_append, h.nodes_eq, Array.size_push,
      List.take_append_of_le_length hlt, List.take_add_one, hx]
    rfl
  · intro v hv
    rw [Array.toList_push] at hv
    rcases List.mem_append.1 hv with hv | hv
    · exact h.next_eq v hv
    · rw [List.mem_singleton.1 hv]
  · intro y hy
    rcases KeyedSet.mem_insertAll.1 hy with hy | hy
    · exact .step (h.reachable x (hget ▸ List.getElem_mem hlt)) hy
    · exact h.reachable y hy

theorem SearchInvariant.size_lt {visited : Array (Visit α)} {met : KeyedSet (id : α → α)} {x : α}
    (hconfined : Confined next start) (h : SearchInvariant next start visited met)
    (hx : met.get? visited.size = some x) : visited.size < hconfined.choose.length := by
  obtain ⟨hstart, hclosed⟩ := hconfined.choose_spec
  have hle := List.Nodup.length_le_of_subset met.nodup_toList
    fun y hy => (h.reachable y hy).mem_of_closed hstart hclosed
  rw [KeyedSet.get?_eq] at hx
  exact Nat.lt_of_lt_of_le (List.getElem?_eq_some_iff.1 hx).1 hle

/-- Visits the nodes met from the first unvisited one on; what a node leads to is met behind them. -/
def exploreFrom (next : α → List α) (start : List α) (hconfined : Confined next start)
    (visited : Array (Visit α)) (met : KeyedSet (id : α → α))
    (h : SearchInvariant next start visited met) : List (Visit α) :=
  match hx : met.get? visited.size with
  | none => visited.toList
  | some x =>
    let found := next x
    exploreFrom next start hconfined (visited.push ⟨x, found⟩) (met.insertAll found) (h.visit hx)
termination_by hconfined.choose.length - visited.size
decreasing_by
  have := h.size_lt hconfined hx
  rw [Array.size_push]
  omega

/-- The nodes reachable from `start`, in the order in which a breadth-first search meets them. -/
def explore (next : α → List α) (start : List α) (hconfined : Confined next start) : List (Visit α) :=
  exploreFrom next start hconfined #[] (.ofList start) .init

theorem exploreFrom_invariant (hconfined : Confined next start) (visited : Array (Visit α))
    (met : KeyedSet (id : α → α)) (h : SearchInvariant next start visited met) :
    ∃ done met', (exploreFrom next start hconfined visited met h) = done.toList
      ∧ SearchInvariant next start done met' ∧ met'.get? done.size = none := by
  fun_induction exploreFrom next start hconfined visited met h with
  | case1 visited met h hnone => exact ⟨visited, met, rfl, h, hnone⟩
  | case2 => assumption

theorem explore_invariant (hconfined : Confined next start) :
    ∃ done met, explore next start hconfined = done.toList
      ∧ SearchInvariant next start done met ∧ met.get? done.size = none :=
  exploreFrom_invariant hconfined _ _ .init

/-- The visited nodes are the start and all that they lead to, each where it is first met. -/
theorem nodes_explore (hconfined : Confined next start) :
    (explore next start hconfined).map Visit.node
      = distinct (start ++ (explore next start hconfined).flatMap Visit.next) := by
  obtain ⟨done, met, hdone, h, hnone⟩ := explore_invariant hconfined
  rw [hdone, h.nodes_eq, distinct, ← h.met_eq]
  rw [KeyedSet.get?_eq, List.getElem?_eq_none_iff] at hnone
  exact List.take_of_length_le hnone

theorem next_of_mem_explore (hconfined : Confined next start) {v : Visit α}
    (h : v ∈ explore next start hconfined) : v.next = next v.node := by
  obtain ⟨done, met, hdone, hinvariant, -⟩ := explore_invariant hconfined
  exact hinvariant.next_eq v (hdone ▸ h)

theorem mem_explore_iff (hconfined : Confined next start) (x : α) :
    x ∈ (explore next start hconfined).map Visit.node ↔ Reachable next start x := by
  constructor
  · intro hx
    obtain ⟨done, met, hdone, h, -⟩ := explore_invariant hconfined
    rw [hdone, h.nodes_eq] at hx
    exact h.reachable x (List.mem_of_mem_take hx)
  · intro hx
    refine hx.mem_of_closed (fun y hy => ?_) fun y hy z hz => ?_
    · rw [nodes_explore, mem_distinct]
      exact List.mem_append_left _ hy
    · obtain ⟨v, hv, rfl⟩ := List.mem_map.1 hy
      rw [nodes_explore, mem_distinct]
      exact List.mem_append_right _ (List.mem_flatMap.2 ⟨v, hv, next_of_mem_explore hconfined hv ▸ hz⟩)

theorem nodup_explore (hconfined : Confined next start) :
    ((explore next start hconfined).map Visit.node).Nodup :=
  nodes_explore hconfined ▸ nodup_distinct _

end CanonicalLR
