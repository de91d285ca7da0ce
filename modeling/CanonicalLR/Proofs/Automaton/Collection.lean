import CanonicalLR.Proofs.Automaton.Items
import CanonicalLR.Proofs.Automaton.Worklist

/-!
# The canonical collection

The states of an automaton are different item sets, numbered from the closure of the root's start, and each comes about by transitions from it. A transition leads to the successor of a state on its label and to nothing else, and there is exactly one for every symbol that an item of the state expects (`IsCanonicalCollection`).
-/

namespace CanonicalLR

open Relation

namespace Automaton

variable {g : Grammar} {state target : Nat} {s : ItemSet}

theorem successor?_eq_some_iff {next : ItemSet} {x : Symbol} :
    s.successor? x g g.first = some next ↔ x ∈ s.pending ∧ next = s.successor x g g.first := by
  by_cases hx : x ∈ s.pending
  · rw [Worklist.successor?_of_mem_pending hx, Option.some.injEq, eq_comm]
    exact (and_iff_right hx).symm
  · have hnone : s.successor? x g g.first = none := by
      rw [ItemSet.successor?, if_neg]
      intro hany
      obtain ⟨i, hi, hcurrent⟩ := List.any_eq_true.1 hany
      exact hx (ItemSet.mem_pending.2 ⟨i, hi, eq_of_beq hcurrent⟩)
    simp only [hnone, hx, reduceCtorEq, false_and]

/-- A transition leads from one state to the other. -/
def Steps (a : Automaton) (source target : Nat) : Prop := ∃ x, ⟨source, x, target⟩ ∈ a.transitions.toList

/-- Every state comes about by transitions from state zero. -/
theorem steps_of_itemSet? (h : (ofGrammar g).itemSet? state = some s) :
    ReflTransGen (ofGrammar g).Steps 0 state := by
  have hmem : s ∈ (search g g.first).map Visit.node := by
    rw [itemSet?, KeyedSet.get?_eq, ofGrammar, toList_states] at h
    exact List.mem_of_getElem? h
  rw [search, mem_explore_iff] at hmem
  induction hmem generalizing state with
  | start hstart =>
    obtain rfl := List.mem_singleton.1 hstart
    obtain rfl := itemSet?_injective itemSet?_zero h
    exact .refl
  | @step s next hreach hnext ih =>
    obtain ⟨source, hsource⟩ := List.mem_iff_getElem?.1 ((mem_explore_iff _ s).2 hreach)
    have hs : (ofGrammar g).itemSet? source = some s := by
      rw [itemSet?, KeyedSet.get?_eq, ofGrammar, toList_states]
      exact hsource
    rw [ItemSet.successors_eq] at hnext
    obtain ⟨x, hx, rfl⟩ := List.mem_map.1 hnext
    exact (ih hs).tail ⟨x, mem_transitions_iff.2 ⟨s, hs, hx, h⟩⟩

theorem exists_walk?_of_itemSet? (h : (ofGrammar g).itemSet? state = some s) :
    ∃ path, (ofGrammar g).walk? path = some state := by
  have hsteps := steps_of_itemSet? h
  clear h
  induction hsteps with
  | refl => exact ⟨[], rfl⟩
  | tail _ hstep ih =>
    obtain ⟨path, hpath⟩ := ih
    obtain ⟨x, hx⟩ := hstep
    refine ⟨path ++ [x], ?_⟩
    rw [walk?_concat, hpath]
    exact mem_transitions_iff_goto?.1 hx

/-- The states are different item sets, numbered from the start, and reached by transitions; a transition leads to the successor on its label, and there is exactly one for every symbol that some item of a state expects. -/
structure IsCanonicalCollection (g : Grammar) (a : Automaton) : Prop where
  start : a.itemSet? 0 = some (ItemSet.closure (.ofList [.initial g.root .endMarker]) g g.first)
  nodup : a.states.toList.Nodup
  goto?_eq_some : ∀ state s, a.itemSet? state = some s → ∀ x target,
    a.goto? state x = some target ↔ ∃ next, s.successor? x g g.first = some next ∧ a.itemSet? target = some next
  goto?_eq_none : ∀ state s, a.itemSet? state = some s → ∀ x,
    a.goto? state x = none ↔ ∀ i ∈ s, i.current? ≠ some x
  reachable : ∀ state s, a.itemSet? state = some s → ReflTransGen a.Steps 0 state
  transitions : ∀ t, t ∈ a.transitions.toList ↔ a.goto? t.source t.label = some t.target
  nodup_transitions : (a.transitions.toList.map Transition.key).Nodup
  existsUnique_transition : ∀ state s, a.itemSet? state = some s → ∀ i ∈ s, ∀ x, i.current? = some x →
    ∃! t, t ∈ a.transitions.toList ∧ t.key = (state, x)
  indexOf?_eq : ∀ state s, a.itemSet? state = some s → a.indexOf? s = some state

theorem goto?_eq_some_iff_successor? (hs : (ofGrammar g).itemSet? state = some s) (x : Symbol) :
    (ofGrammar g).goto? state x = some target ↔
      ∃ next, s.successor? x g g.first = some next ∧ (ofGrammar g).itemSet? target = some next := by
  simp only [successor?_eq_some_iff]
  constructor
  · intro h
    obtain ⟨s', hs', hx, htarget⟩ := goto?_eq_some_iff.1 h
    obtain rfl := Option.some.inj (hs.symm.trans hs')
    exact ⟨_, ⟨hx, rfl⟩, htarget⟩
  · intro h
    obtain ⟨next, ⟨hx, rfl⟩, htarget⟩ := h
    exact goto?_eq_some_iff.2 ⟨s, hs, hx, htarget⟩

theorem goto?_eq_none_iff (hs : (ofGrammar g).itemSet? state = some s) (x : Symbol) :
    (ofGrammar g).goto? state x = none ↔ ∀ i ∈ s, i.current? ≠ some x := by
  constructor
  · intro h i hi hcurrent
    obtain ⟨target, htarget⟩ := exists_goto hs (ItemSet.mem_pending.2 ⟨i, hi, hcurrent⟩)
    cases h.symm.trans htarget
  · intro h
    rw [Option.eq_none_iff_forall_ne_some]
    intro target htarget
    obtain ⟨s', hs', hx, -⟩ := goto?_eq_some_iff.1 htarget
    obtain rfl := Option.some.inj (hs.symm.trans hs')
    obtain ⟨i, hi, hcurrent⟩ := ItemSet.mem_pending.1 hx
    exact h i hi hcurrent

theorem existsUnique_transition (hs : (ofGrammar g).itemSet? state = some s) {i : Item} (hi : i ∈ s) {x : Symbol}
    (hx : i.current? = some x) : ∃! t, t ∈ (ofGrammar g).transitions.toList ∧ t.key = (state, x) := by
  obtain ⟨target, htarget⟩ : ∃ target, (ofGrammar g).goto? state x = some target :=
    exists_goto hs (ItemSet.mem_pending.2 ⟨i, hi, hx⟩)
  refine ⟨⟨state, x, target⟩, ⟨mem_transitions_iff_goto?.2 htarget, rfl⟩, fun t ht => ?_⟩
  obtain ⟨htransition, hkey⟩ := ht
  obtain ⟨hsource, hlabel⟩ := Prod.mk.inj hkey
  have hgoto := mem_transitions_iff_goto?.1 htransition
  rw [hsource, hlabel, htarget] at hgoto
  rw [← hsource, ← hlabel, Option.some.inj hgoto]

/-- The worklist ends, and what it leaves is the canonical collection. -/
theorem isCanonicalCollection (g : Grammar) :
    (∃ w : Worklist, ReflTransGen (Worklist.Follows g) (.start g) w ∧ w.follow? g = none
      ∧ w.states = (ofGrammar g).states ∧ w.transitions = (ofGrammar g).transitions) ∧
    (ofGrammar g).IsCanonicalCollection g := by
  refine ⟨⟨_, Worklist.reaches_ofGrammar g, rfl, rfl, rfl⟩, ?_⟩
  exact {
    start := itemSet?_zero
    nodup := (ofGrammar g).states.nodup.of_map _
    goto?_eq_some := fun _ _ hs x _ => goto?_eq_some_iff_successor? hs x
    goto?_eq_none := fun _ _ hs x => goto?_eq_none_iff hs x
    reachable := fun _ _ hs => steps_of_itemSet? hs
    transitions := fun _ => mem_transitions_iff_goto?
    nodup_transitions := (ofGrammar g).transitions.nodup
    existsUnique_transition := fun _ _ hs _ hi _ hx => existsUnique_transition hs hi hx
    indexOf?_eq := fun _ _ hs => indexOf?_eq_some_iff.2 hs }

end Automaton

end CanonicalLR
