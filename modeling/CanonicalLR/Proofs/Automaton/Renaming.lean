import CanonicalLR.Proofs.Automaton.Collection
import CanonicalLR.Proofs.Automaton.ViablePrefix
import CanonicalLR.Proofs.Grammar.Renaming
import CanonicalLR.Proofs.Table.Conflicts

/-!
# Automata of renamed grammars

The states of a renamed grammar have other numbers, because the search takes symbols in the order of their names. So states are not compared by number but by the paths that lead to them: the items behind a renamed path are the items behind the path, renamed (`places_iff`). It follows that the states are the renamed states in another order, so there are as many of them (`size_eq`), and that two items clash in the one automaton exactly when they do in the other (`exists_reject_iff`).
-/

namespace CanonicalLR

namespace Renaming

variable {ρ : Renaming} {g h : Grammar} {path path' : List Symbol} {i j : Item} {s : ItemSet} {state : Nat}

theorem item_final (p : Production) (t : Terminal) :
    ρ.item (.final p t) = .final (ρ.production p) (ρ.terminal t) := by
  rw [Item.final, Item.final, size_production]
  rfl

/-- The items of the set, renamed and sorted again. -/
def itemSet (ρ : Renaming) (s : ItemSet) : ItemSet := .ofList (s.toList.map ρ.item)

theorem mem_itemSet : j ∈ ρ.itemSet s ↔ ∃ i ∈ s, ρ.item i = j := by
  rw [itemSet, SortedSet.mem_ofList, List.mem_map]
  rfl

theorem item_mem_itemSet : ρ.item i ∈ ρ.itemSet s ↔ i ∈ s := by
  rw [itemSet, SortedSet.mem_ofList, List.mem_map_of_injective item_injective]
  rfl

theorem itemSet_injective : Function.Injective ρ.itemSet := by
  intro s t hst
  refine SortedSet.ext_mem fun i => ?_
  rw [← item_mem_itemSet (ρ := ρ), hst, item_mem_itemSet]

namespace Renames

/-! ### Behind a path -/

theorem places (hgh : ρ.Renames g h) (hi : g.Places path i) : h.Places (path.map ρ.symbol) (ρ.item i) := by
  induction hi with
  | start =>
    rw [item_initial, hgh.root_eq, ρ.terminal_endMarker]
    exact .start
  | advance _ hj ih =>
    obtain ⟨hcurrent, rfl⟩ := Item.advance?_eq_some_iff.1 hj
    rw [List.map_append]
    exact ih.advance (Item.advance?_eq_some_iff.2 ⟨current?_item_eq_some_iff.2 hcurrent, rfl⟩)
  | expand _ hj ih => exact ih.expand (hgh.mem_expansion_iff.2 ⟨_, hj, rfl⟩)

theorem exists_places (hgh : ρ.Renames g h) (hj : h.Places path' j) :
    ∃ path i, g.Places path i ∧ path.map ρ.symbol = path' ∧ ρ.item i = j := by
  induction hj with
  | start =>
    refine ⟨[], _, .start, rfl, ?_⟩
    rw [item_initial, hgh.root_eq, ρ.terminal_endMarker]
  | advance _ hj ih =>
    obtain ⟨path, i, hi, rfl, rfl⟩ := ih
    obtain ⟨hcurrent, rfl⟩ := Item.advance?_eq_some_iff.1 hj
    rw [current?_item, Option.map_eq_some_iff] at hcurrent
    obtain ⟨x, hx, rfl⟩ := hcurrent
    exact ⟨path ++ [x], _, hi.advance (Item.advance?_eq_some_iff.2 ⟨hx, rfl⟩), List.map_append, rfl⟩
  | expand _ hj ih =>
    obtain ⟨path, i, hi, rfl, rfl⟩ := ih
    obtain ⟨k, hk, rfl⟩ := hgh.mem_expansion_iff.1 hj
    exact ⟨path, k, hi.expand hk, rfl, rfl⟩

theorem places_iff (hgh : ρ.Renames g h) : h.Places (path.map ρ.symbol) j ↔ ∃ i, g.Places path i ∧ ρ.item i = j := by
  constructor
  · intro hj
    obtain ⟨path', i, hi, hpath, rfl⟩ := hgh.exists_places hj
    obtain rfl := symbol_injective.list_map hpath
    exact ⟨i, hi, rfl⟩
  · intro hj
    obtain ⟨i, hi, rfl⟩ := hj
    exact hgh.places hi

/-! ### States -/

theorem exists_walk? (hgh : ρ.Renames g h) (hwalk : (Automaton.ofGrammar g).walk? path = some state) :
    ∃ state', (Automaton.ofGrammar h).walk? (path.map ρ.symbol) = some state' := by
  obtain ⟨i, hi⟩ := Automaton.exists_places_of_walk? hwalk
  obtain ⟨state', -, hwalk', -, -⟩ := Automaton.exists_itemSet_of_places (hgh.places hi)
  exact ⟨state', hwalk'⟩

theorem exists_goto? (hgh : ρ.Renames g h) (hwalk : (Automaton.ofGrammar g).walk? path = some state) {state' target : Nat}
    (hwalk' : (Automaton.ofGrammar h).walk? (path.map ρ.symbol) = some state') {x : Symbol}
    (hgoto : (Automaton.ofGrammar g).goto? state x = some target) :
    ∃ target', (Automaton.ofGrammar h).goto? state' (ρ.symbol x) = some target' := by
  obtain ⟨i, hi, hcurrent⟩ := Automaton.exists_places_of_goto? hwalk hgoto
  exact Automaton.exists_goto_of_places hwalk' (hgh.places hi) (current?_item_eq_some_iff.2 hcurrent)

theorem exists_path (hgh : ρ.Renames g h) (hwalk : (Automaton.ofGrammar h).walk? path' = some state) :
    ∃ path state', path.map ρ.symbol = path' ∧ (Automaton.ofGrammar g).walk? path = some state' := by
  obtain ⟨j, hj⟩ := Automaton.exists_places_of_walk? hwalk
  obtain ⟨path, i, hi, rfl, -⟩ := hgh.exists_places hj
  obtain ⟨state', -, hwalk', -, -⟩ := Automaton.exists_itemSet_of_places hi
  exact ⟨path, state', rfl, hwalk'⟩

theorem itemSet_eq (hgh : ρ.Renames g h) {state' : Nat} {s' : ItemSet}
    (hwalk : (Automaton.ofGrammar g).walk? path = some state) (hs : (Automaton.ofGrammar g).itemSet? state = some s)
    (hwalk' : (Automaton.ofGrammar h).walk? (path.map ρ.symbol) = some state')
    (hs' : (Automaton.ofGrammar h).itemSet? state' = some s') : s' = ρ.itemSet s := by
  refine SortedSet.ext_mem fun j => ?_
  rw [Automaton.mem_itemSet_iff hwalk' hs', hgh.places_iff, mem_itemSet]
  simp only [Automaton.mem_itemSet_iff hwalk hs]

theorem mem_states_iff (hgh : ρ.Renames g h) {s' : ItemSet} : s' ∈ (Automaton.ofGrammar h).states.toList ↔
    ∃ s ∈ (Automaton.ofGrammar g).states.toList, ρ.itemSet s = s' := by
  simp only [Automaton.mem_states_iff]
  constructor
  · intro hstate
    obtain ⟨state', hs'⟩ := hstate
    obtain ⟨path', hwalk'⟩ := Automaton.exists_walk?_of_itemSet? hs'
    obtain ⟨path, state, rfl, hwalk⟩ := hgh.exists_path hwalk'
    obtain ⟨s, hs⟩ := Automaton.exists_itemSet_of_walk? hwalk
    exact ⟨s, ⟨state, hs⟩, (hgh.itemSet_eq hwalk hs hwalk' hs').symm⟩
  · intro hstate
    obtain ⟨s, ⟨state, hs⟩, rfl⟩ := hstate
    obtain ⟨path, hwalk⟩ := Automaton.exists_walk?_of_itemSet? hs
    obtain ⟨state', hwalk'⟩ := hgh.exists_walk? hwalk
    obtain ⟨s', hs'⟩ := Automaton.exists_itemSet_of_walk? hwalk'
    exact ⟨state', hgh.itemSet_eq hwalk hs hwalk' hs' ▸ hs'⟩

theorem perm_states (hgh : ρ.Renames g h) :
    (Automaton.ofGrammar h).states.toList.Perm ((Automaton.ofGrammar g).states.toList.map ρ.itemSet) := by
  have hnodup (g : Grammar) : (Automaton.ofGrammar g).states.toList.Nodup := (Automaton.ofGrammar g).states.nodup.of_map _
  refine (List.perm_ext_iff_of_nodup (hnodup h) ((hnodup g).map itemSet_injective)).2 fun s' => ?_
  rw [hgh.mem_states_iff, List.mem_map]

end Renames

/-! ### Conflicts -/

def action (ρ : Renaming) : Action → Action
  | .shift state => .shift state
  | .goto state => .goto state
  | .reduce name count => .reduce (ρ.nonterminal name) count
  | .accept count => .accept count

theorem action_injective : Function.Injective ρ.action := by
  intro a b hab
  cases a <;> cases b <;> simp [action] at hab ⊢
  all_goals first | exact hab | exact ⟨ρ.nonterminal_injective hab.1, hab.2⟩

theorem completion_item (i : Item) : (ρ.item i).completion = ρ.action i.completion := by
  have hcondition : (ρ.item i).lookahead = .endMarker ∧ (ρ.item i).production.name = .root ↔
      i.lookahead = .endMarker ∧ i.production.name = .root :=
    and_congr terminal_eq_endMarker_iff nonterminal_eq_root_iff
  have hsize : (ρ.item i).production.size = i.production.size := size_production _
  rw [Item.completion_eq, Item.completion_eq, if_congr hcondition rfl rfl, hsize, apply_ite ρ.action]
  rfl

theorem atOdds_item : (ρ.item i).AtOdds (ρ.item j) ↔ i.AtOdds j := by
  have hcurrent : (ρ.item i).current? = some (.terminal (ρ.item j).lookahead) ↔
      i.current? = some (.terminal j.lookahead) := current?_item_eq_terminal_iff
  have hlookahead : (ρ.item i).lookahead = (ρ.item j).lookahead ↔ i.lookahead = j.lookahead := lookahead_item_eq_iff
  rw [Item.AtOdds, Item.AtOdds, current?_item_eq_none_iff, current?_item_eq_none_iff, hcurrent, hlookahead,
    completion_item, completion_item, action_injective.ne_iff]

theorem clashes_itemSet : (ρ.itemSet s).Clashes ↔ s.Clashes := by
  constructor
  · intro hclashes
    obtain ⟨_, hi', _, hj', hodds⟩ := hclashes
    obtain ⟨i, hi, rfl⟩ := mem_itemSet.1 hi'
    obtain ⟨j, hj, rfl⟩ := mem_itemSet.1 hj'
    exact ⟨i, hi, j, hj, atOdds_item.1 hodds⟩
  · intro hclashes
    obtain ⟨i, hi, j, hj, hodds⟩ := hclashes
    exact ⟨_, item_mem_itemSet.2 hi, _, item_mem_itemSet.2 hj, atOdds_item.2 hodds⟩

theorem Renames.exists_reject_iff (hgh : ρ.Renames g h) :
    (∃ u, Table.ofGrammar .reject h = .ok u) ↔ ∃ t, Table.ofGrammar .reject g = .ok t := by
  simp only [Table.ofGrammar, Table.exists_reject_iff]
  constructor
  · intro hclashes state s hs hclash
    have hmem := hgh.mem_states_iff.2 ⟨s, Automaton.mem_states_iff.2 ⟨state, hs⟩, rfl⟩
    obtain ⟨state', hs'⟩ := Automaton.mem_states_iff.1 hmem
    exact hclashes state' _ hs' (clashes_itemSet.2 hclash)
  · intro hclashes state' s' hs' hclash
    obtain ⟨s, hmem, rfl⟩ := hgh.mem_states_iff.1 (Automaton.mem_states_iff.2 ⟨state', hs'⟩)
    obtain ⟨state, hs⟩ := Automaton.mem_states_iff.1 hmem
    exact hclashes state s hs (clashes_itemSet.1 hclash)

end Renaming

end CanonicalLR
