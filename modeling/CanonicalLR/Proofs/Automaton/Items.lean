import CanonicalLR.Proofs.Automaton.Transitions
import CanonicalLR.Proofs.Grammar.First
import Mathlib.Data.List.Induction

/-!
# The items behind a path

A path is a list of symbols followed from state zero. The item set at its end is described without the automaton: `Places` starts with the root's start behind the empty path, moves dots along the path and lets expected nonterminals start. The automaton holds exactly these items (`mem_itemSet_iff`), so what is true of the items of a state is proved by induction on how they come about. Two such facts carry the theory of the parser: the symbols before a dot are the end of every path to the item (`Places.split`), and an item at its start is the root's or was expected by an item of the same state (`Places.origin`).
-/

namespace CanonicalLR

namespace Automaton

/-- The state at the end of a path from state zero. -/
def walk? (a : Automaton) (path : List Symbol) : Option Nat := path.foldlM a.goto? 0

@[simp] theorem walk?_nil (a : Automaton) : a.walk? [] = some 0 := rfl

theorem walk?_concat (a : Automaton) (path : List Symbol) (x : Symbol) :
    a.walk? (path ++ [x]) = (a.walk? path).bind (a.goto? · x) := by
  simp [walk?, List.foldlM_append]

end Automaton

/-- How an item comes to stand behind a path. -/
inductive Grammar.Places (g : Grammar) : List Symbol → Item → Prop where
  | start : Places g [] (.initial g.root .endMarker)
  | advance {path : List Symbol} {i j : Item} {x : Symbol} : Places g path i → i.advance? x = some j →
    Places g (path ++ [x]) j
  | expand {path : List Symbol} {i j : Item} : Places g path i → j ∈ i.expansion g g.first → Places g path j

namespace Item

theorem advance?_eq_some_iff {i j : Item} {x : Symbol} :
    i.advance? x = some j ↔ i.current? = some x ∧ j = { i with dot := i.dot + 1 } := by
  unfold advance?
  split
  · rename_i hx
    simp [hx, eq_comm]
  · rename_i hx
    simp [hx]

theorem current?_advanced (i : Item) : ({ i with dot := i.dot + 1 } : Item).current? = i.following? := rfl

/-- The item with which a production is complete. -/
def final (p : Production) (lookahead : Terminal) : Item := ⟨p, p.size, lookahead⟩

theorem current?_final (p : Production) (t : Terminal) : (final p t).current? = none :=
  List.getElem?_eq_none_iff.2 (Nat.le_refl _)

end Item

namespace Grammar

variable {g : Grammar} {path : List Symbol} {i : Item}

/-! ### Where items come from -/

theorem Places.mem_productions (h : g.Places path i) : i.production ∈ g.productions := by
  induction h with
  | start => exact g.root_mem
  | advance _ hj ih =>
    obtain ⟨-, rfl⟩ := Item.advance?_eq_some_iff.1 hj
    exact ih
  | expand _ hj _ =>
    obtain ⟨n, p, t, -, hp, -, rfl⟩ := Item.mem_expansion.1 hj
    exact (mem_productionsOf.1 hp).1

theorem Places.dot_le (h : g.Places path i) : i.dot ≤ i.production.size := by
  induction h with
  | start => exact Nat.zero_le _
  | advance _ hj _ =>
    obtain ⟨hx, rfl⟩ := Item.advance?_eq_some_iff.1 hj
    exact (List.getElem?_eq_some_iff.1 hx).1
  | expand _ hj _ =>
    obtain ⟨n, p, t, -, -, -, rfl⟩ := Item.mem_expansion.1 hj
    exact Nat.zero_le _

theorem Places.lookahead_mem (h : g.Places path i) : i.lookahead ∈ g.terminals ++ [.endMarker] := by
  induction h with
  | start => exact List.mem_append_right _ (List.mem_singleton_self _)
  | advance _ hj ih =>
    obtain ⟨-, rfl⟩ := Item.advance?_eq_some_iff.1 hj
    exact ih
  | @expand path i j hi hj ih =>
    obtain ⟨n, p, t, -, -, ht, rfl⟩ := Item.mem_expansion.1 hj
    cases hfollowing : i.following? with
    | none =>
      rw [Item.expansionLookaheads_of_last hfollowing, List.mem_singleton] at ht
      exact ht ▸ ih
    | some x =>
      rcases (Item.mem_expansionLookaheads_iff hfollowing).1 ht with hstarts | ⟨-, rfl⟩
      · apply List.mem_append_left
        rcases hstarts.eq_or_mem_terminals with rfl | hmem
        · exact mem_terminals.2 ⟨_, hi.mem_productions, List.mem_of_getElem? hfollowing⟩
        · exact hmem
      · exact ih

theorem Places.dot_eq (h : g.Places path i) (hcurrent : i.current? = none) : i.dot = i.production.size := by
  have hle := h.dot_le
  have hge : i.production.symbols.length ≤ i.dot := List.getElem?_eq_none_iff.1 hcurrent
  exact Nat.le_antisymm hle hge

theorem Places.eq_final (h : g.Places path i) (hcurrent : i.current? = none) :
    i = .final i.production i.lookahead := by
  have hdot := h.dot_eq hcurrent
  cases i
  simp only at hdot
  rw [hdot]
  rfl

theorem Places.advance_by {p : Production} {t : Terminal} (h : g.Places path (.initial p t)) {dot : Nat}
    (hdot : dot ≤ p.size) : g.Places (path ++ p.symbols.take dot) ⟨p, dot, t⟩ := by
  induction dot with
  | zero =>
    rw [List.take_zero, List.append_nil]
    exact h
  | succ dot ih =>
    have hlt : dot < p.symbols.length := hdot
    have hadvance : (⟨p, dot, t⟩ : Item).advance? p.symbols[dot] = some ⟨p, dot + 1, t⟩ :=
      Item.advance?_eq_some_iff.2 ⟨List.getElem?_eq_getElem hlt, rfl⟩
    rw [List.take_succ_eq_append_getElem hlt, ← List.append_assoc]
    exact (ih (Nat.le_of_lt hlt)).advance hadvance

theorem Places.complete {p : Production} {t : Terminal} (h : g.Places path (.initial p t)) :
    g.Places (path ++ p.symbols) (.final p t) := by
  have hfinal := h.advance_by (Nat.le_refl p.size)
  rw [Production.size, List.take_length] at hfinal
  exact hfinal

/-- The symbols before the dot end the path, and the item started behind the rest of it. -/
theorem Places.split (h : g.Places path i) : ∃ before, path = before ++ i.production.symbols.take i.dot
    ∧ g.Places before (.initial i.production i.lookahead) := by
  induction h with
  | start => exact ⟨[], rfl, .start⟩
  | @advance path i j x _ hj ih =>
    obtain ⟨before, rfl, hbefore⟩ := ih
    obtain ⟨hx, rfl⟩ := Item.advance?_eq_some_iff.1 hj
    refine ⟨before, ?_, hbefore⟩
    have hsymbol : i.production.symbols[i.dot]? = some x := hx
    rw [List.take_add_one, hsymbol, List.append_assoc]
    rfl
  | @expand path i j hi hj _ =>
    obtain ⟨n, p, t, -, -, -, rfl⟩ := Item.mem_expansion.1 hj
    exact ⟨path, by simp [Item.initial], hi.expand hj⟩

/-- An item at its start is the root's, or some item behind the same path expects its nonterminal. -/
theorem Places.origin {p : Production} {t : Terminal} (h : g.Places path (.initial p t)) :
    path = [] ∧ p = g.root ∧ t = .endMarker ∨
      ∃ i, g.Places path i ∧ i.current? = some (.nonterminal p.name) ∧ t ∈ i.expansionLookaheads g.first := by
  generalize hitem : Item.initial p t = item at h
  cases h with
  | start =>
    injection hitem with hp _ ht
    exact .inl ⟨rfl, hp, ht⟩
  | advance _ hj =>
    obtain ⟨-, rfl⟩ := Item.advance?_eq_some_iff.1 hj
    injection hitem with _ hdot _
    exact absurd hdot (Nat.succ_ne_zero _).symm
  | expand hi hj =>
    obtain ⟨n, q, s, hn, hq, hs, rfl⟩ := Item.mem_expansion.1 hj
    injection hitem with hp _ ht
    subst hp ht
    obtain rfl := (mem_productionsOf.1 hq).2
    exact .inr ⟨_, hi, hn, hs⟩

/-- Where nothing refers to the root, its production starts at state zero only. -/
theorem Places.path_eq_of_root (h : g.Places path i) (hroot : g.RootUnreferenced)
    (hname : i.production.name = .root) : path = i.production.symbols.take i.dot := by
  obtain ⟨before, hpath, hbefore⟩ := h.split
  rcases hbefore.origin with ⟨rfl, -, -⟩ | ⟨j, hj, hcurrent, -⟩
  · exact hpath
  · rw [hname] at hcurrent
    exact absurd (List.mem_of_getElem? hcurrent) (hroot _ hj.mem_productions)

end Grammar

/-! ### The items of a state -/

namespace Automaton

variable {g : Grammar} {path : List Symbol} {state : Nat} {s : ItemSet} {i j : Item}

theorem exists_itemSet_of_goto? {x : Symbol} {target : Nat} (h : (ofGrammar g).goto? state x = some target) :
    ∃ s, (ofGrammar g).itemSet? target = some s := by
  obtain ⟨s, -, -, htarget⟩ := goto?_eq_some_iff.1 h
  exact ⟨_, htarget⟩

theorem exists_itemSet_of_walk? (h : (ofGrammar g).walk? path = some state) :
    ∃ s, (ofGrammar g).itemSet? state = some s := by
  cases path using List.reverseRecOn with
  | nil =>
    rw [walk?_nil] at h
    exact ⟨_, Option.some.inj h ▸ itemSet?_zero⟩
  | append_singleton path x =>
    rw [walk?_concat, Option.bind_eq_some_iff] at h
    obtain ⟨source, -, hgoto⟩ := h
    exact exists_itemSet_of_goto? hgoto

theorem exists_closure (h : (ofGrammar g).itemSet? state = some s) :
    ∃ kernel : ItemSet, s = kernel.closure g g.first := by
  have hmem : s ∈ (search g g.first).map Visit.node := by
    rw [itemSet?, KeyedSet.get?_eq, ofGrammar, toList_states] at h
    exact List.mem_of_getElem? h
  rw [search, mem_explore_iff] at hmem
  cases hmem with
  | start hstart => exact ⟨_, List.mem_singleton.1 hstart⟩
  | step _ hstep =>
    rw [ItemSet.successors_eq] at hstep
    obtain ⟨x, -, rfl⟩ := List.mem_map.1 hstep
    exact ⟨_, rfl⟩

theorem mem_itemSet_of_expansion (h : (ofGrammar g).itemSet? state = some s) (hi : i ∈ s)
    (hj : j ∈ i.expansion g g.first) : j ∈ s := by
  obtain ⟨kernel, rfl⟩ := exists_closure h
  exact ItemSet.mem_closure_iff.2 (.step (ItemSet.mem_closure_iff.1 hi) hj)

theorem mem_successor_of_advance? {first : TerminalSets} {x : Symbol} (hi : i ∈ s)
    (hj : i.advance? x = some j) : j ∈ s.successor x g first := by
  refine ItemSet.mem_closure_iff.2 (.start ?_)
  exact SortedSet.mem_ofList.2 (List.mem_filterMap.2 ⟨i, hi, hj⟩)

theorem exists_itemSet_of_places (h : g.Places path i) :
    ∃ state s, (ofGrammar g).walk? path = some state ∧ (ofGrammar g).itemSet? state = some s ∧ i ∈ s := by
  induction h with
  | start =>
    refine ⟨0, _, rfl, itemSet?_zero, ItemSet.mem_closure_iff.2 (.start ?_)⟩
    exact SortedSet.mem_ofList.2 (List.mem_singleton_self _)
  | @advance path i j x _ hj ih =>
    obtain ⟨state, s, hwalk, hs, hi⟩ := ih
    have hpending : x ∈ s.pending := ItemSet.mem_pending.2 ⟨i, hi, (Item.advance?_eq_some_iff.1 hj).1⟩
    obtain ⟨target, hgoto⟩ := exists_goto hs hpending
    obtain ⟨s', hs', -, htarget⟩ := goto?_eq_some_iff.1 hgoto
    obtain rfl := Option.some.inj (hs.symm.trans hs')
    refine ⟨target, _, ?_, htarget, mem_successor_of_advance? hi hj⟩
    rw [walk?_concat, hwalk]
    exact hgoto
  | expand _ hj ih =>
    obtain ⟨state, s, hwalk, hs, hi⟩ := ih
    exact ⟨state, s, hwalk, hs, mem_itemSet_of_expansion hs hi hj⟩

theorem exists_goto_of_places (hwalk : (ofGrammar g).walk? path = some state) (hi : g.Places path i)
    {x : Symbol} (hx : i.current? = some x) : ∃ target, (ofGrammar g).goto? state x = some target := by
  obtain ⟨state', s, hwalk', hs, hmem⟩ := exists_itemSet_of_places hi
  obtain rfl := Option.some.inj (hwalk.symm.trans hwalk')
  exact exists_goto hs (ItemSet.mem_pending.2 ⟨i, hmem, hx⟩)

theorem places_of_mem_itemSet (hwalk : (ofGrammar g).walk? path = some state)
    (hs : (ofGrammar g).itemSet? state = some s) (hi : i ∈ s) : g.Places path i := by
  induction path using List.reverseRecOn generalizing state s i with
  | nil =>
    obtain rfl := Option.some.inj hwalk
    obtain rfl := Option.some.inj (itemSet?_zero.symm.trans hs)
    induction ItemSet.mem_closure_iff.1 hi with
    | start hmem =>
      rw [List.mem_singleton.1 (SortedSet.mem_ofList.1 hmem)]
      exact .start
    | step hreach hstep ih => exact (ih (ItemSet.mem_closure_iff.2 hreach)).expand hstep
  | append_singleton path x ih =>
    rw [walk?_concat, Option.bind_eq_some_iff] at hwalk
    obtain ⟨source, hsource, hgoto⟩ := hwalk
    obtain ⟨s', hs', -, htarget⟩ := goto?_eq_some_iff.1 hgoto
    obtain rfl := Option.some.inj (htarget.symm.trans hs)
    induction ItemSet.mem_closure_iff.1 hi with
    | start hmem =>
      obtain ⟨j, hj, hadvance⟩ := List.mem_filterMap.1 (SortedSet.mem_ofList.1 hmem)
      exact (ih hsource hs' hj).advance hadvance
    | step hreach hstep ih' => exact (ih' (ItemSet.mem_closure_iff.2 hreach)).expand hstep

/-- The state at the end of a path holds the items that stand behind the path. -/
theorem mem_itemSet_iff (hwalk : (ofGrammar g).walk? path = some state)
    (hs : (ofGrammar g).itemSet? state = some s) : i ∈ s ↔ g.Places path i := by
  refine ⟨places_of_mem_itemSet hwalk hs, fun h => ?_⟩
  obtain ⟨state', s', hwalk', hs', hi⟩ := exists_itemSet_of_places h
  obtain rfl := Option.some.inj (hwalk.symm.trans hwalk')
  obtain rfl := Option.some.inj (hs.symm.trans hs')
  exact hi

theorem exists_places_of_goto? (hwalk : (ofGrammar g).walk? path = some state) {x : Symbol} {target : Nat}
    (hgoto : (ofGrammar g).goto? state x = some target) : ∃ i, g.Places path i ∧ i.current? = some x := by
  obtain ⟨s, hs, hpending, -⟩ := goto?_eq_some_iff.1 hgoto
  obtain ⟨i, hi, hcurrent⟩ := ItemSet.mem_pending.1 hpending
  exact ⟨i, (mem_itemSet_iff hwalk hs).1 hi, hcurrent⟩

theorem goto?_endMarker (hg : g.WellFormed) (hwalk : (ofGrammar g).walk? path = some state) {target : Nat} :
    (ofGrammar g).goto? state (.terminal .endMarker) ≠ some target := by
  intro hgoto
  obtain ⟨i, hi, hcurrent⟩ := exists_places_of_goto? hwalk hgoto
  exact (hg _ hi.mem_productions).endMarker_not_mem (List.mem_of_getElem? hcurrent)

end Automaton

end CanonicalLR
