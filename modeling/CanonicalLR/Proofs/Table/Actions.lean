import CanonicalLR.Proofs.Table.Cells

/-!
# What a state does

The table of an automaton, read in the state at the end of a path. Whatever the policy, a shift follows a transition, a reduction is by a production that is complete behind the path and has the terminal for its lookahead, acceptance is by the root's production under the end of input, and the successors under nonterminals are the automaton's. In a table without conflicts every item has its way: an expected terminal is shifted and a complete item acts on its lookahead.
-/

namespace CanonicalLR

theorem Item.completion_eq (i : Item) : i.completion = if i.lookahead = .endMarker ∧ i.production.name = .root
    then .accept i.production.size else .reduce i.production.name i.production.size := by
  have hcondition : (i.lookahead.isEnd && i.production.name.isRoot) = true ↔
      i.lookahead = .endMarker ∧ i.production.name = .root := by
    rw [Bool.and_eq_true, Terminal.isEnd_iff, NonTerminal.isRoot_iff]
  rw [completion]
  exact if_congr hcondition rfl rfl

theorem Item.completion_final (p : Production) (x : Terminal) : (final p x).completion
    = if x = .endMarker ∧ p.name = .root then .accept p.size else .reduce p.name p.size :=
  completion_eq (final p x)

theorem Item.completion_ne_shift (i : Item) (target : Nat) : i.completion ≠ .shift target := by
  rw [completion]
  split <;> exact nofun

theorem Item.completion_ne_goto (i : Item) (target : Nat) : i.completion ≠ .goto target := by
  rw [completion]
  split <;> exact nofun

theorem Automaton.demand?_cases {a : Automaton} {state : Nat} {i : Item} {d : Demand}
    (h : a.demand? state i = some d) :
    (∃ x target, i.current? = some (.terminal x) ∧ a.goto? state (.terminal x) = some target
      ∧ d = .action x (.shift target)) ∨
    (∃ n target, i.current? = some (.nonterminal n) ∧ a.goto? state (.nonterminal n) = some target
      ∧ d = .goto n target) ∨
    (i.current? = none ∧ d = .action i.lookahead i.completion) := by
  unfold demand? at h
  split at h
  · rename_i x hcurrent
    obtain ⟨target, hgoto, rfl⟩ := Option.map_eq_some_iff.1 h
    exact .inl ⟨x, target, hcurrent, hgoto, rfl⟩
  · rename_i n hcurrent
    obtain ⟨target, hgoto, rfl⟩ := Option.map_eq_some_iff.1 h
    exact .inr (.inl ⟨n, target, hcurrent, hgoto, rfl⟩)
  · rename_i hcurrent
    exact .inr (.inr ⟨hcurrent, (Option.some.inj h).symm⟩)

namespace Automaton

variable {a : Automaton} {state target : Nat} {i : Item}

theorem demand?_of_terminal {x : Terminal} (hcurrent : i.current? = some (.terminal x))
    (hgoto : a.goto? state (.terminal x) = some target) : a.demand? state i = some (.action x (.shift target)) := by
  rw [demand?, hcurrent]
  simp only [hgoto, Option.map_some]

theorem demand?_of_nonterminal {n : NonTerminal} (hcurrent : i.current? = some (.nonterminal n))
    (hgoto : a.goto? state (.nonterminal n) = some target) : a.demand? state i = some (.goto n target) := by
  rw [demand?, hcurrent]
  simp only [hgoto, Option.map_some]

theorem demand?_of_complete (hcurrent : i.current? = none) :
    a.demand? state i = some (.action i.lookahead i.completion) := by
  rw [demand?, hcurrent]

end Automaton

namespace Table

variable {policy : ConflictPolicy} {g columns : Grammar} {t : Table} {path : List Symbol} {state : Nat}
  {x : Terminal}

theorem lookup?_terminal (state : Nat) (x : Terminal) : t.lookup? state (.terminal x) = t.action? state x := rfl

theorem lookup?_nonterminal (state : Nat) (n : NonTerminal) :
    t.lookup? state (.nonterminal n) = (t.goto? state n).map .goto := by
  rw [lookup?, goto?]
  cases t.row? state <;> rfl

/-! ### Under nonterminals -/

theorem goto?_automaton (ht : build policy (.ofGrammar g) columns = .ok t) {n : NonTerminal} {target : Nat}
    (h : t.goto? state n = some target) : (Automaton.ofGrammar g).goto? state (.nonterminal n) = some target := by
  have hcell : t.lookup? state (.nonterminal n) = some (.goto target) := by
    rw [lookup?_nonterminal, h, Option.map_some]
  obtain ⟨s, i, d, -, -, hdemand, hsymbol, hentry⟩ := exists_demand ht hcell
  rcases Automaton.demand?_cases hdemand with ⟨x, _, -, -, rfl⟩ | ⟨m, _, -, hgoto, rfl⟩ | ⟨-, rfl⟩
  · cases hsymbol
  · cases hsymbol
    cases hentry
    exact hgoto
  · cases hsymbol

theorem goto?_eq (ht : build policy (.ofGrammar g) columns = .ok t) (state : Nat) (n : NonTerminal) :
    t.goto? state n = (Automaton.ofGrammar g).goto? state (.nonterminal n) := by
  cases h : (Automaton.ofGrammar g).goto? state (.nonterminal n) with
  | none =>
    rw [Option.eq_none_iff_forall_ne_some]
    intro target htarget
    rw [goto?_automaton ht htarget] at h
    cases h
  | some target =>
    obtain ⟨s, hs, hpending, -⟩ := Automaton.goto?_eq_some_iff.1 h
    obtain ⟨i, hi, hcurrent⟩ := ItemSet.mem_pending.1 hpending
    have hsome := isSome_lookup?_of_demand ht hs hi (Automaton.demand?_of_nonterminal hcurrent h)
    rw [Demand.symbol, lookup?_nonterminal, Option.isSome_map, Option.isSome_iff_exists] at hsome
    obtain ⟨target', htarget'⟩ := hsome
    rw [htarget', ← h, goto?_automaton ht htarget']

/-! ### Under terminals -/

/-- What stands under a terminal: an item of the state expects the terminal, or it is complete with the terminal for its lookahead. -/
theorem exists_item_of_action? (ht : build policy (.ofGrammar g) columns = .ok t) {entry : Action}
    (h : t.action? state x = some entry) :
    ∃ s i, (Automaton.ofGrammar g).itemSet? state = some s ∧ i ∈ s ∧
      ((i.current? = some (.terminal x) ∧ ∃ target,
          (Automaton.ofGrammar g).goto? state (.terminal x) = some target ∧ entry = .shift target) ∨
        (i.current? = none ∧ i.lookahead = x ∧ entry = i.completion)) := by
  rw [← lookup?_terminal] at h
  obtain ⟨s, i, d, hs, hi, hdemand, hsymbol, hentry⟩ := exists_demand ht h
  refine ⟨s, i, hs, hi, ?_⟩
  rcases Automaton.demand?_cases hdemand with ⟨y, target, hcurrent, hgoto, rfl⟩ | ⟨n, _, -, -, rfl⟩ | ⟨hcurrent, rfl⟩
  · cases hsymbol
    exact .inl ⟨hcurrent, target, hgoto, hentry.symm⟩
  · cases hsymbol
  · exact .inr ⟨hcurrent, Symbol.terminal.inj hsymbol, hentry.symm⟩

theorem goto?_of_shift (ht : build policy (.ofGrammar g) columns = .ok t) {target : Nat}
    (h : t.action? state x = some (.shift target)) :
    (Automaton.ofGrammar g).goto? state (.terminal x) = some target := by
  obtain ⟨s, i, -, -, ⟨-, _, hgoto, hentry⟩ | ⟨-, -, hentry⟩⟩ := exists_item_of_action? ht h
  · cases hentry
    exact hgoto
  · exact absurd hentry.symm (i.completion_ne_shift target)

theorem action?_ne_goto (ht : build policy (.ofGrammar g) columns = .ok t) (state : Nat) (x : Terminal)
    (target : Nat) : t.action? state x ≠ some (.goto target) := by
  intro h
  obtain ⟨s, i, -, -, ⟨-, _, -, hentry⟩ | ⟨-, -, hentry⟩⟩ := exists_item_of_action? ht h
  · cases hentry
  · exact absurd hentry.symm (i.completion_ne_goto target)

theorem exists_final_of_action? (ht : build policy (.ofGrammar g) columns = .ok t)
    (hwalk : (Automaton.ofGrammar g).walk? path = some state) {entry : Action}
    (h : t.action? state x = some entry) (hshift : ∀ target, entry ≠ .shift target) :
    ∃ p, g.Places path (.final p x) ∧ entry = (Item.final p x).completion := by
  obtain ⟨s, i, hs, hi, ⟨-, target, -, hentry⟩ | ⟨hcurrent, rfl, hentry⟩⟩ := exists_item_of_action? ht h
  · exact absurd hentry (hshift target)
  · have hplaces := (Automaton.mem_itemSet_iff hwalk hs).1 hi
    have hfinal := hplaces.eq_final hcurrent
    rw [hfinal] at hplaces hentry
    exact ⟨i.production, hplaces, hentry⟩

theorem exists_production_of_reduce (ht : build policy (.ofGrammar g) columns = .ok t)
    (hwalk : (Automaton.ofGrammar g).walk? path = some state) {name : NonTerminal} {count : Nat}
    (h : t.action? state x = some (.reduce name count)) :
    ∃ p, g.Places path (.final p x) ∧ p.name = name ∧ p.size = count ∧ (x = .endMarker → p.name ≠ .root) := by
  obtain ⟨p, hplaces, hentry⟩ := exists_final_of_action? ht hwalk h fun _ => by simp
  refine ⟨p, hplaces, ?_⟩
  rw [Item.completion_final] at hentry
  split at hentry
  · cases hentry
  · rename_i hroot
    injection hentry with hname hcount
    exact ⟨hname.symm, hcount.symm, not_and.1 hroot⟩

theorem root_of_accept (ht : build policy (.ofGrammar g) columns = .ok t)
    (hwalk : (Automaton.ofGrammar g).walk? path = some state) {count : Nat}
    (h : t.action? state x = some (.accept count)) :
    x = .endMarker ∧ count = g.root.size ∧ g.Places path (.final g.root .endMarker) := by
  obtain ⟨p, hplaces, hentry⟩ := exists_final_of_action? ht hwalk h fun _ => by simp
  rw [Item.completion_final] at hentry
  split at hentry
  · rename_i hcondition
    obtain ⟨hx, hname⟩ := hcondition
    have hp : p = g.root := g.root_unique p hplaces.mem_productions hname
    subst hx hp
    injection hentry with hcount
    exact ⟨rfl, hcount, hplaces⟩
  · cases hentry

theorem isSome_action?_iff (ht : build policy (.ofGrammar g) columns = .ok t)
    (hwalk : (Automaton.ofGrammar g).walk? path = some state) :
    (t.action? state x).isSome ↔ ∃ i, g.Places path i ∧
      (i.current? = some (.terminal x) ∨ i.current? = none ∧ i.lookahead = x) := by
  constructor
  · intro h
    obtain ⟨entry, hentry⟩ := Option.isSome_iff_exists.1 h
    obtain ⟨s, i, hs, hi, hcases⟩ := exists_item_of_action? ht hentry
    refine ⟨i, (Automaton.mem_itemSet_iff hwalk hs).1 hi, ?_⟩
    rcases hcases with ⟨hcurrent, -⟩ | ⟨hcurrent, hlookahead, -⟩
    · exact .inl hcurrent
    · exact .inr ⟨hcurrent, hlookahead⟩
  · intro h
    obtain ⟨i, hi, hcases⟩ := h
    obtain ⟨s, hs⟩ := Automaton.exists_itemSet_of_walk? hwalk
    have hmem := (Automaton.mem_itemSet_iff hwalk hs).2 hi
    rcases hcases with hcurrent | ⟨hcurrent, rfl⟩
    · obtain ⟨target, hgoto⟩ := Automaton.exists_goto_of_places hwalk hi hcurrent
      exact isSome_lookup?_of_demand ht hs hmem (Automaton.demand?_of_terminal hcurrent hgoto)
    · exact isSome_lookup?_of_demand ht hs hmem (Automaton.demand?_of_complete hcurrent)

/-! ### Without conflicts -/

theorem shift_of_places (ht : build policy (.ofGrammar g) columns = .ok t) (hconflicts : t.conflicts = [])
    (hwalk : (Automaton.ofGrammar g).walk? path = some state) {i : Item} (hi : g.Places path i)
    (hx : i.current? = some (.terminal x)) : ∃ target,
      (Automaton.ofGrammar g).goto? state (.terminal x) = some target ∧ t.action? state x = some (.shift target) := by
  obtain ⟨target, hgoto⟩ := Automaton.exists_goto_of_places hwalk hi hx
  obtain ⟨s, hs⟩ := Automaton.exists_itemSet_of_walk? hwalk
  have hmem := (Automaton.mem_itemSet_iff hwalk hs).2 hi
  exact ⟨target, hgoto, lookup?_of_demand ht hconflicts hs hmem (Automaton.demand?_of_terminal hx hgoto)⟩

theorem completion_of_places (ht : build policy (.ofGrammar g) columns = .ok t)
    (hconflicts : t.conflicts = []) (hwalk : (Automaton.ofGrammar g).walk? path = some state)
    {p : Production} (hp : g.Places path (.final p x)) :
    t.action? state x = some (Item.final p x).completion := by
  obtain ⟨s, hs⟩ := Automaton.exists_itemSet_of_walk? hwalk
  have hmem := (Automaton.mem_itemSet_iff hwalk hs).2 hp
  exact lookup?_of_demand ht hconflicts hs hmem (Automaton.demand?_of_complete (Item.current?_final p x))

end Table

end CanonicalLR
