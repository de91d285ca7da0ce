import CanonicalLR.Proofs.Automaton.Numbering
import CanonicalLR.Proofs.Table.Actions
import CanonicalLR.Proofs.Table.Evaluation

/-!
# Columns and rows

The columns of a table come from the grammar and its cells from the automaton, and still no cell stands outside of them. The symbols that items expect are symbols of productions, and their lookaheads are terminals of the grammar or the end of input, which is what the closure and the move of the dot keep (`Places.lookahead_mem`); so a state acts on no other terminals, and goes on behind no other nonterminals than those that have productions. Rows are numbered like states. A cell that leads on names one of them, and never the first, where no symbol leads.
-/

namespace CanonicalLR

namespace Automaton

variable {g : Grammar} {state target : Nat} {s : ItemSet} {i : Item} {x : Terminal}

theorem lt_size_of_itemSet? {a : Automaton} (h : a.itemSet? state = some s) : state < a.size := by
  rw [itemSet?, KeyedSet.get?_eq] at h
  rw [size, KeyedSet.size_eq]
  exact (List.getElem?_eq_some_iff.1 h).1

theorem target_of_goto? {y : Symbol} (h : (ofGrammar g).goto? state y = some target) :
    0 < target ∧ target < (ofGrammar g).size := by
  have hne : target ≠ 0 := target_ne_zero (t := ⟨state, y, target⟩) (mem_transitions_iff_goto?.2 h)
  obtain ⟨s, hs⟩ := exists_itemSet_of_goto? h
  exact ⟨Nat.pos_of_ne_zero hne, lt_size_of_itemSet? hs⟩

theorem exists_places_of_mem_itemSet (hs : (ofGrammar g).itemSet? state = some s) (hi : i ∈ s) :
    ∃ path, g.Places path i := by
  obtain ⟨path, hwalk⟩ := exists_walk?_of_itemSet? hs
  exact ⟨path, (mem_itemSet_iff hwalk hs).1 hi⟩

theorem mem_terminals_of_current? (hs : (ofGrammar g).itemSet? state = some s) (hi : i ∈ s)
    (hx : i.current? = some (.terminal x)) : x ∈ g.terminals := by
  obtain ⟨path, hplaces⟩ := exists_places_of_mem_itemSet hs hi
  exact Grammar.mem_terminals.2 ⟨_, hplaces.mem_productions, List.mem_of_getElem? hx⟩

theorem lookahead_mem (hs : (ofGrammar g).itemSet? state = some s) (hi : i ∈ s) :
    i.lookahead ∈ g.terminals ++ [.endMarker] := by
  obtain ⟨path, hplaces⟩ := exists_places_of_mem_itemSet hs hi
  exact hplaces.lookahead_mem

theorem mem_nonTerminals_of_goto? {n : NonTerminal} (h : (ofGrammar g).goto? state (.nonterminal n) = some target) :
    n ∈ g.nonTerminals := by
  obtain ⟨s, hs, hpending, -⟩ := goto?_eq_some_iff.1 h
  obtain ⟨i, hi, hcurrent⟩ := ItemSet.mem_pending.1 hpending
  obtain ⟨path, hplaces⟩ := exists_places_of_mem_itemSet hs hi
  exact Grammar.mem_nonTerminals.2 (g.defined _ hplaces.mem_productions n (List.mem_of_getElem? hcurrent))

end Automaton

namespace Table

variable {policy : ConflictPolicy} {g columns : Grammar} {t : Table} {state target : Nat} {x : Terminal}
  {source : String}

theorem size_of_build {a : Automaton} (ht : build policy a columns = .ok t) : t.size = a.size := by
  obtain ⟨rows, conflicts, hrows, rfl⟩ := build_eq_ok_iff.1 ht
  rw [Automaton.size, KeyedSet.size_eq]
  exact length_fillRows hrows

/-! ### Terminals -/

theorem expected_eq (t : Table) (state : Nat) :
    t.expected state = t.terminals.filter fun x => (t.action? state x).isSome := by
  unfold expected action?
  split
  · rename_i hrow
    simp [hrow]
  · rename_i row hrow
    simp only [hrow, Option.bind_some]
    rfl

theorem mem_terminals_of_action? (ht : ofGrammar policy g = .ok t) {state : Nat} {x : Terminal}
    (h : (t.action? state x).isSome) : x ∈ t.terminals := by
  rw [terminals_of_build ht]
  obtain ⟨entry, hentry⟩ := Option.isSome_iff_exists.1 h
  obtain ⟨s, i, hs, hi, ⟨hcurrent, -⟩ | ⟨-, rfl, -⟩⟩ := exists_item_of_action? ht hentry
  · exact List.mem_append_left _ (Automaton.mem_terminals_of_current? hs hi hcurrent)
  · exact Automaton.lookahead_mem hs hi

theorem nodup_terminals (hg : g.WellFormed) (ht : ofGrammar policy g = .ok t) : t.terminals.Nodup := by
  rw [terminals_of_build ht, List.nodup_append_comm]
  exact List.nodup_cons.2 ⟨Grammar.endMarker_not_mem_terminals hg, nodup_distinct _⟩

theorem mem_expected_iff (ht : ofGrammar policy g = .ok t) {state : Nat} {x : Terminal} :
    x ∈ t.expected state ↔ (t.action? state x).isSome := by
  rw [expected_eq, List.mem_filter]
  exact and_iff_right_of_imp (mem_terminals_of_action? ht)

/-- What is shifted is a terminal of the grammar, and the row that it leads to is there. -/
theorem target_of_shift (ht : build policy (.ofGrammar g) columns = .ok t)
    (h : t.action? state x = some (.shift target)) : x ∈ g.terminals ∧ 0 < target ∧ target < t.size := by
  obtain ⟨s, i, hs, hi, ⟨hcurrent, _, hgoto, hentry⟩ | ⟨-, -, hentry⟩⟩ := exists_item_of_action? ht h
  · cases hentry
    rw [size_of_build ht]
    exact ⟨Automaton.mem_terminals_of_current? hs hi hcurrent, Automaton.target_of_goto? hgoto⟩
  · exact absurd hentry.symm (i.completion_ne_shift target)

theorem eq_endMarker_of_accept (ht : build policy (.ofGrammar g) columns = .ok t) {count : Nat}
    (h : t.action? state x = some (.accept count)) : x = .endMarker := by
  obtain ⟨s, i, hs, -, -⟩ := exists_item_of_action? ht h
  obtain ⟨path, hwalk⟩ := Automaton.exists_walk?_of_itemSet? hs
  exact (root_of_accept ht hwalk h).1

/-! ### Nonterminals -/

theorem nonTerminals_of_build {a : Automaton} (ht : build policy a columns = .ok t) :
    t.nonTerminals = columns.nonTerminals := by
  obtain ⟨rows, conflicts, -, rfl⟩ := build_eq_ok_iff.1 ht
  rfl

theorem target_of_mem_gotos (ht : ofGrammar policy g = .ok t) {row : Row} (hrow : t.row? state = some row)
    {n : NonTerminal} (h : (n, target) ∈ row.gotos.entries) :
    n ∈ t.nonTerminals ∧ 0 < target ∧ target < t.size := by
  have hgoto : t.goto? state n = some target := by
    rw [goto?, hrow]
    exact OrderedMap.get?_eq_some_iff.2 h
  have hautomaton := goto?_automaton ht hgoto
  rw [size_of_build ht, nonTerminals_of_build ht]
  exact ⟨Automaton.mem_nonTerminals_of_goto? hautomaton, Automaton.target_of_goto? hautomaton⟩

/-- The cells of a state are covered by the columns and lead to rows. The terminals on which the state acts are listed in the order of the columns, all of them and each once; the nonterminals under which something stands are columns; shifts and successors name rows other than the first; and acceptance is at the end of input. -/
structure Covered (t : Table) (state : Nat) : Prop where
  expected_sublist : (t.expected state).Sublist t.terminals
  nodup_expected : (t.expected state).Nodup
  mem_expected : ∀ x, x ∈ t.expected state ↔ (t.action? state x).isSome
  shifts : ∀ x target, t.action? state x = some (.shift target) → 0 < target ∧ target < t.size
  gotos : ∀ row, t.row? state = some row → ∀ n target, (n, target) ∈ row.gotos.entries →
    n ∈ t.nonTerminals ∧ 0 < target ∧ target < t.size
  accepts : ∀ x count, t.action? state x = some (.accept count) → x = .endMarker

theorem covered_of_wellFormed (hg : g.WellFormed) (ht : ofGrammar policy g = .ok t) (state : Nat) :
    t.Covered state where
  expected_sublist := by
    rw [expected_eq]
    exact List.filter_sublist
  nodup_expected := by
    rw [expected_eq]
    exact (nodup_terminals hg ht).filter _
  mem_expected := fun _ => mem_expected_iff ht
  shifts := fun _ _ h => (target_of_shift ht h).2
  gotos := fun _ hrow _ _ h => target_of_mem_gotos ht hrow h
  accepts := fun _ _ h => eq_endMarker_of_accept ht h

/-- The columns, which are the grammar's terminals with the end of input and its nonterminals, cover the cells of every row, and no item of the automaton expects a terminal or has a lookahead outside of them. -/
theorem columns_cover (hg : Grammar.ofSource source = .ok g) (ht : ofGrammar policy g = .ok t) :
    t.terminals = g.terminals ++ [.endMarker] ∧ t.nonTerminals = g.nonTerminals ∧ (∀ state, t.Covered state) ∧
    (∀ state x target, t.action? state x = some (.shift target) → x ∈ g.terminals) ∧
    ∀ state s, (Automaton.ofGrammar g).itemSet? state = some s → ∀ i ∈ s,
      (∀ x, i.current? = some (.terminal x) → x ∈ g.terminals) ∧
      (i.lookahead ∈ g.terminals ∨ i.lookahead = .endMarker) := by
  refine ⟨terminals_of_build ht, nonTerminals_of_build ht,
    covered_of_wellFormed (Grammar.wellFormed_of_ofSource hg) ht,
    fun state x target h => (target_of_shift ht h).1, fun state s hs i hi => ⟨fun x hx => ?_, ?_⟩⟩
  · exact Automaton.mem_terminals_of_current? hs hi hx
  · rw [← List.mem_singleton, ← List.mem_append]
    exact Automaton.lookahead_mem hs hi

/-- Cells have been overwritten. Behind the first `id` a sum goes on or ends, and nothing else stands in the row. -/
theorem columns_cover_sum : ∃ g t, Grammar.ofSource "__root : @sum ; sum : @sum plus @sum ; sum : id ;" = .ok g
    ∧ ofGrammar .overwrite g = .ok t ∧ t.conflicts ≠ [] ∧ t.expected 1 = [⟨"plus"⟩, .endMarker]
    ∧ (t.action? 1 ⟨"plus"⟩).isSome ∧ ¬ (t.action? 1 ⟨"id"⟩).isSome
    ∧ t.action? 0 ⟨"id"⟩ = some (.shift 1) ∧ 1 < t.size := by
  obtain ⟨g, t, hg, ht, hconflicts, hexpected, hshift⟩ := exists_table_of_within .overwrite 20
    "__root : @sum ; sum : @sum plus @sum ; sum : id ;"
    (P := fun g t => t.conflicts ≠ [] ∧ t.expected 1 = [⟨"plus"⟩, .endMarker]
      ∧ t.action? 0 ⟨"id"⟩ = some (.shift 1))
    (by decide +kernel)
  obtain ⟨-, -, hcovered, -⟩ := columns_cover hg ht
  have hmem := (hcovered 1).mem_expected
  rw [hexpected] at hmem
  refine ⟨g, t, hg, ht, hconflicts, hexpected, (hmem _).1 (by decide), fun hid => ?_, hshift, ?_⟩
  · exact absurd ((hmem _).2 hid) (by decide)
  · exact ((hcovered 0).shifts _ _ hshift).2

end Table

end CanonicalLR
