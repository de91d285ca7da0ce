import CanonicalLR.Proofs.Table.Conflicts

/-!
# The history of a cell

Under overwriting a cell goes through what is demanded for it, in the order of the demands: the last demand is what it reads, and the conflicts that are recorded for it are the places where a demand differs from the one before (`conflicts_fillRow`). A cell may so return to an earlier entry, and both turns are in the list. For a terminal the demands are the claims of the state's items, one for every item that expects the terminal or is complete with it for its lookahead. Demands for a nonterminal, and those for a shift, are for the one transition of the automaton, so that no two of them are in conflict. This accounts for every cell of a table and every entry of its list of conflicts (`cells_of_build`).
-/

namespace CanonicalLR

namespace Action

/-- The adjacent pairs of a history that differ. -/
def changes (history : List Action) : List (Action × Action) :=
  (history.zip history.tail).filter fun change => change.1 ≠ change.2

@[simp] theorem changes_nil : changes [] = [] := rfl

@[simp] theorem changes_singleton (entry : Action) : changes [entry] = [] := rfl

theorem changes_cons_self (entry : Action) (rest : List Action) :
    changes (entry :: entry :: rest) = changes (entry :: rest) := by
  simp [changes]

theorem changes_cons_of_ne {previous next : Action} (h : previous ≠ next) (rest : List Action) :
    changes (previous :: next :: rest) = (previous, next) :: changes (next :: rest) := by
  simp [changes, h]

/-- A cell that returns to an earlier entry has both turns in its history. -/
example : changes [.shift 1, .shift 1, .accept 1, .shift 1] =
    [(.shift 1, .accept 1), (.accept 1, .shift 1)] := by decide

theorem mem_of_mem_changes {history : List Action} {change : Action × Action} (h : change ∈ changes history) :
    change.1 ∈ history ∧ change.2 ∈ history ∧ change.1 ≠ change.2 := by
  obtain ⟨hzip, hne⟩ := List.mem_filter.1 h
  obtain ⟨hprevious, hnext⟩ := List.of_mem_zip hzip
  exact ⟨hprevious, List.mem_of_mem_tail hnext, of_decide_eq_true hne⟩

end Action

/-- What is demanded for a cell, in order. -/
def Demand.entriesFor (x : Symbol) (demands : List Demand) : List Action :=
  (demands.filter (·.symbol = x)).map Demand.entry

namespace Demand

variable {x : Symbol} {d : Demand}

@[simp] theorem symbol_action (y : Terminal) (entry : Action) : (action y entry).symbol = .terminal y := rfl

@[simp] theorem symbol_goto (n : NonTerminal) (target : Nat) : (goto n target).symbol = .nonterminal n := rfl

@[simp] theorem entry_action (y : Terminal) (entry : Action) : (action y entry).entry = entry := rfl

@[simp] theorem entry_goto (n : NonTerminal) (target : Nat) : (goto n target).entry = .goto target := rfl

theorem entriesFor_cons_self (d : Demand) (rest : List Demand) :
    entriesFor d.symbol (d :: rest) = d.entry :: entriesFor d.symbol rest := by
  simp [entriesFor]

theorem entriesFor_cons_of_ne (h : d.symbol ≠ x) (rest : List Demand) :
    entriesFor x (d :: rest) = entriesFor x rest := by
  simp [entriesFor, h]

end Demand

namespace Table

open Demand

variable {policy : ConflictPolicy} {state : Nat} {r row : Row} {demands : List Demand}
  {conflicts : List Conflict}

/-! ### One row -/

/-- The conflicts of a cell are the changes in what is written to it, beginning with what stood there. -/
theorem conflicts_fillRow (h : fillRow policy state r demands = .ok (row, conflicts)) (x : Symbol) :
    conflicts.filter (·.symbol = x) = (Action.changes ((r.lookup? x).toList ++ entriesFor x demands)).map
      fun change => ⟨state, x, change.1, change.2⟩ := by
  induction demands generalizing r conflicts with
  | nil =>
    cases h
    cases row.lookup? x <;> simp [entriesFor]
  | cons d rest ih =>
    obtain ⟨more, hrest, rfl⟩ := fillRow_cons h
    rw [List.filter_append, ih hrest, Row.lookup?_write]
    by_cases hx : d.symbol = x
    · subst hx
      rw [if_pos rfl, entriesFor_cons_self, Row.conflict?]
      cases r.lookup? d.symbol with
      | none => rfl
      | some previous =>
        by_cases hentry : previous = d.entry
        · subst hentry
          simp [Action.changes_cons_self]
        · simp [hentry, Action.changes_cons_of_ne hentry]
    · rw [if_neg hx, entriesFor_cons_of_ne hx]
      have hother : (r.conflict? state d).toList.filter (·.symbol = x) = [] := by
        rw [List.filter_eq_nil_iff]
        intro c hc
        rw [(Row.cell_of_conflict? (Option.mem_toList.1 hc)).2]
        exact fun h => hx (of_decide_eq_true h)
      rw [hother, List.nil_append]

/-! ### All rows -/

variable {a : Automaton} {columns g : Grammar} {t : Table}

theorem states_of_build (ht : build policy a columns = .ok t) :
    (∀ c ∈ t.conflicts, ∃ s, a.itemSet? c.state = some s) ∧ t.conflicts.Pairwise fun c d => c.state ≤ d.state := by
  obtain ⟨rows, conflicts, hrows, rfl⟩ := build_eq_ok_iff.1 ht
  obtain ⟨hbounds, hordered⟩ := states_of_fillRows hrows
  refine ⟨fun c hc => ?_, hordered⟩
  have hlt := (hbounds c hc).2
  rw [Nat.zero_add] at hlt
  rw [Automaton.itemSet?, KeyedSet.get?_eq]
  exact ⟨_, List.getElem?_eq_getElem hlt⟩

/-- A cell reads what was demanded for it last, and its conflicts are the changes in what was demanded. -/
theorem cell_of_build (ht : build policy a columns = .ok t) {s : ItemSet} (hs : a.itemSet? state = some s)
    (x : Symbol) : t.lookup? state x = (entriesFor x (a.demands state s)).getLast?
      ∧ t.conflicts.filter (fun c => c.state = state ∧ c.symbol = x)
        = (Action.changes (entriesFor x (a.demands state s))).map fun change => ⟨state, x, change.1, change.2⟩ := by
  obtain ⟨row, hrow, hfill⟩ := row?_of_build ht hs
  constructor
  · rw [lookup?, hrow, Option.bind_some, lookup?_fillRow hfill, Row.lookup?_empty, Option.or_none,
      entriesFor, List.getLast?_map]
  · have hcell := conflicts_fillRow hfill x
    rw [Row.lookup?_empty, Option.toList_none, List.nil_append, List.filter_filter] at hcell
    rw [← hcell]
    exact List.filter_congr fun c _ => by rw [Bool.decide_and, Bool.and_comm]

end Table

namespace Automaton

variable {a : Automaton} {state : Nat} {s : ItemSet} {x : Terminal}

/-! ### Claims -/

/-- What an item of a state claims for the cell under a terminal. -/
def claim? (a : Automaton) (state : Nat) (x : Terminal) (i : Item) : Option Action :=
  match i.current? with
  | some y => if y = .terminal x then (a.goto? state y).map .shift else none
  | none =>
    if i.lookahead ≠ x then none
    else if x = .endMarker ∧ i.production.name = .root then some (.accept i.production.size)
    else some (.reduce i.production.name i.production.size)

/-- The claims of the items of a state, in the order of the items. -/
def claims (a : Automaton) (state : Nat) (x : Terminal) : List Action :=
  match a.itemSet? state with
  | none => []
  | some s => s.toList.filterMap (a.claim? state x)

theorem claim?_eq (a : Automaton) (state : Nat) (x : Terminal) (i : Item) : a.claim? state x i
    = ((a.demand? state i).filter (·.symbol = .terminal x)).map Demand.entry := by
  rw [claim?, demand?]
  cases i.current? with
  | none =>
    simp only [Demand.symbol_action, Option.filter_some, Symbol.terminal.injEq, decide_eq_true_eq, Item.completion_eq]
    by_cases hx : i.lookahead = x
    · subst hx
      simp [apply_ite some]
    · simp [hx]
  | some y =>
    cases y with
    | terminal y =>
      dsimp only
      cases a.goto? state (.terminal y) with
      | none => simp
      | some target =>
        by_cases hy : y = x <;> simp [Option.filter_some, hy]
    | nonterminal n =>
      dsimp only
      cases a.goto? state (.nonterminal n) <;> simp [Option.filter_some]

theorem entriesFor_demands (hs : a.itemSet? state = some s) (x : Terminal) :
    Demand.entriesFor (.terminal x) (a.demands state s) = a.claims state x := by
  simp only [claims, hs, demands, Demand.entriesFor, List.filter_filterMap, List.map_filterMap]
  exact List.filterMap_congr fun i _ => (claim?_eq a state x i).symm

theorem goto?_of_shift_mem_claims {target : Nat} (h : .shift target ∈ a.claims state x) :
    a.goto? state (.terminal x) = some target := by
  cases hs : a.itemSet? state with
  | none => simp [claims, hs] at h
  | some s =>
    rw [← entriesFor_demands hs] at h
    obtain ⟨d, hd, hentry⟩ := List.mem_map.1 h
    obtain ⟨hmem, hsymbol⟩ := List.mem_filter.1 hd
    obtain ⟨i, -, hdemand⟩ := List.mem_filterMap.1 hmem
    rcases demand?_cases hdemand with ⟨y, _, -, hgoto, rfl⟩ | ⟨n, _, -, -, rfl⟩ | ⟨-, rfl⟩
    · cases hentry
      rw [← Symbol.terminal.inj (of_decide_eq_true hsymbol)]
      exact hgoto
    · cases hentry
    · exact absurd hentry (i.completion_ne_shift target)

theorem changes_entriesFor_nonterminal (s : ItemSet) (n : NonTerminal) :
    Action.changes (Demand.entriesFor (.nonterminal n) (a.demands state s)) = [] := by
  have hentry : ∀ entry ∈ Demand.entriesFor (.nonterminal n) (a.demands state s),
      (a.goto? state (.nonterminal n)).map .goto = some entry := by
    intro entry h
    obtain ⟨d, hd, rfl⟩ := List.mem_map.1 h
    obtain ⟨hmem, hsymbol⟩ := List.mem_filter.1 hd
    obtain ⟨i, -, hdemand⟩ := List.mem_filterMap.1 hmem
    have hsymbol := of_decide_eq_true hsymbol
    rcases demand?_cases hdemand with ⟨y, _, -, -, rfl⟩ | ⟨m, target, -, hgoto, rfl⟩ | ⟨-, rfl⟩
    · cases hsymbol
    · cases hsymbol
      rw [hgoto, Option.map_some, Demand.entry_goto]
    · cases hsymbol
  rw [List.eq_nil_iff_forall_not_mem]
  intro change hchange
  obtain ⟨hprevious, hnext, hne⟩ := Action.mem_of_mem_changes hchange
  exact hne (Option.some.inj ((hentry _ hprevious).symm.trans (hentry _ hnext)))

theorem isSome_claim?_iff {g : Grammar} (hs : (ofGrammar g).itemSet? state = some s) {i : Item} (hi : i ∈ s)
    (x : Terminal) : ((ofGrammar g).claim? state x i).isSome ↔
      i.current? = some (.terminal x) ∨ i.current? = none ∧ i.lookahead = x := by
  rw [claim?]
  cases hcurrent : i.current? with
  | none =>
    by_cases hx : i.lookahead = x
    · simp only [hx, ne_eq, not_true_eq_false, if_false, ← apply_ite some]
      simp
    · simp [hx]
  | some y =>
    by_cases hy : y = .terminal x
    · subst hy
      have hgoto : ∃ target, (ofGrammar g).goto? state (.terminal x) = some target :=
        exists_goto hs (ItemSet.mem_pending.2 ⟨i, hi, hcurrent⟩)
      simpa [Option.isSome_iff_exists] using hgoto
    · simp [hy]

end Automaton

namespace Table

variable {policy : ConflictPolicy} {g columns : Grammar} {a : Automaton} {t : Table} {state : Nat}
  {x : Terminal}

theorem action?_of_build (ht : build policy a columns = .ok t) (state : Nat) (x : Terminal) :
    t.action? state x = (a.claims state x).getLast?
      ∧ t.conflicts.filter (fun c => c.state = state ∧ c.symbol = .terminal x)
        = (Action.changes (a.claims state x)).map fun change => ⟨state, .terminal x, change.1, change.2⟩ := by
  rw [← lookup?_terminal]
  cases hs : a.itemSet? state with
  | some s =>
    rw [← Automaton.entriesFor_demands hs]
    exact cell_of_build ht hs (.terminal x)
  | none =>
    have hrow : t.row? state = none := by
      rw [Option.eq_none_iff_forall_ne_some]
      intro row hrow
      obtain ⟨s, hs'⟩ := exists_itemSet_of_row? ht hrow
      cases hs.symm.trans hs'
    have hconflicts : t.conflicts.filter (fun c => c.state = state ∧ c.symbol = .terminal x) = [] := by
      rw [List.filter_eq_nil_iff]
      intro c hc hcell
      obtain ⟨s, hs'⟩ := (states_of_build ht).1 c hc
      rw [(of_decide_eq_true hcell).1, hs] at hs'
      cases hs'
    have hclaims : a.claims state x = [] := by
      rw [Automaton.claims, hs]
    rw [hconflicts, hclaims, lookup?, hrow]
    exact ⟨rfl, rfl⟩

theorem symbol_of_mem_conflicts (ht : build policy a columns = .ok t) {c : Conflict} (hc : c ∈ t.conflicts) :
    ∃ x, c.symbol = .terminal x ∧ (c.previous, c.replacement) ∈ Action.changes (a.claims c.state x) := by
  cases hsymbol : c.symbol with
  | terminal x =>
    have hcell : c ∈ t.conflicts.filter (fun d => d.state = c.state ∧ d.symbol = .terminal x) :=
      List.mem_filter.2 ⟨hc, decide_eq_true ⟨rfl, hsymbol⟩⟩
    rw [(action?_of_build ht c.state x).2] at hcell
    obtain ⟨change, hchange, hc'⟩ := List.mem_map.1 hcell
    rw [← hc']
    exact ⟨x, rfl, hchange⟩
  | nonterminal n =>
    obtain ⟨s, hs⟩ := (states_of_build ht).1 c hc
    have hcell : c ∈ t.conflicts.filter (fun d => d.state = c.state ∧ d.symbol = .nonterminal n) :=
      List.mem_filter.2 ⟨hc, decide_eq_true ⟨rfl, hsymbol⟩⟩
    rw [(cell_of_build ht hs (.nonterminal n)).2, Automaton.changes_entriesFor_nonterminal] at hcell
    cases hcell

theorem not_shifts_of_mem_conflicts (ht : build policy a columns = .ok t) {c : Conflict} (hc : c ∈ t.conflicts)
    (source target : Nat) : ¬ (c.previous = .shift source ∧ c.replacement = .shift target) := by
  intro hshifts
  obtain ⟨x, -, hchange⟩ := symbol_of_mem_conflicts ht hc
  rw [hshifts.1, hshifts.2] at hchange
  obtain ⟨hprevious, hreplacement, hne⟩ := Action.mem_of_mem_changes hchange
  have hsource := Automaton.goto?_of_shift_mem_claims hprevious
  rw [Automaton.goto?_of_shift_mem_claims hreplacement] at hsource
  exact hne (congrArg Action.shift (Option.some.inj hsource).symm)

/-- Every cell of an overwriting table and every entry of its list of conflicts. A cell under a terminal reads the last of the claims of the state's items, its conflicts are the changes in these claims, and a cell under a nonterminal reads the transition. The items that claim a cell are those that expect the terminal and those that are complete with it for their lookahead. Conflicts are under terminals, not between shifts, and in the order of the states. -/
theorem cells_of_build (g columns : Grammar) : ∃ t, build .overwrite (.ofGrammar g) columns = .ok t ∧
    (∀ state x, t.action? state x = ((Automaton.ofGrammar g).claims state x).getLast? ∧
      t.conflicts.filter (fun c => c.state = state ∧ c.symbol = .terminal x)
        = (Action.changes ((Automaton.ofGrammar g).claims state x)).map fun change =>
            ⟨state, .terminal x, change.1, change.2⟩) ∧
    (∀ state s, (Automaton.ofGrammar g).itemSet? state = some s → ∀ i ∈ s, ∀ x,
      ((Automaton.ofGrammar g).claim? state x i).isSome ↔
        i.current? = some (.terminal x) ∨ i.current? = none ∧ i.lookahead = x) ∧
    (∀ state n, t.goto? state n = (Automaton.ofGrammar g).goto? state (.nonterminal n)) ∧
    (∀ c ∈ t.conflicts, (∃ x, c.symbol = .terminal x) ∧
      ∀ source target, ¬ (c.previous = .shift source ∧ c.replacement = .shift target)) ∧
    t.conflicts.Pairwise fun c d => c.state ≤ d.state := by
  obtain ⟨t, ht, -⟩ := build_policies (.ofGrammar g) columns
  refine ⟨t, ht, action?_of_build ht, fun state s hs i hi => Automaton.isSome_claim?_iff hs hi, goto?_eq ht,
    fun c hc => ⟨?_, not_shifts_of_mem_conflicts ht hc⟩, (states_of_build ht).2⟩
  obtain ⟨x, hsymbol, -⟩ := symbol_of_mem_conflicts ht hc
  exact ⟨x, hsymbol⟩

end Table

end CanonicalLR
