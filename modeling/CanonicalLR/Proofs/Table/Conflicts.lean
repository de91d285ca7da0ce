import CanonicalLR.Proofs.Table.Actions

/-!
# Conflicts

The two policies do the same as long as no different actions meet in a cell. From there on the one goes on and keeps a list of what it overwrites, the other ends. So overwriting always gives a table, and refusing gives that very table or ends with the first conflict of its list (`reject_iff_overwrite`). Whether there is a conflict at all does not depend on the order in which cells are written: there is none exactly when demands for the same cell are for the same entry (`fillRow_eq_nil_iff`), and in the table of a grammar exactly when no two items of a state clash over a terminal (`exists_reject_iff`).
-/

namespace CanonicalLR

/-- Demands for the same cell are for the same entry. -/
def Demand.Agree (demands : List Demand) : Prop :=
  ∀ d ∈ demands, ∀ e ∈ demands, d.symbol = e.symbol → d.entry = e.entry

namespace Table

variable {policy : ConflictPolicy} {state : Nat} {r row : Row} {d : Demand} {rest demands : List Demand}
  {a : Automaton} {columns : Grammar} {t : Table}

/-! ### Two policies -/

theorem fillRow_cons_of_none (h : r.conflict? state d = none) :
    fillRow policy state r (d :: rest) = fillRow policy state (r.write d) rest := by
  rw [fillRow, h]
  · cases fillRow policy state (r.write d) rest <;> rfl
  · intro c hc
    cases h.symm.trans hc

theorem fillRow_cons_overwrite {c : Conflict} (h : r.conflict? state d = some c) :
    fillRow .overwrite state r (d :: rest)
      = (fillRow .overwrite state (r.write d) rest).map fun filled => (filled.1, c :: filled.2) := by
  rw [fillRow, h]
  · cases fillRow .overwrite state (r.write d) rest <;> rfl
  · intro _ _ hpolicy
    cases hpolicy

theorem fillRow_cons_reject {c : Conflict} (h : r.conflict? state d = some c) :
    fillRow .reject state r (d :: rest) = .error c.error := by
  simp only [fillRow, h]

/-- What is left of a filling when its first conflict ends it. -/
def refuse {α : Type} (filled : α × List Conflict) : Except GrammarError (α × List Conflict) :=
  match filled.2 with
  | [] => .ok filled
  | c :: _ => .error c.error

theorem fillRow_policies (state : Nat) (r : Row) (demands : List Demand) :
    ∃ filled, fillRow .overwrite state r demands = .ok filled
      ∧ fillRow .reject state r demands = refuse filled := by
  induction demands generalizing r with
  | nil => exact ⟨(r, []), rfl, rfl⟩
  | cons d rest ih =>
    obtain ⟨filled, hoverwrite, hreject⟩ := ih (r.write d)
    cases hconflict : r.conflict? state d with
    | none =>
      rw [fillRow_cons_of_none hconflict, fillRow_cons_of_none hconflict]
      exact ⟨filled, hoverwrite, hreject⟩
    | some c =>
      rw [fillRow_cons_overwrite hconflict, fillRow_cons_reject hconflict, hoverwrite]
      exact ⟨(filled.1, c :: filled.2), rfl, rfl⟩

theorem fillRows_policies (a : Automaton) (state : Nat) (sets : List ItemSet) :
    ∃ filled, fillRows .overwrite a state sets = .ok filled
      ∧ fillRows .reject a state sets = refuse filled := by
  induction sets generalizing state with
  | nil => exact ⟨([], []), rfl, rfl⟩
  | cons s rest ih =>
    obtain ⟨⟨row, own⟩, hrow, hrow'⟩ := fillRow_policies state {} (a.demands state s)
    obtain ⟨⟨rows, more⟩, hrows, hrows'⟩ := ih (state + 1)
    refine ⟨(row :: rows, own ++ more), ?_, ?_⟩
    · rw [fillRows, hrow, hrows]
      rfl
    · rw [fillRows, hrow', hrows']
      -- the first conflict is the row's own, or else that of the rows behind it
      cases own with
      | nil => cases more <;> rfl
      | cons c own => rfl

theorem build_policies (a : Automaton) (columns : Grammar) :
    ∃ t, build .overwrite a columns = .ok t ∧ build .reject a columns =
      match t.conflicts with
      | [] => .ok t
      | c :: _ => .error c.error := by
  obtain ⟨⟨rows, conflicts⟩, hoverwrite, hreject⟩ := fillRows_policies a 0 a.states.toList
  refine ⟨⟨rows, columns.terminals ++ [.endMarker], columns.nonTerminals, conflicts⟩, ?_, ?_⟩
  · rw [build, hoverwrite]
    rfl
  · rw [build, hreject]
    cases conflicts <;> rfl

/-- Overwriting always gives a table. Refusing gives the same one when it has no conflicts, and otherwise the first of them. -/
theorem reject_iff_overwrite (a : Automaton) (columns : Grammar) :
    ∃ t, build .overwrite a columns = .ok t ∧
      (∀ u, build .reject a columns = .ok u ↔ t.conflicts = [] ∧ u = t) ∧
      ∀ e, build .reject a columns = .error e ↔ ∃ c more, t.conflicts = c :: more
        ∧ e = .conflict c.state c.symbol.text c.previous.text c.replacement.text := by
  obtain ⟨t, hoverwrite, hreject⟩ := build_policies a columns
  refine ⟨t, hoverwrite, fun u => ?_, fun e => ?_⟩
  · rw [hreject]
    cases t.conflicts with
    | nil => simp [eq_comm]
    | cons c more => simp
  · rw [hreject]
    cases t.conflicts with
    | nil => simp
    | cons c more => simp [Conflict.error, eq_comm]

/-! ### What makes a conflict -/

theorem fillRow_eq_nil_iff {conflicts : List Conflict}
    (h : fillRow policy state {} demands = .ok (row, conflicts)) : conflicts = [] ↔ Demand.Agree demands := by
  constructor
  · intro hnil d hd e he hsymbol
    subst hnil
    obtain ⟨-, hdemands⟩ := lookup?_of_fillRow_nil h
    have hd' := hdemands d hd
    rw [hsymbol, hdemands e he] at hd'
    exact (Option.some.inj hd').symm
  · suffices ∀ r : Row, fillRow policy state r demands = .ok (row, conflicts) →
        (∀ d ∈ demands, ∀ entry, r.lookup? d.symbol = some entry → entry = d.entry) →
        Demand.Agree demands → conflicts = [] from
      this {} h fun d _ entry hentry => by simp at hentry
    clear h
    induction demands generalizing conflicts with
    | nil =>
      intro r h _ _
      cases h
      rfl
    | cons d rest ih =>
      intro r h hbefore hdemands
      have hnone : r.conflict? state d = none :=
        Row.conflict?_eq_none_iff.2 fun entry hentry => hbefore d List.mem_cons_self entry hentry
      rw [fillRow_cons_of_none hnone] at h
      refine ih (r.write d) h (fun e he entry hentry => ?_) fun e he f hf =>
        hdemands e (List.mem_cons_of_mem _ he) f (List.mem_cons_of_mem _ hf)
      rw [Row.lookup?_write] at hentry
      split at hentry
      · rename_i hsymbol
        rw [← hdemands d List.mem_cons_self e (List.mem_cons_of_mem _ he) hsymbol]
        exact (Option.some.inj hentry).symm
      · exact hbefore e (List.mem_cons_of_mem _ he) entry hentry

end Table

/-- Two items are at odds over a terminal. One is complete with the terminal for its lookahead; the other expects the terminal, or it is complete likewise and does something else. -/
def Item.AtOdds (i j : Item) : Prop := j.current? = none ∧
  (i.current? = some (.terminal j.lookahead) ∨
    i.current? = none ∧ i.lookahead = j.lookahead ∧ i.completion ≠ j.completion)

def ItemSet.Clashes (s : ItemSet) : Prop := ∃ i ∈ s, ∃ j ∈ s, i.AtOdds j

namespace Automaton

variable {g : Grammar} {state : Nat} {s : ItemSet}

theorem not_clashes_of_agree (hs : (ofGrammar g).itemSet? state = some s)
    (hagree : Demand.Agree ((ofGrammar g).demands state s)) : ¬ s.Clashes := by
  intro hclashes
  obtain ⟨i, hi, j, hj, hcomplete, hodds⟩ := hclashes
  have hdemand : .action j.lookahead j.completion ∈ (ofGrammar g).demands state s :=
    List.mem_filterMap.2 ⟨j, hj, demand?_of_complete hcomplete⟩
  rcases hodds with hcurrent | ⟨hcurrent, hlookahead, hne⟩
  · obtain ⟨target, hgoto⟩ := exists_goto hs (ItemSet.mem_pending.2 ⟨i, hi, hcurrent⟩)
    have hshift := List.mem_filterMap.2 ⟨i, hi, demand?_of_terminal hcurrent hgoto⟩
    exact j.completion_ne_shift target (hagree _ hdemand _ hshift rfl)
  · have hother : .action i.lookahead i.completion ∈ (ofGrammar g).demands state s :=
      List.mem_filterMap.2 ⟨i, hi, demand?_of_complete hcurrent⟩
    exact hne (hagree _ hother _ hdemand (congrArg Symbol.terminal hlookahead))

theorem agree_of_not_clashes (hclashes : ¬ s.Clashes) : Demand.Agree ((ofGrammar g).demands state s) := by
  intro d hd e he hsymbol
  obtain ⟨i, hi, hdemand⟩ := List.mem_filterMap.1 hd
  obtain ⟨j, hj, hdemand'⟩ := List.mem_filterMap.1 he
  rcases demand?_cases hdemand with
    ⟨x, target, hcurrent, hgoto, rfl⟩ | ⟨n, target, -, hgoto, rfl⟩ | ⟨hcurrent, rfl⟩
  · rcases demand?_cases hdemand' with
      ⟨y, target', -, hgoto', rfl⟩ | ⟨m, target', -, -, rfl⟩ | ⟨hcurrent', rfl⟩
    · cases hsymbol
      exact congrArg Action.shift (Option.some.inj (hgoto.symm.trans hgoto'))
    · cases hsymbol
    · rw [Symbol.terminal.inj hsymbol] at hcurrent
      exact absurd ⟨i, hi, j, hj, hcurrent', .inl hcurrent⟩ hclashes
  · rcases demand?_cases hdemand' with
      ⟨y, target', -, -, rfl⟩ | ⟨m, target', -, hgoto', rfl⟩ | ⟨-, rfl⟩
    · cases hsymbol
    · cases hsymbol
      exact congrArg Action.goto (Option.some.inj (hgoto.symm.trans hgoto'))
    · cases hsymbol
  · rcases demand?_cases hdemand' with
      ⟨y, target', hcurrent', -, rfl⟩ | ⟨m, target', -, -, rfl⟩ | ⟨hcurrent', rfl⟩
    · rw [← Symbol.terminal.inj hsymbol] at hcurrent'
      exact absurd ⟨j, hj, i, hi, hcurrent, .inl hcurrent'⟩ hclashes
    · cases hsymbol
    · have hlookahead : i.lookahead = j.lookahead := Symbol.terminal.inj hsymbol
      exact Classical.byContradiction fun hne => hclashes ⟨i, hi, j, hj, hcurrent', .inr ⟨hcurrent, hlookahead, hne⟩⟩

end Automaton

namespace Table

variable {policy : ConflictPolicy} {g columns : Grammar} {a : Automaton} {t : Table}

theorem fillRows_eq_nil_iff {state : Nat} {sets : List ItemSet} {rows : List Row} {conflicts : List Conflict}
    (h : fillRows policy a state sets = .ok (rows, conflicts)) :
    conflicts = [] ↔ ∀ place s, sets[place]? = some s → Demand.Agree (a.demands (state + place) s) := by
  induction sets generalizing state rows conflicts with
  | nil =>
    cases h
    simp
  | cons s rest ih =>
    obtain ⟨row, own, others, more, hrow, hrest, -, rfl⟩ := fillRows_cons h
    rw [List.append_eq_nil_iff, fillRow_eq_nil_iff hrow, ih hrest]
    constructor
    · intro hboth place s' hs'
      cases place with
      | zero => exact Option.some.inj hs' ▸ hboth.1
      | succ place =>
        rw [show state + (place + 1) = state + 1 + place from by omega]
        exact hboth.2 place s' hs'
    · intro hall
      refine ⟨hall 0 s rfl, fun place s' hs' => ?_⟩
      rw [show state + 1 + place = state + (place + 1) from by omega]
      exact hall (place + 1) s' hs'

theorem conflicts_eq_nil_iff (ht : build policy (.ofGrammar g) columns = .ok t) :
    t.conflicts = [] ↔ ∀ state s, (Automaton.ofGrammar g).itemSet? state = some s → ¬ s.Clashes := by
  obtain ⟨rows, conflicts, hrows, rfl⟩ := build_eq_ok_iff.1 ht
  rw [fillRows_eq_nil_iff hrows]
  simp only [Automaton.itemSet?, KeyedSet.get?_eq, Nat.zero_add]
  refine forall₃_congr fun state s hs => ⟨Automaton.not_clashes_of_agree ?_, Automaton.agree_of_not_clashes⟩
  rw [Automaton.itemSet?, KeyedSet.get?_eq, hs]

theorem conflicts_of_reject (ht : build .reject a columns = .ok t) : t.conflicts = [] := by
  obtain ⟨u, -, hreject⟩ := build_policies a columns
  cases hconflicts : u.conflicts with
  | nil =>
    simp only [hconflicts] at hreject
    rw [Except.ok.inj (ht.symm.trans hreject), hconflicts]
  | cons c more =>
    simp only [hconflicts] at hreject
    cases ht.symm.trans hreject

theorem exists_reject_iff (g columns : Grammar) : (∃ t, build .reject (.ofGrammar g) columns = .ok t) ↔
    ∀ state s, (Automaton.ofGrammar g).itemSet? state = some s → ¬ s.Clashes := by
  obtain ⟨t, hoverwrite, hreject⟩ := build_policies (.ofGrammar g) columns
  rw [← conflicts_eq_nil_iff hoverwrite, hreject]
  cases t.conflicts <;> simp

end Table

end CanonicalLR
