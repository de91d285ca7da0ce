import CanonicalLR.Proofs.Automaton.Items
import CanonicalLR.Table.Build

/-!
# The cells of a table

A cell reads what was demanded for it last (`lookup?_fillRow`); a table without conflicts fulfils every demand (`lookup?_of_fillRow_nil`). Together with the items behind a path this says what stands under a terminal in the state at the end of a path: a shift along a transition, a reduction by a production whose symbols end the path, or acceptance by the root's production under the end of input. The successors under nonterminals are those of the automaton under either policy.
-/

namespace CanonicalLR

namespace Row

theorem lookup?_write (r : Row) (d : Demand) (x : Symbol) :
    (r.write d).lookup? x = if d.symbol = x then some d.entry else r.lookup? x := by
  cases d <;> cases x <;> simp [write, lookup?, Demand.symbol, Demand.entry, eq_comm]
  split <;> rfl

@[simp] theorem lookup?_empty (x : Symbol) : ({} : Row).lookup? x = none := by
  cases x <;> simp [lookup?]

theorem conflict?_eq_none_iff {r : Row} {state : Nat} {d : Demand} :
    r.conflict? state d = none ↔ ∀ previous, r.lookup? d.symbol = some previous → previous = d.entry := by
  rw [conflict?, Option.bind_eq_none_iff]
  refine forall₂_congr fun previous _ => ?_
  split
  · rename_i heq
    simp [heq]
  · rename_i hne
    simp [hne]

theorem cell_of_conflict? {r : Row} {state : Nat} {d : Demand} {c : Conflict} (h : r.conflict? state d = some c) :
    c.state = state ∧ c.symbol = d.symbol := by
  obtain ⟨previous, -, hc⟩ := Option.bind_eq_some_iff.1 h
  split at hc
  · cases hc
  · cases hc
    exact ⟨rfl, rfl⟩

end Row

namespace Table

variable {policy : ConflictPolicy} {state : Nat} {r row : Row} {demands : List Demand}
  {conflicts : List Conflict}

/-! ### One row -/

theorem fillRow_cons {d : Demand} {rest : List Demand}
    (h : fillRow policy state r (d :: rest) = .ok (row, conflicts)) :
    ∃ more, fillRow policy state (r.write d) rest = .ok (row, more)
      ∧ conflicts = (r.conflict? state d).toList ++ more := by
  unfold fillRow at h
  split at h
  · cases h
  · cases hrest : fillRow _ state (r.write d) rest with
    | error e =>
      rw [hrest] at h
      cases h
    | ok filled =>
      rw [hrest] at h
      cases h
      exact ⟨filled.2, rfl, rfl⟩

theorem state_of_mem_fillRow (h : fillRow policy state r demands = .ok (row, conflicts)) {c : Conflict}
    (hc : c ∈ conflicts) : c.state = state := by
  induction demands generalizing r conflicts with
  | nil =>
    cases h
    cases hc
  | cons d rest ih =>
    obtain ⟨more, hrest, rfl⟩ := fillRow_cons h
    rcases List.mem_append.1 hc with hown | hmore
    · exact (Row.cell_of_conflict? (Option.mem_toList.1 hown)).1
    · exact ih hrest hmore

/-- A cell reads its last demand, and without one what it read before. -/
theorem lookup?_fillRow (h : fillRow policy state r demands = .ok (row, conflicts)) (x : Symbol) :
    row.lookup? x = ((demands.filter (·.symbol = x)).getLast?.map Demand.entry).or (r.lookup? x) := by
  induction demands generalizing r conflicts with
  | nil =>
    cases h
    simp
  | cons d rest ih =>
    obtain ⟨more, hrest, -⟩ := fillRow_cons h
    rw [ih hrest, Row.lookup?_write, List.filter_cons]
    by_cases hx : d.symbol = x
    · simp [hx, List.getLast?_cons]
    · simp [hx]

theorem lookup?_of_fillRow_nil (h : fillRow policy state r demands = .ok (row, [])) :
    (∀ x entry, r.lookup? x = some entry → row.lookup? x = some entry)
      ∧ ∀ d ∈ demands, row.lookup? d.symbol = some d.entry := by
  induction demands generalizing r with
  | nil =>
    cases h
    exact ⟨fun _ _ hx => hx, fun d hd => absurd hd List.not_mem_nil⟩
  | cons d rest ih =>
    obtain ⟨more, hrest, hconflicts⟩ := fillRow_cons h
    obtain ⟨hnone, rfl⟩ := List.append_eq_nil_iff.1 hconflicts.symm
    rw [Option.toList_eq_nil_iff, Row.conflict?_eq_none_iff] at hnone
    obtain ⟨hbefore, hdemands⟩ := ih hrest
    have hself : row.lookup? d.symbol = some d.entry :=
      hbefore _ _ (by rw [Row.lookup?_write, if_pos rfl])
    constructor
    · intro x entry hx
      by_cases hd : d.symbol = x
      · subst hd
        rw [hself, hnone entry hx]
      · exact hbefore x entry (by rw [Row.lookup?_write, if_neg hd, hx])
    · intro e he
      rcases List.mem_cons.1 he with rfl | he
      · exact hself
      · exact hdemands e he

/-! ### All rows -/

variable {a : Automaton} {columns : Grammar} {t : Table}

theorem fillRows_cons {s : ItemSet} {rest : List ItemSet} {rows : List Row}
    (h : fillRows policy a state (s :: rest) = .ok (rows, conflicts)) :
    ∃ row own others more, fillRow policy state {} (a.demands state s) = .ok (row, own)
      ∧ fillRows policy a (state + 1) rest = .ok (others, more) ∧ rows = row :: others
      ∧ conflicts = own ++ more := by
  rw [fillRows] at h
  cases hrow : fillRow policy state {} (a.demands state s) with
  | error e =>
    rw [hrow] at h
    cases h
  | ok filled =>
    cases hrest : fillRows policy a (state + 1) rest with
    | error e =>
      rw [hrow, hrest] at h
      cases h
    | ok others =>
      rw [hrow, hrest] at h
      cases h
      exact ⟨filled.1, filled.2, others.1, others.2, rfl, rfl, rfl, rfl⟩

theorem length_fillRows {sets : List ItemSet} {rows : List Row}
    (h : fillRows policy a state sets = .ok (rows, conflicts)) : rows.length = sets.length := by
  induction sets generalizing state rows conflicts with
  | nil =>
    cases h
    rfl
  | cons s rest ih =>
    obtain ⟨row, own, others, more, -, hrest, rfl, -⟩ := fillRows_cons h
    rw [List.length_cons, ih hrest, List.length_cons]

theorem states_of_fillRows {sets : List ItemSet} {rows : List Row}
    (h : fillRows policy a state sets = .ok (rows, conflicts)) :
    (∀ c ∈ conflicts, state ≤ c.state ∧ c.state < state + sets.length)
      ∧ conflicts.Pairwise fun c d => c.state ≤ d.state := by
  induction sets generalizing state rows conflicts with
  | nil =>
    cases h
    exact ⟨fun c hc => absurd hc List.not_mem_nil, .nil⟩
  | cons s rest ih =>
    obtain ⟨row, own, others, more, hrow, hrest, -, rfl⟩ := fillRows_cons h
    obtain ⟨hbounds, hordered⟩ := ih hrest
    have hown (c) (hc : c ∈ own) : c.state = state := state_of_mem_fillRow hrow hc
    rw [List.length_cons]
    constructor
    · intro c hc
      rcases List.mem_append.1 hc with hc | hc
      · have := hown c hc
        omega
      · have := hbounds c hc
        omega
    · refine List.pairwise_append.2 ⟨List.pairwise_of_forall_mem_list fun c hc d hd => ?_, hordered,
        fun c hc d hd => ?_⟩
      · exact le_of_eq ((hown c hc).trans (hown d hd).symm)
      · have hlater := (hbounds d hd).1
        rw [hown c hc]
        omega

theorem getElem?_fillRows {sets : List ItemSet} {rows : List Row}
    (h : fillRows policy a state sets = .ok (rows, conflicts)) {place : Nat} {s : ItemSet}
    (hs : sets[place]? = some s) : ∃ row, rows[place]? = some row ∧
      fillRow policy (state + place) {} (a.demands (state + place) s)
        = .ok (row, conflicts.filter (·.state = state + place)) := by
  induction sets generalizing state rows conflicts place with
  | nil => simp at hs
  | cons s' rest ih =>
    obtain ⟨row, own, others, more, hrow, hrest, rfl, rfl⟩ := fillRows_cons h
    have hown (c) (hc : c ∈ own) : c.state = state := state_of_mem_fillRow hrow hc
    have hmore (c) (hc : c ∈ more) : state + 1 ≤ c.state := ((states_of_fillRows hrest).1 c hc).1
    rw [List.filter_append]
    cases place with
    | zero =>
      obtain rfl := Option.some.inj hs
      rw [Nat.add_zero, List.filter_eq_self.2 fun c hc => decide_eq_true (hown c hc),
        List.filter_eq_nil_iff.2 fun c hc => by simp [Nat.ne_of_gt (hmore c hc)], List.append_nil]
      exact ⟨row, rfl, hrow⟩
    | succ place =>
      obtain ⟨row', hget, hfill⟩ := ih hrest hs
      rw [show state + 1 + place = state + (place + 1) from by omega] at hfill
      rw [List.filter_eq_nil_iff.2 fun c hc => by simp [hown c hc], List.nil_append]
      exact ⟨row', hget, hfill⟩

theorem build_eq_ok_iff : build policy a columns = .ok t ↔
    ∃ rows conflicts, fillRows policy a 0 a.states.toList = .ok (rows, conflicts)
      ∧ t = ⟨rows, columns.terminals ++ [.endMarker], columns.nonTerminals, conflicts⟩ := by
  unfold build
  cases fillRows policy a 0 a.states.toList with
  | error e =>
    constructor
    · intro h
      cases h
    · intro h
      obtain ⟨rows, conflicts, hrows, -⟩ := h
      cases hrows
  | ok filled =>
    constructor
    · intro h
      exact ⟨filled.1, filled.2, rfl, (Except.ok.inj h).symm⟩
    · intro h
      obtain ⟨rows, conflicts, hrows, rfl⟩ := h
      cases hrows
      rfl

theorem terminals_of_build (ht : build policy a columns = .ok t) :
    t.terminals = columns.terminals ++ [.endMarker] := by
  obtain ⟨rows, conflicts, -, rfl⟩ := build_eq_ok_iff.1 ht
  rfl

theorem build_columns (ht : build policy a columns = .ok t) (others : Grammar) :
    build policy a others = .ok
      { t with terminals := others.terminals ++ [.endMarker], nonTerminals := others.nonTerminals } := by
  obtain ⟨rows, conflicts, hrows, rfl⟩ := build_eq_ok_iff.1 ht
  exact build_eq_ok_iff.2 ⟨rows, conflicts, hrows, rfl⟩

/-- A state's row and its conflicts come from the demands of the state's items. -/
theorem row?_of_build (ht : build policy a columns = .ok t) {s : ItemSet} (hs : a.itemSet? state = some s) :
    ∃ row, t.row? state = some row ∧
      fillRow policy state {} (a.demands state s) = .ok (row, t.conflicts.filter (·.state = state)) := by
  obtain ⟨rows, conflicts, hrows, rfl⟩ := build_eq_ok_iff.1 ht
  rw [Automaton.itemSet?, KeyedSet.get?_eq] at hs
  simpa only [row?, Nat.zero_add] using getElem?_fillRows hrows hs

theorem exists_itemSet_of_row? (ht : build policy a columns = .ok t) (hrow : t.row? state = some row) :
    ∃ s, a.itemSet? state = some s := by
  obtain ⟨rows, conflicts, hrows, rfl⟩ := build_eq_ok_iff.1 ht
  have hlt := (List.getElem?_eq_some_iff.1 hrow).1
  rw [length_fillRows hrows] at hlt
  rw [Automaton.itemSet?, KeyedSet.get?_eq]
  exact ⟨_, List.getElem?_eq_getElem hlt⟩

theorem exists_lookup?_of_row? {x : Symbol} {entry : Action} (h : t.lookup? state x = some entry) :
    ∃ row, t.row? state = some row ∧ row.lookup? x = some entry :=
  Option.bind_eq_some_iff.1 h

theorem exists_demand (ht : build policy a columns = .ok t) {x : Symbol} {entry : Action}
    (h : t.lookup? state x = some entry) : ∃ s i d, a.itemSet? state = some s ∧ i ∈ s
      ∧ a.demand? state i = some d ∧ d.symbol = x ∧ d.entry = entry := by
  obtain ⟨row, hrow, hx⟩ := exists_lookup?_of_row? h
  obtain ⟨s, hs⟩ := exists_itemSet_of_row? ht hrow
  obtain ⟨row', hrow', hfill⟩ := row?_of_build ht hs
  obtain rfl := Option.some.inj (hrow.symm.trans hrow')
  rw [lookup?_fillRow hfill, Row.lookup?_empty, Option.or_none, Option.map_eq_some_iff] at hx
  obtain ⟨d, hlast, hentry⟩ := hx
  obtain ⟨hd, hsymbol⟩ := List.mem_filter.1 (List.mem_of_getLast? hlast)
  obtain ⟨i, hi, hdemand⟩ := List.mem_filterMap.1 hd
  exact ⟨s, i, d, hs, hi, hdemand, of_decide_eq_true hsymbol, hentry⟩

theorem isSome_lookup?_of_demand (ht : build policy a columns = .ok t) {s : ItemSet} {i : Item} {d : Demand}
    (hs : a.itemSet? state = some s) (hi : i ∈ s) (hd : a.demand? state i = some d) :
    (t.lookup? state d.symbol).isSome := by
  obtain ⟨row, hrow, hfill⟩ := row?_of_build ht hs
  have hmem : d ∈ (a.demands state s).filter (·.symbol = d.symbol) :=
    List.mem_filter.2 ⟨List.mem_filterMap.2 ⟨i, hi, hd⟩, decide_eq_true rfl⟩
  rw [lookup?, hrow, Option.bind_some, lookup?_fillRow hfill, Row.lookup?_empty, Option.or_none,
    Option.isSome_map, List.getLast?_isSome]
  exact List.ne_nil_of_mem hmem

theorem lookup?_of_demand (ht : build policy a columns = .ok t) (hconflicts : t.conflicts = [])
    {s : ItemSet} {i : Item} {d : Demand} (hs : a.itemSet? state = some s) (hi : i ∈ s)
    (hd : a.demand? state i = some d) : t.lookup? state d.symbol = some d.entry := by
  obtain ⟨row, hrow, hfill⟩ := row?_of_build ht hs
  rw [hconflicts, List.filter_nil] at hfill
  rw [lookup?, hrow, Option.bind_some]
  exact (lookup?_of_fillRow_nil hfill).2 d (List.mem_filterMap.2 ⟨i, hi, hd⟩)

end Table

end CanonicalLR
