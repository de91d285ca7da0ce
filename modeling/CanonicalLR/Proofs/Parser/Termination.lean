import CanonicalLR.Proofs.Parser.Moves

/-!
# Ending

A run has as many steps as `stepBound` says, and that is enough: what the parser ever halts with is what it halts with there (`outcome_parse_iff`). A shift and a reduction of several trees lower a potential, the tokens to come counted twice and the trees on the stack once. A reduction of a single tree keeps it, and keeps the state below the tree. Between two moves of the other kind such reductions lead to different successors of that one state: the parser goes by states and tokens alone (`Configuration.Alike`), so a state that came back would put off the end for ever.
-/

namespace CanonicalLR

open Relation

/-- The same states on the stack and the same tokens to come. -/
def Configuration.Alike (c d : Configuration) : Prop :=
  c.stack.map Frame.state = d.stack.map Frame.state ∧ c.rest = d.rest

theorem topState_eq (stack : List Frame) : topState stack = (stack.map Frame.state).head?.elim 0 id := by
  cases stack <;> rfl

namespace Table

variable {t : Table} {c c' d : Configuration} {o : Outcome}

/-! ### Steps go by states and tokens -/

theorem moves_of_alike (h : c.Alike d) (hmoves : t.Moves c c') : ∃ d', t.Moves d d' ∧ c'.Alike d' := by
  obtain ⟨hstates, hrest⟩ := h
  have hstate : c.state = d.state := by
    rw [Configuration.state, Configuration.state, topState_eq, topState_eq, hstates]
  have hlookahead : c.lookahead = d.lookahead := by
    rw [Configuration.lookahead_eq, Configuration.lookahead_eq, hrest]
  rcases moves_iff.1 hmoves with
    ⟨target, token, rest, haction, htoken, rfl⟩ | ⟨name, count, target, haction, hcount, hgoto, rfl⟩
  · rw [hstate, hlookahead] at haction
    refine ⟨_, moves_iff.2 (.inl ⟨target, token, rest, haction, hrest ▸ htoken, rfl⟩), ?_, rfl⟩
    simp [hstates]
  · rw [hstate, hlookahead] at haction
    have hlength : c.stack.length = d.stack.length := by
      simpa using congrArg List.length hstates
    have hdrop : (c.stack.drop count).map Frame.state = (d.stack.drop count).map Frame.state := by
      rw [List.map_drop, List.map_drop, hstates]
    rw [topState_eq, hdrop, ← topState_eq] at hgoto
    refine ⟨_, moves_iff.2 (.inr ⟨name, count, target, haction, hlength ▸ hcount, hgoto, rfl⟩), ?_, hrest⟩
    simp only [List.map_cons, hdrop]

theorem halts_of_alike (h : c.Alike d) (hhalt : t.step c = .halt o) : ∃ o', t.step d = .halt o' := by
  cases hstep : t.step d with
  | halt o' => exact ⟨o', rfl⟩
  | move move d' =>
    obtain ⟨c', hmoves, -⟩ := moves_of_alike ⟨h.1.symm, h.2.symm⟩ ⟨move, hstep⟩
    exact absurd hmoves (not_moves_of_halt hhalt)

/-- The parser halts behind exactly so many moves. -/
def HaltsIn (t : Table) : Nat → Configuration → Prop
  | 0, c => ∃ o, t.step c = .halt o
  | n + 1, c => ∃ c', t.Moves c c' ∧ t.HaltsIn n c'

theorem HaltsIn.of_alike {n : Nat} (hn : t.HaltsIn n c) (h : c.Alike d) : t.HaltsIn n d := by
  induction n generalizing c d with
  | zero =>
    obtain ⟨o, ho⟩ := hn
    exact halts_of_alike h ho
  | succ n ih =>
    obtain ⟨c', hmoves, hc'⟩ := hn
    obtain ⟨d', hmoves', halike⟩ := moves_of_alike h hmoves
    exact ⟨d', hmoves', ih hc' halike⟩

theorem HaltsIn.unique {m n : Nat} (hm : t.HaltsIn m c) (hn : t.HaltsIn n c) : m = n := by
  induction m generalizing c n with
  | zero =>
    obtain ⟨o, ho⟩ := hm
    cases n with
    | zero => rfl
    | succ n =>
      obtain ⟨c', hmoves, -⟩ := hn
      exact absurd hmoves (not_moves_of_halt ho)
  | succ m ih =>
    obtain ⟨c', hmoves, hc'⟩ := hm
    cases n with
    | zero =>
      obtain ⟨o, ho⟩ := hn
      exact absurd hmoves (not_moves_of_halt ho)
    | succ n =>
      obtain ⟨d, hmoves', hd⟩ := hn
      rw [ih hc' (hmoves.unique hmoves' ▸ hd)]

theorem exists_haltsIn (h : t.Reaches c d) (ho : t.step d = .halt o) :
    ∃ n, t.HaltsIn n c ∧ ∀ limit, n < limit → (t.run limit c).outcome = some o := by
  induction h using ReflTransGen.head_induction_on with
  | refl =>
    refine ⟨0, ⟨o, ho⟩, fun limit hlimit => ?_⟩
    obtain ⟨limit, rfl⟩ := Nat.exists_eq_succ_of_ne_zero (Nat.ne_of_gt hlimit)
    rw [run, ho]
  | head hmoves _ ih =>
    obtain ⟨n, hn, hrun⟩ := ih
    refine ⟨n + 1, ⟨_, hmoves, hn⟩, fun limit hlimit => ?_⟩
    obtain ⟨limit, rfl⟩ := Nat.exists_eq_succ_of_ne_zero (Nat.ne_of_gt (Nat.lt_of_le_of_lt (Nat.zero_le _) hlimit))
    obtain ⟨move, hstep⟩ := hmoves
    rw [run, hstep]
    exact hrun limit (by omega)

/-! ### The bound -/

theorem le_width {r : Row} (hr : r ∈ t.rows) : r.gotos.size ≤ t.width := by
  have hmem : r.gotos.size ∈ t.rows.map (·.gotos.size) := List.mem_map_of_mem hr
  rw [width, List.foldl_max_eq_max (List.ne_nil_of_mem hmem)]
  exact Nat.le_trans (List.le_max_of_mem hmem) (Nat.le_max_right _ _)

theorem length_le_width {state : Nat} {targets : List Nat} (hnodup : targets.Nodup)
    (htargets : ∀ s ∈ targets, ∃ name, t.goto? state name = some s) : targets.length ≤ t.width := by
  cases hrow : t.row? state with
  | none =>
    have hnil : targets = [] := by
      apply List.eq_nil_iff_forall_not_mem.2
      intro s hs
      obtain ⟨name, hname⟩ := htargets s hs
      rw [goto?, hrow] at hname
      cases hname
    rw [hnil]
    exact Nat.zero_le _
  | some r =>
    have hsubset : targets ⊆ r.gotos.entries.map Prod.snd := by
      intro s hs
      obtain ⟨name, hname⟩ := htargets s hs
      rw [goto?, hrow] at hname
      exact List.mem_map.2 ⟨(name, s), OrderedMap.get?_eq_some_iff.1 hname, rfl⟩
    have hlength := hnodup.length_le_of_subset hsubset
    rw [List.length_map] at hlength
    exact Nat.le_trans hlength (le_width (List.mem_of_getElem? hrow))

/-- What shifts and reductions of several trees lower. -/
def potential (c : Configuration) : Nat := 2 * (untilEnd c.rest).length + c.stack.length

variable {policy : ConflictPolicy} {g columns : Grammar} {tokens : List Token}

/-- A move lowers the potential, or it reduces the topmost tree by a production whose only symbol is the symbol of that tree. -/
theorem potential_of_moves (hg : g.WellFormed) (ht : build policy (.ofGrammar g) columns = .ok t)
    (hc : c.Sound g tokens) (h : t.Moves c c') : potential c' < potential c ∨
      ∃ p f target tree, p ∈ g.productions ∧ c.stack.head? = some f ∧ p.symbols = [f.tree.symbol]
        ∧ tree.symbol = .nonterminal p.name ∧ t.goto? (topState c.stack.tail) p.name = some target
        ∧ c' = { c with stack := ⟨target, tree⟩ :: c.stack.tail } ∧ potential c' = potential c := by
  rcases moves_cases hg ht hc.supports h with
    ⟨token, rest, target, hrest, hkind, -, rfl⟩ | ⟨p, target, hplaces, hgoto, rfl⟩
  · left
    simp only [potential, hrest, untilEnd_cons hkind, List.length_cons]
    omega
  · have hpositive : 0 < p.size := List.length_pos_iff.2 (hg p hplaces.mem_productions).symbols_ne_nil
    have hcount := size_le_of_final hplaces
    rcases Nat.lt_or_ge 1 p.size with hmany | hone
    · left
      simp only [potential, List.length_cons, List.length_drop]
      omega
    · right
      obtain hsize : p.size = 1 := by omega
      obtain ⟨hchildren, -, -⟩ := children_of_final hplaces
      rw [hsize] at hchildren hcount
      obtain ⟨f, below, hstack⟩ := List.exists_cons_of_length_pos hcount
      rw [hsize, List.drop_one] at hgoto ⊢
      refine ⟨p, f, target, _, hplaces.mem_productions, by rw [hstack]; rfl, ?_, rfl, ?_, rfl, ?_⟩
      · rw [← hchildren, hstack]
        rfl
      · rw [goto?_eq ht]
        exact hgoto
      · simp only [potential, List.length_cons, List.length_tail]
        omega

/-- The moves that are left, and the successors `seen` above one state since the potential was last lowered, stay within the bound. -/
theorem HaltsIn.within_bound (hg : g.WellFormed) (ht : build policy (.ofGrammar g) columns = .ok t) {n : Nat}
    (h : t.HaltsIn n c) (hc : c.Sound g tokens) (seen : List Nat) (hnodup : seen.Nodup)
    (hseen : ∀ s ∈ seen, ∃ name, t.goto? (topState c.stack.tail) name = some s)
    (hlater : ∀ s ∈ seen, ∃ tree m, n ≤ m ∧ t.HaltsIn m { c with stack := ⟨s, tree⟩ :: c.stack.tail }) :
    n + 1 + seen.length ≤ (potential c + 1) * (t.width + 1) := by
  have hwidth := length_le_width hnodup hseen
  induction n generalizing c seen with
  | zero =>
    have hbound : t.width + 1 ≤ (potential c + 1) * (t.width + 1) := Nat.le_mul_of_pos_left _ (Nat.succ_pos _)
    omega
  | succ n ih =>
    obtain ⟨c', hmoves, hn⟩ := h
    have hc' := sound_of_moves hg ht hc hmoves
    rcases potential_of_moves hg ht hc hmoves with hlower | ⟨p, -, target, tree, -, -, -, -, hgoto, rfl, hequal⟩
    · -- the count starts anew
      have hrest := ih hn hc' [] List.nodup_nil (fun s hs => by cases hs) (fun s hs => by cases hs)
        (Nat.zero_le _)
      have hbound : (potential c' + 1 + 1) * (t.width + 1) ≤ (potential c + 1) * (t.width + 1) :=
        Nat.mul_le_mul_right _ (by omega)
      rw [Nat.succ_mul (potential c' + 1)] at hbound
      rw [List.length_nil] at hrest
      omega
    · have hfresh : target ∉ seen := by
        intro hmem
        obtain ⟨other, m, hm, hother⟩ := hlater target hmem
        have halike : Configuration.Alike { c with stack := ⟨target, other⟩ :: c.stack.tail }
          { c with stack := ⟨target, tree⟩ :: c.stack.tail } := ⟨rfl, rfl⟩
        have hequal := (hother.of_alike halike).unique hn
        omega
      have hnodup' : (target :: seen).Nodup := List.nodup_cons.2 ⟨hfresh, hnodup⟩
      have hseen' : ∀ s ∈ target :: seen, ∃ name, t.goto? (topState c.stack.tail) name = some s := by
        intro s hs
        rcases List.mem_cons.1 hs with rfl | hs
        · exact ⟨p.name, hgoto⟩
        · exact hseen s hs
      have hlater' : ∀ s ∈ target :: seen, ∃ tree m, n ≤ m ∧
          t.HaltsIn m { c with stack := ⟨s, tree⟩ :: c.stack.tail } := by
        intro s hs
        rcases List.mem_cons.1 hs with rfl | hs
        · exact ⟨tree, n, Nat.le_refl n, hn⟩
        · obtain ⟨other, m, hm, hother⟩ := hlater s hs
          exact ⟨other, m, by omega, hother⟩
      have hrest := ih hn hc' (target :: seen) hnodup' hseen' hlater' (length_le_width hnodup' hseen')
      rw [List.length_cons, hequal] at hrest
      omega

theorem lt_stepBound (hg : g.WellFormed) (ht : build policy (.ofGrammar g) columns = .ok t) {n : Nat}
    (h : t.HaltsIn n (.start tokens)) : n < t.stepBound tokens :=
  h.within_bound hg ht (sound_start g tokens) [] List.nodup_nil (fun s hs => by cases hs) fun s hs => by cases hs

theorem outcome_parse_iff (hg : g.WellFormed) (ht : build policy (.ofGrammar g) columns = .ok t) :
    (t.parse tokens).outcome = some o ↔ ∃ c, t.Reaches (.start tokens) c ∧ t.step c = .halt o := by
  constructor
  · intro h
    exact ⟨_, reaches_run t _ _, step_of_run h⟩
  · intro h
    obtain ⟨c, hreaches, hhalt⟩ := h
    obtain ⟨n, hn, hrun⟩ := exists_haltsIn hreaches hhalt
    exact hrun _ (lt_stepBound hg ht hn)

theorem last_parse (hg : g.WellFormed) (ht : build policy (.ofGrammar g) columns = .ok t)
    (hreaches : t.Reaches (.start tokens) c) (hhalt : t.step c = .halt o) : (t.parse tokens).last = c := by
  have houtcome := (outcome_parse_iff hg ht).2 ⟨c, hreaches, hhalt⟩
  exact (halt_unique (reaches_run t _ _) (step_of_run houtcome) hreaches hhalt).1

end Table

end CanonicalLR
