import CanonicalLR.Proofs.Parser.Safety

/-!
# Unit productions

A reduction of a single tree neither reads a token nor makes the stack shorter, so a parser may go on for ever with such reductions. The production of each has the symbol of the tree on top for its only symbol, because the path that the stack spells ends in it. If no nonterminal leads back to itself by unit productions, the nonterminal on top therefore has fewer and fewer others above it (`unitHeight_lt`). Together with the potential of the stack and the input this lowers a weight in every move (`weight_of_moves`), which bounds the length of every run by the number of tokens and nonterminals, whatever the policy of the table.
-/

namespace CanonicalLR

open Relation

namespace Grammar

variable {g : Grammar} {p : Production} {x : Symbol}

/-- A production of `m` has `n` for its only symbol. -/
def UnitStep (g : Grammar) (m n : NonTerminal) : Prop := ⟨m, [.nonterminal n]⟩ ∈ g.productions

/-- No nonterminal leads to itself by unit productions. -/
def UnitAcyclic (g : Grammar) : Prop := ∀ n, ¬ TransGen g.UnitStep n n

theorem unitAcyclic_of_rank (rank : NonTerminal → Nat) (h : ∀ m n, g.UnitStep m n → rank n < rank m) :
    g.UnitAcyclic := by
  have hchain {m n : NonTerminal} (hmn : TransGen g.UnitStep m n) : rank n < rank m := by
    induction hmn with
    | single hstep => exact h _ _ hstep
    | tail _ hstep ih => exact Nat.lt_trans (h _ _ hstep) ih
  exact fun n hn => Nat.lt_irrefl _ (hchain hn)

open Classical in
/-- The nonterminals that lead to `n` by unit productions. -/
noncomputable def unitAncestors (g : Grammar) (n : NonTerminal) : List NonTerminal :=
  g.nonTerminals.filter fun m => TransGen g.UnitStep m n

/-- How many nonterminals a tree of the symbol can still become by reductions of a single tree. -/
noncomputable def unitHeight (g : Grammar) : Symbol → Nat
  | .terminal _ => g.nonTerminals.length
  | .nonterminal n => (g.unitAncestors n).length

theorem mem_unitAncestors {m n : NonTerminal} :
    m ∈ g.unitAncestors n ↔ m ∈ g.nonTerminals ∧ TransGen g.UnitStep m n := by
  simp [unitAncestors]

theorem unitHeight_le (x : Symbol) : g.unitHeight x ≤ g.nonTerminals.length := by
  cases x with
  | terminal t => exact Nat.le_refl _
  | nonterminal n => exact List.length_filter_le _ _

theorem unitHeight_lt (hunits : g.UnitAcyclic) (hp : p ∈ g.productions) (hsymbols : p.symbols = [x]) :
    g.unitHeight (.nonterminal p.name) < g.unitHeight x := by
  have hname : p.name ∈ g.nonTerminals := mem_nonTerminals.2 ⟨p, hp, rfl⟩
  have hfresh : p.name ∉ g.unitAncestors p.name := fun hmem => hunits _ (mem_unitAncestors.1 hmem).2
  have hnodup : (p.name :: g.unitAncestors p.name).Nodup :=
    List.nodup_cons.2 ⟨hfresh, (nodup_distinct _).filter _⟩
  cases x with
  | terminal t =>
    have hsub : p.name :: g.unitAncestors p.name ⊆ g.nonTerminals :=
      List.cons_subset.2 ⟨hname, fun m hm => (mem_unitAncestors.1 hm).1⟩
    exact hnodup.length_le_of_subset hsub
  | nonterminal n =>
    have hstep : g.UnitStep p.name n := by
      rw [UnitStep, ← hsymbols]
      exact hp
    have hsub : p.name :: g.unitAncestors p.name ⊆ g.unitAncestors n := by
      refine List.cons_subset.2 ⟨mem_unitAncestors.2 ⟨hname, .single hstep⟩, fun m hm => ?_⟩
      obtain ⟨hm, hchain⟩ := mem_unitAncestors.1 hm
      exact mem_unitAncestors.2 ⟨hm, hchain.tail hstep⟩
    exact hnodup.length_le_of_subset hsub

end Grammar

namespace Table

variable {policy : ConflictPolicy} {g columns : Grammar} {t : Table} {tokens : List Token} {c c' : Configuration}
  {source : String}

/-- What every move lowers: first the potential, and where it stays the same the height of the symbol on top. -/
noncomputable def weight (g : Grammar) (c : Configuration) : Nat :=
  potential c * (g.nonTerminals.length + 1) + c.stack.head?.elim 0 fun f => g.unitHeight f.tree.symbol

theorem weight_of_moves (hg : g.WellFormed) (hunits : g.UnitAcyclic)
    (ht : build policy (.ofGrammar g) columns = .ok t) (hc : c.Sound g tokens) (h : t.Moves c c') :
    weight g c' < weight g c := by
  rcases potential_of_moves hg ht hc h with
    hlower | ⟨p, f, target, tree, hp, hf, hsymbols, hsymbol, -, rfl, hequal⟩
  · have hheight : (c'.stack.head?.elim 0 fun f => g.unitHeight f.tree.symbol) ≤ g.nonTerminals.length := by
      cases c'.stack.head? with
      | none => exact Nat.zero_le _
      | some f => exact Grammar.unitHeight_le _
    have hbound : (potential c' + 1) * (g.nonTerminals.length + 1) ≤ potential c * (g.nonTerminals.length + 1) :=
      Nat.mul_le_mul_right _ hlower
    rw [Nat.succ_mul] at hbound
    rw [weight, weight]
    omega
  · have hheight := Grammar.unitHeight_lt hunits hp hsymbols
    rw [weight, weight, hequal, hf]
    simp only [List.head?_cons, Option.elim_some, hsymbol]
    omega

/-- The parser halts within as many moves as the weight says. -/
theorem haltsIn_of_unitAcyclic (hg : g.WellFormed) (hunits : g.UnitAcyclic)
    (ht : build policy (.ofGrammar g) columns = .ok t) (hc : c.Sound g tokens) :
    ∃ n ≤ weight g c, t.HaltsIn n c := by
  induction hweight : weight g c using Nat.strongRecOn generalizing c with
  | ind bound ih =>
    subst hweight
    cases hstep : t.step c with
    | halt o => exact ⟨0, Nat.zero_le _, o, hstep⟩
    | move move next =>
      have hmoves : t.Moves c next := ⟨move, hstep⟩
      have hlower := weight_of_moves hg hunits ht hc hmoves
      obtain ⟨n, hn, hhalts⟩ := ih _ hlower (sound_of_moves hg ht hc hmoves) rfl
      exact ⟨n + 1, by omega, next, hmoves, hhalts⟩

theorem HaltsIn.exists_outcome {n limit : Nat} (h : t.HaltsIn n c) (hlimit : n < limit) :
    ∃ o, (t.run limit c).outcome = some o := by
  obtain ⟨limit, rfl⟩ := Nat.exists_eq_succ_of_ne_zero (Nat.ne_of_gt (Nat.lt_of_le_of_lt (Nat.zero_le _) hlimit))
  induction n generalizing c limit with
  | zero =>
    obtain ⟨o, ho⟩ := h
    exact ⟨o, by rw [run, ho]⟩
  | succ n ih =>
    obtain ⟨next, ⟨move, hstep⟩, hnext⟩ := h
    obtain ⟨limit, rfl⟩ := Nat.exists_eq_succ_of_ne_zero (n := limit) (by omega)
    rw [run, hstep]
    exact ih hnext limit (by omega)

theorem weight_start (g : Grammar) (tokens : List Token) :
    weight g (.start tokens) = 2 * (untilEnd tokens).length * (g.nonTerminals.length + 1) := rfl

/-- Where unit productions do not go round, every run ends, within a number of iterations that the tokens and the nonterminals bound. -/
theorem ends_of_unitAcyclic (hg : Grammar.ofSource source = .ok g) (hunits : g.UnitAcyclic)
    (ht : ofGrammar policy g = .ok t) (tokens : List Token) : ∃ o,
      (t.run ((2 * (untilEnd tokens).length + 1) * (g.nonTerminals.length + 1)) (.start tokens)).outcome = some o
      ∧ (t.parse tokens).outcome = some o ∧ ((∃ tree, o = .accepted tree) ∨ ∃ e, o = .rejected e) := by
  have hwell := Grammar.wellFormed_of_ofSource hg
  obtain ⟨n, hn, hhalts⟩ := haltsIn_of_unitAcyclic hwell hunits ht (sound_start g tokens)
  have hlimit : n < (2 * (untilEnd tokens).length + 1) * (g.nonTerminals.length + 1) := by
    rw [weight_start] at hn
    rw [Nat.succ_mul]
    omega
  obtain ⟨o, ho⟩ := hhalts.exists_outcome hlimit
  have hreaches := reaches_run t ((2 * (untilEnd tokens).length + 1) * (g.nonTerminals.length + 1)) (.start tokens)
  have hhalt := step_of_run ho
  refine ⟨o, ho, (outcome_parse_iff hwell ht).2 ⟨_, hreaches, hhalt⟩, ?_⟩
  exact (step_halts hwell ht (sound_of_reaches hwell ht hreaches).supports hhalt).imp_right fun heq => ⟨_, heq⟩

/-- Two unit productions in a row, in a table where one of two reductions has been overwritten. -/
theorem ends_of_unitAcyclic_sum : ∃ g t o,
    Grammar.ofSource "__root : @sum ; sum : @sum plus @sum ; sum : @atom ; atom : id ;" = .ok g
      ∧ g.UnitAcyclic ∧ g.nonTerminals.length = 3 ∧ ofGrammar .overwrite g = .ok t ∧ t.conflicts ≠ []
      ∧ (t.run 28 (.start [.plain "id", .plain "plus", .plain "id"])).outcome = some o
      ∧ (t.parse [.plain "id", .plain "plus", .plain "id"]).outcome = some o
      ∧ ((∃ tree, o = .accepted tree) ∨ ∃ e, o = .rejected e) := by
  obtain ⟨g, t, hg, ht, hproductions, hlength, hconflicts⟩ := exists_table_of_within .overwrite 20
    "__root : @sum ; sum : @sum plus @sum ; sum : @atom ; atom : id ;"
    (P := fun g t => g.productions = [⟨.root, [.nonterminal ⟨"sum"⟩]⟩,
        ⟨⟨"sum"⟩, [.nonterminal ⟨"sum"⟩, .terminal ⟨"plus"⟩, .nonterminal ⟨"sum"⟩]⟩,
        ⟨⟨"sum"⟩, [.nonterminal ⟨"atom"⟩]⟩, ⟨⟨"atom"⟩, [.terminal ⟨"id"⟩]⟩]
      ∧ g.nonTerminals.length = 3 ∧ t.conflicts ≠ [])
    (by decide +kernel)
  have hunits : g.UnitAcyclic := by
    refine Grammar.unitAcyclic_of_rank (fun n => if n = .root then 2 else if n = ⟨"sum"⟩ then 1 else 0) ?_
    intro m n hstep
    simp only [Grammar.UnitStep, hproductions, List.mem_cons, Production.mk.injEq, List.cons.injEq,
      Symbol.nonterminal.injEq, List.not_mem_nil, or_false] at hstep
    rcases hstep with ⟨rfl, rfl, -⟩ | ⟨-, -, hfalse⟩ | ⟨rfl, rfl, -⟩ | ⟨-, hfalse, -⟩
    · decide
    · exact absurd hfalse.symm (List.cons_ne_nil _ _)
    · decide
    · cases hfalse
  obtain ⟨o, hrun, hparse, houtcome⟩ :=
    ends_of_unitAcyclic hg hunits ht [.plain "id", .plain "plus", .plain "id"]
  rw [hlength] at hrun
  exact ⟨g, t, o, hg, hunits, hlength, ht, hconflicts, hrun, hparse, houtcome⟩

end Table

end CanonicalLR
