import CanonicalLR.Proofs.Automaton.Collection
import CanonicalLR.Proofs.Automaton.Relevance
import CanonicalLR.Proofs.Parser.Errors
import CanonicalLR.Proofs.Table.Conflicts

/-!
# Parsers of grammars with the same relevant productions

The automata are equal, so the tables have the same rows and the same conflicts, or they are refused for the same one. What is left to differ is the columns, and of these a parser sees only the order in which expected terminals are listed: it acts on no terminal outside of them (`mem_terminals_of_action?`), so both lists hold the terminals on which the state acts, each once. Two tables with the same rows make the same moves (`rel_run`), so they end alike or both go on for ever.
-/

namespace CanonicalLR

/-- The same outcome, but for the order in which the expected terminals are listed. -/
inductive Outcome.Similar : Outcome → Outcome → Prop where
  | refl (o : Outcome) : Similar o o
  | unexpectedToken (index : Nat) (kind : String) (location : Option Location) {expected expected' : List String} :
    expected.Perm expected' → Similar (.rejected (.unexpectedToken index kind location expected))
      (.rejected (.unexpectedToken index kind location expected'))
  | unexpectedEnd {expected expected' : List String} : expected.Perm expected' →
    Similar (.rejected (.unexpectedEnd expected)) (.rejected (.unexpectedEnd expected'))

namespace Table

variable {policy : ConflictPolicy} {g h : Grammar} {t u : Table} {source source' : String}

/-! ### The same rows -/

theorem action?_of_rows (hrows : u.rows = t.rows) (state : Nat) (x : Terminal) : u.action? state x = t.action? state x := by
  rw [action?, action?, row?, row?, hrows]

theorem similar_unexpected (c : Configuration) (hexpected : (t.expected c.state).Perm (u.expected c.state)) :
    (Outcome.rejected (c.unexpected t)).Similar (.rejected (c.unexpected u)) := by
  have htexts := hexpected.map Terminal.text
  unfold Configuration.unexpected
  cases c.rest with
  | nil => exact .unexpectedEnd htexts
  | cons token rest =>
    dsimp only
    split
    · exact .unexpectedEnd htexts
    · exact .unexpectedToken _ _ _ htexts

theorem reduce_eq_of_rows (hrows : u.rows = t.rows) (c : Configuration) (name : NonTerminal) (count : Nat) :
    c.reduce u name count = c.reduce t name count := by
  have hgoto (state : Nat) : u.goto? state name = t.goto? state name := by rw [goto?, goto?, row?, row?, hrows]
  simp only [Configuration.reduce, hgoto]

theorem step_of_rows (hrows : u.rows = t.rows) (c : Configuration)
    (hexpected : (t.expected c.state).Perm (u.expected c.state)) :
    u.step c = t.step c ∨ ∃ o o', t.step c = .halt o ∧ u.step c = .halt o' ∧ o.Similar o' := by
  rw [step, step, action?_of_rows hrows]
  cases t.action? c.state c.lookahead with
  | none => exact .inr ⟨_, _, rfl, rfl, similar_unexpected c hexpected⟩
  | some entry =>
    left
    cases entry with
    | reduce name count => exact reduce_eq_of_rows hrows c name count
    | shift target => rfl
    | goto target => rfl
    | accept count => rfl

theorem rel_run (hrows : u.rows = t.rows) (hexpected : ∀ state, (t.expected state).Perm (u.expected state))
    (limit : Nat) (c : Configuration) :
    Option.Rel Outcome.Similar (t.run limit c).outcome (u.run limit c).outcome := by
  induction limit generalizing c with
  | zero => exact .none
  | succ limit ih =>
    rw [run, run]
    rcases step_of_rows hrows c (hexpected c.state) with heq | ⟨o, o', ho, ho', hsimilar⟩
    · rw [heq]
      cases t.step c with
      | halt o => exact .some (.refl o)
      | move move next => exact ih next
    · rw [ho, ho']
      exact .some hsimilar

theorem rel_parse (hrows : u.rows = t.rows) (hexpected : ∀ state, (t.expected state).Perm (u.expected state))
    (tokens : List Token) : Option.Rel Outcome.Similar (t.parse tokens).outcome (u.parse tokens).outcome := by
  have hbound : u.stepBound tokens = t.stepBound tokens := by rw [stepBound, stepBound, width, width, hrows]
  rw [parse, parse, hbound]
  exact rel_run hrows hexpected _ _

/-! ### The columns -/

theorem perm_expected (hg : g.WellFormed) (hh : h.WellFormed) (ht : ofGrammar policy g = .ok t)
    (hu : ofGrammar policy h = .ok u) (hrows : u.rows = t.rows) (state : Nat) :
    (t.expected state).Perm (u.expected state) := by
  have hnodup : (t.expected state).Nodup := expected_eq t state ▸ (nodup_terminals hg ht).filter _
  have hnodup' : (u.expected state).Nodup := expected_eq u state ▸ (nodup_terminals hh hu).filter _
  refine (List.perm_ext_iff_of_nodup hnodup hnodup').2 fun x => ?_
  rw [mem_expected_iff ht, mem_expected_iff hu, action?_of_rows hrows]

/-! ### The same relevant productions -/

theorem build_cases (policy : ConflictPolicy) (a : Automaton) (columns columns' : Grammar) :
    (∃ c : Conflict, build policy a columns = .error c.error ∧ build policy a columns' = .error c.error) ∨
      ∃ t u, build policy a columns = .ok t ∧ build policy a columns' = .ok u ∧ u.rows = t.rows
        ∧ u.conflicts = t.conflicts := by
  obtain ⟨t, hoverwrite, hreject⟩ := build_policies a columns
  obtain ⟨u, hoverwrite', hreject'⟩ := build_policies a columns'
  obtain rfl := Except.ok.inj ((build_columns hoverwrite columns').symm.trans hoverwrite')
  cases policy with
  | overwrite => exact .inr ⟨t, _, hoverwrite, hoverwrite', rfl, rfl⟩
  | reject =>
    rw [hreject, hreject']
    dsimp only
    cases hconflicts : t.conflicts with
    | nil => exact .inr ⟨t, _, rfl, rfl, rfl, hconflicts.symm⟩
    | cons c more => exact .inl ⟨c, rfl, rfl⟩

/-- Only relevant productions matter: the automata are equal, the tables are refused for the same conflict or differ in nothing but their columns, and the parsers end alike. -/
theorem tables_of_sameRelevant (hg : Grammar.ofSource source = .ok g) (hh : Grammar.ofSource source' = .ok h)
    (hgh : g.SameRelevant h) :
    Automaton.ofGrammar h = Automaton.ofGrammar g ∧ ∀ policy,
      (∃ c : Conflict, ofGrammar policy g = .error c.error ∧ ofGrammar policy h = .error c.error) ∨
      ∃ t u, ofGrammar policy g = .ok t ∧ ofGrammar policy h = .ok u ∧ u.rows = t.rows ∧ u.conflicts = t.conflicts
        ∧ ∀ tokens, Option.Rel Outcome.Similar (t.parse tokens).outcome (u.parse tokens).outcome := by
  have hautomaton := Automaton.ofGrammar_eq hgh
  refine ⟨hautomaton, fun policy => ?_⟩
  rcases build_cases policy (.ofGrammar g) g h with hrefused | ⟨t, u, ht, hu, hrows, hconflicts⟩
  · rw [ofGrammar, ofGrammar, hautomaton]
    exact .inl hrefused
  · rw [← hautomaton] at hu
    have hexpected := perm_expected (Grammar.wellFormed_of_ofSource hg) (Grammar.wellFormed_of_ofSource hh) ht hu hrows
    exact .inr ⟨t, u, ht, hu, hrows, hconflicts, rel_parse hrows hexpected⟩

/-- The second text has the productions in another order, some of them twice, and one to which nothing refers. -/
theorem tables_of_sameRelevant_reordered : ∃ g h t u,
    Grammar.ofSource "__root : @a ; a : x ; a : y ;" = .ok g
      ∧ Grammar.ofSource "a : y ; c : z @a ; a : x ; __root : @a ; a : y ;" = .ok h ∧ g.SameRelevant h
      ∧ ofGrammar .reject g = .ok t ∧ ofGrammar .reject h = .ok u ∧ u.rows = t.rows
      ∧ (t.parse []).outcome = some (.rejected (.unexpectedEnd ["x", "y"]))
      ∧ (u.parse []).outcome = some (.rejected (.unexpectedEnd ["y", "x"]))
      ∧ Option.Rel Outcome.Similar (t.parse []).outcome (u.parse []).outcome := by
  obtain ⟨g, t, hg, ht, hproductions, houtcome⟩ := exists_table_of_within .reject 20 "__root : @a ; a : x ; a : y ;"
    (P := fun g t => g.productions
        = [⟨.root, [.nonterminal ⟨"a"⟩]⟩, ⟨⟨"a"⟩, [.terminal ⟨"x"⟩]⟩, ⟨⟨"a"⟩, [.terminal ⟨"y"⟩]⟩]
      ∧ (t.parse []).outcome = some (.rejected (.unexpectedEnd ["x", "y"])))
    (by decide +kernel)
  obtain ⟨h, u, hh, hu, hproductions', houtcome'⟩ := exists_table_of_within .reject 20
    "a : y ; c : z @a ; a : x ; __root : @a ; a : y ;"
    (P := fun h u => h.productions
        = [⟨⟨"a"⟩, [.terminal ⟨"y"⟩]⟩, ⟨⟨"c"⟩, [.terminal ⟨"z"⟩, .nonterminal ⟨"a"⟩]⟩, ⟨⟨"a"⟩, [.terminal ⟨"x"⟩]⟩,
          ⟨.root, [.nonterminal ⟨"a"⟩]⟩]
      ∧ (u.parse []).outcome = some (.rejected (.unexpectedEnd ["y", "x"])))
    (by decide +kernel)
  have hroot : ⟨.root, [.nonterminal ⟨"a"⟩]⟩ = g.root := g.root_unique _ (by simp [hproductions]) rfl
  have hroot' : ⟨.root, [.nonterminal ⟨"a"⟩]⟩ = h.root := h.root_unique _ (by simp [hproductions']) rfl
  have hsame : g.SameRelevant h := by
    refine .of_closed g.productions g.root_mem (hroot'.symm.trans hroot) (fun p hp q => ?_)
      fun p _ q hq => (Grammar.mem_referred.1 hq).1
    rw [Grammar.mem_referred, Grammar.mem_referred, hproductions']
    rw [hproductions] at hp ⊢
    simp only [List.mem_cons, List.not_mem_nil, or_false] at hp
    rcases hp with rfl | rfl | rfl
    · grind [NonTerminal.root]
    · simp
    · simp
  obtain ⟨-, htables⟩ := tables_of_sameRelevant hg hh hsame
  rcases htables .reject with ⟨c, hrefused, -⟩ | ⟨t', u', ht', hu', hrows, -, hsimilar⟩
  · cases ht.symm.trans hrefused
  · obtain rfl := Except.ok.inj (ht.symm.trans ht')
    obtain rfl := Except.ok.inj (hu.symm.trans hu')
    exact ⟨g, h, t, u, hg, hh, hsame, ht, hu, hrows, houtcome, houtcome', hsimilar []⟩

end Table

end CanonicalLR
