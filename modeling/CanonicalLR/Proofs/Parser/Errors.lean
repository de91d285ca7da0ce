import CanonicalLR.Proofs.Parser.Prefixes
import CanonicalLR.Proofs.Table.Columns

/-!
# Errors

A parser that finds no action tells what it might have read instead. In a productive grammar whose table has no conflict this is exact: the tokens before the error begin a sentence, with the next one they do not, and the terminals listed are those that sentences go on with. That nothing is listed in vain holds of every state that is reached, because items let only such terminals come next. For the rest two facts are needed. A token that a sentence goes on with is shifted (`moves_of_sentence`), so the parser stops at the first one that no sentence goes on with. And it stops there without having reduced on that token, so other tokens would have led to the same state (`reaches_of_stopped`), which therefore acts on all that a sentence goes on with.
-/

namespace CanonicalLR

open Relation

/-- The tokens that the trees on a stack are made of. -/
def stackLeaves (stack : List Frame) : List Token := (stackTrees stack).flatMap Tree.leaves

theorem stackLeaves_shift (target : Nat) (token : Token) (stack : List Frame) :
    stackLeaves (⟨target, .leaf token⟩ :: stack) = stackLeaves stack ++ [token] := by
  simp [stackLeaves]

theorem stackLeaves_reduce (target : Nat) (name : NonTerminal) (stack : List Frame) (count : Nat) :
    stackLeaves (⟨target, .node name (topTrees stack count)⟩ :: stack.drop count) = stackLeaves stack := by
  rw [stackLeaves, stackLeaves, stackTrees_eq_append stack count]
  simp

/-- The terminals of the tokens that have been read. -/
def Configuration.read (c : Configuration) : List Terminal := (stackLeaves c.stack).map Token.terminal

namespace Grammar

open Classical in
/-- What sentences go on with behind the terminals: the terminals in their order, and last the end of input. -/
noncomputable def continuations (g : Grammar) (w : List Terminal) : List Terminal :=
  g.terminals.filter (fun x => g.Viable (w ++ [x])) ++ if g.Sentence w then [.endMarker] else []

end Grammar

namespace Table

variable {policy : ConflictPolicy} {g columns : Grammar} {t : Table} {tokens : List Token}
  {c c' : Configuration} {source : String}

/-! ### Reading -/

/-- What has been read and what is still to come are the input, and the index counts what has been read. -/
theorem stackLeaves_append_rest (h : t.Reaches (.start tokens) c) :
    stackLeaves c.stack ++ c.rest = tokens ∧ c.index = (stackLeaves c.stack).length := by
  induction h with
  | refl => exact ⟨rfl, rfl⟩
  | tail _ hmoves ih =>
    obtain ⟨happend, hindex⟩ := ih
    rcases moves_iff.1 hmoves with ⟨target, token, rest, -, hrest, rfl⟩ | ⟨name, count, target, -, -, -, rfl⟩
    · rw [hrest] at happend
      rw [stackLeaves_shift, List.append_assoc, List.length_append, ← hindex]
      exact ⟨happend, rfl⟩
    · rw [stackLeaves_reduce]
      exact ⟨happend, hindex⟩

theorem rest_suffix (h : t.Reaches c c') : c'.rest <:+ c.rest := by
  induction h with
  | refl => exact List.suffix_refl _
  | tail _ hmoves ih =>
    rcases moves_iff.1 hmoves with ⟨target, token, rest, -, hrest, rfl⟩ | ⟨name, count, target, -, -, -, rfl⟩
    · exact ((List.suffix_cons token rest).trans (hrest ▸ List.suffix_refl _)).trans ih
    · exact ih

/-- A shift does not look at the tokens behind the one it reads. -/
theorem moves_shift_any {target : Nat} {token : Token} {more : List Token}
    (haction : t.action? c.state c.lookahead = some (.shift target)) (htoken : c.rest = token :: more)
    (rest : List Token) :
    t.Moves { c with rest := token :: rest } ⟨⟨target, .leaf token⟩ :: c.stack, rest, c.index + 1⟩ := by
  rw [Configuration.lookahead_eq, htoken, nextTerminal_cons] at haction
  exact moves_iff.2 (.inl ⟨target, token, rest, haction, rfl, rfl⟩)

/-- Behind the next terminal the tokens to come might have been other ones. -/
theorem reaches_of_nextTerminal (h : t.Reaches (.start tokens) c) {rest : List Token}
    (hrest : nextTerminal rest = nextTerminal c.rest) :
    t.Reaches (.start (stackLeaves c.stack ++ rest)) { c with rest } := by
  induction h generalizing rest with
  | refl => exact .refl
  | tail _ hmoves ih =>
    rcases moves_iff.1 hmoves with
      ⟨target, token, more, haction, htoken, rfl⟩ | ⟨name, count, target, haction, hcount, hgoto, rfl⟩
    · have hnext : nextTerminal (token :: rest) = nextTerminal (token :: more) := rfl
      rw [← htoken] at hnext
      rw [stackLeaves_shift, List.append_assoc]
      exact (ih hnext).tail (moves_shift_any haction htoken rest)
    · rw [stackLeaves_reduce]
      rw [Configuration.lookahead_eq, ← hrest] at haction
      exact (ih hrest).tail (moves_iff.2 (.inr ⟨name, count, target, haction, hcount, hgoto, rfl⟩))

/-! ### What a state acts on -/

theorem derives_read (hc : c.Sound g tokens) : g.Derives (stackSymbols c.stack) (c.read.map .terminal) := by
  have hderives := Grammar.Admits.derives_all hc.admits
  rw [map_symbol_stackTrees, Token.map_symbol] at hderives
  exact hderives

theorem isSome_action?_iff_permits (ht : build policy (.ofGrammar g) columns = .ok t)
    {stack : List Frame} (hstack : (Automaton.ofGrammar g).Supports stack) {x : Terminal} :
    (t.action? (topState stack) x).isSome ↔ ∃ i, g.Places (stackSymbols stack) i ∧ g.Permits i x := by
  rw [Grammar.exists_permits_iff]
  exact isSome_action?_iff ht hstack.walk?

theorem awaits_of_action? (hg : g.WellFormed) (hproductive : g.Productive)
    (ht : build policy (.ofGrammar g) columns = .ok t) (hc : c.Sound g tokens) {x : Terminal}
    (h : (t.action? c.state x).isSome) : g.Awaits c.read x := by
  obtain ⟨i, hi, hpermits⟩ := (isSome_action?_iff_permits ht hc.supports).1 h
  exact hi.awaits hg hproductive hpermits (derives_read hc)

theorem viable_read (hg : g.WellFormed) (hproductive : g.Productive) (hc : c.Sound g tokens) :
    g.Viable c.read := by
  obtain ⟨i, hi⟩ := Automaton.exists_places_of_walk? hc.supports.walk?
  obtain ⟨x, hx⟩ := Grammar.exists_permits fun y hy => (hproductive.generates hi.mem_productions y hy).exists_starts hg
  exact (hi.awaits hg hproductive hx (derives_read hc)).viable

theorem moves_of_sentence (hg : g.WellFormed) (ht : build policy (.ofGrammar g) columns = .ok t)
    (hconflicts : t.conflicts = []) {read more : List Token} {token : Token}
    (h : g.Sentence ((read ++ token :: more).map Token.terminal)) (rest : List Token) :
    ∃ d d', t.Reaches (.start (read ++ token :: rest)) d ∧ t.Moves d d' ∧ d'.rest = rest := by
  have hkind : nextTerminal (token :: rest) ≠ .endMarker := h.ne_endMarker hg (by simp [Token.terminal, nextTerminal_cons])
  obtain ⟨ts, i, hts, rfl, hi, hcurrent⟩ := h.expects
  rw [List.nil_append] at hi
  have hpermits : g.Permits i (nextTerminal (token :: rest)) := by
    rw [Grammar.Permits, hcurrent]
    exact .terminal _
  obtain ⟨d, hreaches, htrees, hrest⟩ :=
    reaches_of_places hg ht hconflicts hts hi hpermits fun hend => absurd hend hkind
  obtain ⟨d', hmoves, -, hrest'⟩ :=
    moves_shift ht hconflicts (sound_of_reaches hg ht hreaches) (htrees ▸ hi) hcurrent hrest
  exact ⟨d, d', hreaches, hmoves, hrest'⟩

theorem step_of_action?_eq_none (h : t.action? c.state c.lookahead = none) :
    t.step c = .halt (.rejected (c.unexpected t)) := by
  rw [step, h]

/-- At the end of input the parser stops only where no sentence ends, for sentences are accepted. -/
theorem not_sentence_of_action?_eq_none (hg : g.WellFormed) (ht : build policy (.ofGrammar g) columns = .ok t)
    (hconflicts : t.conflicts = []) (hreaches : t.Reaches (.start tokens) c)
    (hnone : t.action? c.state c.lookahead = none) (hend : c.lookahead = .endMarker) : ¬ g.Sentence c.read := by
  intro h
  have hleaves := (sound_of_reaches hg ht hreaches).leaves
  rw [untilEnd_eq_nil_iff.2 hend, List.append_nil] at hleaves
  rw [Configuration.read, stackLeaves, hleaves, Grammar.sentence_map_terminal] at h
  obtain ⟨u, hu, huleaves⟩ := Grammar.derives_root_iff.1 h
  obtain ⟨-, children, haccepted, -⟩ := exists_accepted_of_isDerivation hg ht hconflicts hu huleaves
  have hrejected := (outcome_parse_iff hg ht).2 ⟨c, hreaches, step_of_action?_eq_none hnone⟩
  cases haccepted.symm.trans hrejected

/-- Before a token the parser stops only where no sentence goes on with it, for such a token is shifted. -/
theorem not_viable_of_action?_eq_none (hg : g.WellFormed) (ht : build policy (.ofGrammar g) columns = .ok t)
    (hconflicts : t.conflicts = []) (hreaches : t.Reaches (.start tokens) c)
    (hnone : t.action? c.state c.lookahead = none) (hend : c.lookahead ≠ .endMarker) :
    ¬ g.Viable (c.read ++ [c.lookahead]) := by
  intro h
  obtain ⟨more, hmore⟩ := h
  obtain ⟨token, rest, hrest, -⟩ := exists_cons_of_nextTerminal hend
  obtain ⟨vs, rfl⟩ := Token.exists_map_terminal more
  have hsentence : g.Sentence ((stackLeaves c.stack ++ token :: vs).map Token.terminal) := by
    rw [Configuration.lookahead_eq, hrest, List.append_assoc] at hmore
    rw [List.map_append]
    exact hmore
  obtain ⟨d, d', hd, hmoves, hd'⟩ := moves_of_sentence hg ht hconflicts hsentence rest
  rw [← hrest, (stackLeaves_append_rest hreaches).1] at hd
  -- the run goes on to where the parser stops, with a token less
  have hsuffix := rest_suffix (reaches_of_halt hreaches (step_of_action?_eq_none hnone) (hd.tail hmoves))
  rw [hd', hrest] at hsuffix
  have hlength := hsuffix.length_le
  rw [List.length_cons] at hlength
  omega

theorem not_awaits_of_action?_eq_none (hg : g.WellFormed) (ht : build policy (.ofGrammar g) columns = .ok t)
    (hconflicts : t.conflicts = []) (hreaches : t.Reaches (.start tokens) c)
    (hnone : t.action? c.state c.lookahead = none) : ¬ g.Awaits c.read c.lookahead := by
  by_cases hend : c.lookahead = .endMarker
  · have hnot := not_sentence_of_action?_eq_none hg ht hconflicts hreaches hnone hend
    rwa [hend, Grammar.awaits_endMarker_iff hg]
  · have hnot := not_viable_of_action?_eq_none hg ht hconflicts hreaches hnone hend
    rwa [Grammar.awaits_iff_viable hend]

/-- No reduction was made before an error, so other tokens would have led there. -/
theorem reaches_of_stopped (hg : g.WellFormed) (hproductive : g.Productive)
    (ht : build policy (.ofGrammar g) columns = .ok t) (hconflicts : t.conflicts = [])
    (hreaches : t.Reaches (.start tokens) c) (hnone : t.action? c.state c.lookahead = none) (rest : List Token) :
    t.Reaches (.start (stackLeaves c.stack ++ rest)) { c with rest } := by
  have hnot := not_awaits_of_action?_eq_none hg ht hconflicts hreaches hnone
  rcases hreaches.cases_tail with rfl | ⟨d, hd, hmoves⟩
  · exact .refl
  rcases moves_iff.1 hmoves with
    ⟨target, token, more, haction, htoken, rfl⟩ | ⟨name, count, target, haction, -, -, rfl⟩
  · have hnext : nextTerminal (token :: rest) = nextTerminal (token :: more) := rfl
    rw [← htoken] at hnext
    rw [stackLeaves_shift, List.append_assoc]
    exact (reaches_of_nextTerminal hd hnext).tail (moves_shift_any haction htoken rest)
  · have hawaits := awaits_of_action? hg hproductive ht (sound_of_reaches hg ht hd) (x := d.lookahead) (by
      rw [haction]
      rfl)
    rw [Configuration.read, ← stackLeaves_reduce target name d.stack count] at hawaits
    exact absurd hawaits hnot

theorem isSome_action?_iff_awaits (hg : g.WellFormed) (hproductive : g.Productive)
    (ht : build policy (.ofGrammar g) columns = .ok t) (hconflicts : t.conflicts = [])
    (hreaches : t.Reaches (.start tokens) c) (hnone : t.action? c.state c.lookahead = none) (x : Terminal) :
    (t.action? c.state x).isSome ↔ g.Awaits c.read x := by
  constructor
  · exact awaits_of_action? hg hproductive ht (sound_of_reaches hg ht hreaches)
  · intro hawaits
    by_contra hnot
    have hnone' : t.action? c.state x = none := Option.not_isSome_iff_eq_none.1 hnot
    have hreaches' := reaches_of_stopped hg hproductive ht hconflicts hreaches hnone [.plain x.name]
    exact not_awaits_of_action?_eq_none hg ht hconflicts hreaches' hnone' hawaits

/-! ### What is expected -/

theorem expected_eq_continuations (hg : g.WellFormed) (hproductive : g.Productive)
    (ht : build policy (.ofGrammar g) g = .ok t) (hconflicts : t.conflicts = [])
    (hreaches : t.Reaches (.start tokens) c) (hnone : t.action? c.state c.lookahead = none) :
    t.expected c.state = g.continuations c.read := by
  classical
  have hacts := isSome_action?_iff_awaits hg hproductive ht hconflicts hreaches hnone
  rw [expected_eq, terminals_of_build ht, List.filter_append, Grammar.continuations]
  congr 1
  · refine List.filter_congr fun x hx => ?_
    have hne : x ≠ .endMarker := fun hend => Grammar.endMarker_not_mem_terminals hg (hend ▸ hx)
    rw [Bool.eq_iff_iff, hacts, Grammar.awaits_iff_viable hne, decide_eq_true_iff]
  · rw [List.filter_singleton, Bool.cond_eq_ite]
    refine if_congr ?_ rfl rfl
    rw [hacts, Grammar.awaits_endMarker_iff hg]

/-! ### Errors of the parser -/

theorem unexpected_eq (c : Configuration) (t : Table) :
    (∃ token rest, c.rest = token :: rest ∧ token.kind ≠ "" ∧ c.unexpected t
      = .unexpectedToken c.index token.kind token.location ((t.expected c.state).map Terminal.text)) ∨
    c.lookahead = .endMarker ∧ c.unexpected t = .unexpectedEnd ((t.expected c.state).map Terminal.text) := by
  unfold Configuration.unexpected
  rw [Configuration.lookahead_eq]
  cases c.rest with
  | nil => exact .inr ⟨rfl, rfl⟩
  | cons token rest =>
    by_cases hkind : token.kind = ""
    · right
      simp [nextTerminal_cons, hkind, Terminal.endMarker]
    · left
      exact ⟨token, rest, rfl, hkind, by simp [hkind]⟩

theorem exists_stopped_of_rejected (hg : g.WellFormed) (ht : build policy (.ofGrammar g) columns = .ok t)
    {e : SyntaxError} (h : (t.parse tokens).outcome = some (.rejected e))
    (he : ∀ state name, e ≠ .missingGoto state name) :
    ∃ c, t.Reaches (.start tokens) c ∧ t.action? c.state c.lookahead = none ∧ e = c.unexpected t := by
  obtain ⟨c, hreaches, hhalt⟩ := (outcome_parse_iff hg ht).1 h
  cases halts_of_step hhalt with
  | unexpected hnone => exact ⟨c, hreaches, hnone, rfl⟩
  | missingGoto _ _ => exact absurd rfl (he _ _)

theorem exact_of_unexpectedToken (hg : g.WellFormed) (hproductive : g.Productive)
    (ht : build policy (.ofGrammar g) g = .ok t) (hconflicts : t.conflicts = []) {index : Nat} {kind : String}
    {location : Option Location} {expected : List String}
    (h : (t.parse tokens).outcome = some (.rejected (.unexpectedToken index kind location expected))) :
    (∃ token, tokens[index]? = some token ∧ token.kind = kind ∧ token.location = location) ∧
    g.Viable ((tokens.take index).map Token.terminal) ∧
    ¬ g.Viable ((tokens.take (index + 1)).map Token.terminal) ∧
    expected = (g.continuations ((tokens.take index).map Token.terminal)).map Terminal.text := by
  obtain ⟨c, hreaches, hnone, hunexpected⟩ := exists_stopped_of_rejected hg ht h fun _ _ => nofun
  rcases unexpected_eq c t with ⟨token, rest, hrest, hkind, heq⟩ | ⟨-, heq⟩
  · obtain ⟨rfl, rfl, rfl, rfl⟩ := SyntaxError.unexpectedToken.inj (hunexpected.trans heq)
    obtain ⟨happend, hindex⟩ := stackLeaves_append_rest hreaches
    rw [hrest] at happend
    have htake : tokens.take c.index = stackLeaves c.stack := by
      rw [← happend, hindex, List.take_left]
    have htoken : tokens[c.index]? = some token := by
      rw [← happend, hindex, List.getElem?_append_right (Nat.le_refl _), Nat.sub_self]
      rfl
    have hne : c.lookahead ≠ .endMarker := by
      rw [Configuration.lookahead_eq, hrest]
      exact fun hend => hkind (congrArg Terminal.name hend)
    have hnot := not_viable_of_action?_eq_none hg ht hconflicts hreaches hnone hne
    rw [Configuration.lookahead_eq, hrest] at hnot
    rw [List.take_add_one, htoken, htake]
    refine ⟨⟨token, rfl, rfl, rfl⟩, viable_read hg hproductive (sound_of_reaches hg ht hreaches), ?_, ?_⟩
    · rw [List.map_append]
      exact hnot
    · rw [expected_eq_continuations hg hproductive ht hconflicts hreaches hnone]
      rfl
  · cases hunexpected.trans heq

theorem exact_of_unexpectedEnd (hg : g.WellFormed) (hproductive : g.Productive)
    (ht : build policy (.ofGrammar g) g = .ok t) (hconflicts : t.conflicts = []) {expected : List String}
    (h : (t.parse tokens).outcome = some (.rejected (.unexpectedEnd expected))) :
    g.Viable ((untilEnd tokens).map Token.terminal) ∧ ¬ g.Sentence ((untilEnd tokens).map Token.terminal) ∧
    expected = (g.continuations ((untilEnd tokens).map Token.terminal)).map Terminal.text := by
  obtain ⟨c, hreaches, hnone, hunexpected⟩ := exists_stopped_of_rejected hg ht h fun _ _ => nofun
  rcases unexpected_eq c t with ⟨token, rest, -, -, heq⟩ | ⟨hend, heq⟩
  · cases hunexpected.trans heq
  · obtain rfl := SyntaxError.unexpectedEnd.inj (hunexpected.trans heq)
    have hsound := sound_of_reaches hg ht hreaches
    have hleaves := hsound.leaves
    rw [untilEnd_eq_nil_iff.2 hend, List.append_nil] at hleaves
    have hnot := not_sentence_of_action?_eq_none hg ht hconflicts hreaches hnone hend
    rw [← hleaves, expected_eq_continuations hg hproductive ht hconflicts hreaches hnone]
    exact ⟨viable_read hg hproductive hsound, hnot, rfl⟩

/-- The error is at the first token that no sentence goes on with, and it lists what sentences go on with there. -/
theorem continuations_of_rejected (hg : Grammar.ofSource source = .ok g) (hproductive : g.Productive)
    (ht : ofGrammar policy g = .ok t) (hconflicts : t.conflicts = []) (tokens : List Token) :
    (∀ index kind location expected,
      (t.parse tokens).outcome = some (.rejected (.unexpectedToken index kind location expected)) →
      (∃ token, tokens[index]? = some token ∧ token.kind = kind ∧ token.location = location) ∧
      g.Viable ((tokens.take index).map Token.terminal) ∧
      ¬ g.Viable ((tokens.take (index + 1)).map Token.terminal) ∧
      expected = (g.continuations ((tokens.take index).map Token.terminal)).map Terminal.text) ∧
    (∀ expected, (t.parse tokens).outcome = some (.rejected (.unexpectedEnd expected)) →
      g.Viable ((untilEnd tokens).map Token.terminal) ∧ ¬ g.Sentence ((untilEnd tokens).map Token.terminal) ∧
      expected = (g.continuations ((untilEnd tokens).map Token.terminal)).map Terminal.text) ∧
    t.terminals = g.terminals ++ [.endMarker] ∧
    ∀ w x, g.Viable (w ++ [x]) → x ∈ g.terminals := by
  have hwell := Grammar.wellFormed_of_ofSource hg
  refine ⟨fun index kind location expected => ?_, fun expected => ?_, terminals_of_build ht, fun w x h => ?_⟩
  · exact exact_of_unexpectedToken hwell hproductive ht hconflicts
  · exact exact_of_unexpectedEnd hwell hproductive ht hconflicts
  · obtain ⟨more, hmore⟩ := h
    exact hmore.mem_terminals (by simp)

/-- Behind `x` a sentence goes on with `x` or with `y`, and it does not end. -/
theorem continuations_of_rejected_recursive : ∃ g t,
    Grammar.ofSource "__root : @a ; a : x @__root ; a : y ;" = .ok g ∧ ofGrammar .reject g = .ok t
      ∧ g.Productive ∧ t.conflicts = []
      ∧ (t.parse [.plain "x", .plain "z"]).outcome
        = some (.rejected (.unexpectedToken 1 "z" none ["x", "y"]))
      ∧ g.Viable [⟨"x"⟩] ∧ ¬ g.Viable [⟨"x"⟩, ⟨"z"⟩]
      ∧ ["x", "y"] = (g.continuations [⟨"x"⟩]).map Terminal.text := by
  obtain ⟨g, t, hg, ht, hproductions, hconflicts, houtcome⟩ := exists_table_of_within .reject 20
    "__root : @a ; a : x @__root ; a : y ;"
    (P := fun g t => g.productions = Grammar.recursiveProductions ∧ t.conflicts = []
      ∧ (t.parse [.plain "x", .plain "z"]).outcome
        = some (.rejected (.unexpectedToken 1 "z" none ["x", "y"])))
    (by decide +kernel)
  have hproductive := Grammar.productive_of_recursive hproductions
  obtain ⟨-, hviable, hnot, hexpected⟩ :=
    (continuations_of_rejected hg hproductive ht hconflicts [.plain "x", .plain "z"]).1 _ _ _ _ houtcome
  exact ⟨g, t, hg, ht, hproductive, hconflicts, houtcome, hviable, hnot, hexpected⟩

end Table

end CanonicalLR
