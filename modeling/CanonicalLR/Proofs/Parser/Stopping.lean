import CanonicalLR.Proofs.Parser.Relevance
import CanonicalLR.Proofs.Parser.Safety

/-!
# Where a parser stops

No reduction is made on a token that is then refused. It leads to the successor of a state in which some item expects the nonterminal, and the next terminal is one of that item's lookaheads for it. Where no FIRST set is empty, the item permits such a terminal once its dot has moved over the nonterminal, so the successor acts on it (`acts_of_reduce`); that some cell has been overwritten does not matter, since it still holds an action. On a run the parser is therefore always in the state that the last token has led to, or in one that acts on the next token (`state_last_run`). When it stops for want of an action it is in the former, no token further than it should be.
-/

namespace CanonicalLR

/-- The state that a token has led to. -/
def Move.shifted? : Move → Option Nat
  | .shift _ _ target => some target
  | .reduce .. => none

/-- The states that the tokens of a run have led to, one for every token read. -/
def Run.shifted (r : Run) : List Nat := r.moves.filterMap Move.shifted?

theorem Grammar.FirstInhabited.permits_of_expansionLookaheads {g : Grammar} (hfirst : g.FirstInhabited) {i : Item}
    (hi : i.production ∈ g.productions) {x : Terminal} (hx : x ∈ i.expansionLookaheads g.first) :
    g.Permits { i with dot := i.dot + 1 } x := by
  rw [Permits, Item.current?_advanced]
  cases hfollowing : i.following? with
  | none =>
    rw [Item.expansionLookaheads_of_last hfollowing] at hx
    exact List.mem_singleton.1 hx
  | some y =>
    have hstarts := hfirst.exists_starts hi (List.mem_of_getElem? hfollowing)
    exact (Item.mem_expansionLookaheads_iff_starts hstarts hfollowing).1 hx

namespace Table

variable {policy : ConflictPolicy} {g columns : Grammar} {t : Table} {tokens : List Token}
  {c c' : Configuration} {source : String}

/-! ### Moves -/

/-- Having reduced, the parser has an action for the terminal that it reduced on. -/
theorem acts_of_reduce (hfirst : g.FirstInhabited) (ht : build policy (.ofGrammar g) columns = .ok t)
    (hc : (Automaton.ofGrammar g).Supports c.stack) {name : NonTerminal} {count exposed target : Nat}
    (h : t.step c = .move (.reduce name count exposed target) c') :
    c'.rest = c.rest ∧ c'.state = target ∧ (t.action? target c.lookahead).isSome := by
  rcases step_eq_move_iff.1 h with ⟨_, _, _, -, -, hmove, -⟩ | ⟨_, _, _, haction, -, hgoto, hmove, rfl⟩
  · cases hmove
  cases hmove
  obtain ⟨-, i, hi, hcurrent, hlookahead⟩ := exists_expecting_of_reduce ht hc haction
  have hadvanced := hi.advance (Item.advance?_eq_some_iff.2 ⟨hcurrent, rfl⟩)
  have hpermits := hfirst.permits_of_expansionLookaheads hi.mem_productions hlookahead
  have hstack : (Automaton.ofGrammar g).Supports
      (⟨target, .node name (topTrees c.stack count)⟩ :: c.stack.drop count) :=
    .push (hc.drop count) (goto?_automaton ht hgoto)
  have hacts := (isSome_action?_iff_permits ht hstack).2 ⟨_, stackSymbols_cons _ _ ▸ hadvanced, hpermits⟩
  exact ⟨rfl, rfl, hacts⟩

/-- The state after a move is the one that the token read has led to, or it acts on the next terminal. -/
theorem shifted?_of_step (hfirst : g.FirstInhabited) (ht : build policy (.ofGrammar g) columns = .ok t)
    (hc : (Automaton.ofGrammar g).Supports c.stack) {move : Move} (h : t.step c = .move move c') :
    move.shifted? = some c'.state ∨ move.shifted? = none ∧ (t.action? c'.state c'.lookahead).isSome := by
  rcases step_eq_move_iff.1 h with ⟨_, _, _, -, -, rfl, rfl⟩ | ⟨_, _, _, -, -, -, rfl, rfl⟩
  · exact .inl rfl
  · obtain ⟨-, -, hacts⟩ := acts_of_reduce hfirst ht hc h
    exact .inr ⟨rfl, hacts⟩

theorem index_of_step {move : Move} (h : t.step c = .move move c') :
    c'.index = c.index + move.shifted?.toList.length := by
  rcases step_eq_move_iff.1 h with ⟨_, _, _, -, -, rfl, rfl⟩ | ⟨_, _, _, -, -, -, rfl, rfl⟩
  · rfl
  · rfl

/-! ### Runs -/

theorem run_of_step {move : Move} (h : t.step c = .move move c') (limit : Nat) :
    (t.run (limit + 1) c).last = (t.run limit c').last ∧
      (t.run (limit + 1) c).shifted = move.shifted?.toList ++ (t.run limit c').shifted := by
  rw [run, h]
  refine ⟨rfl, ?_⟩
  cases move with
  | shift index kind target => rfl
  | reduce name count exposed target => rfl

theorem index_last_run (t : Table) (limit : Nat) (c : Configuration) :
    (t.run limit c).last.index = c.index + (t.run limit c).shifted.length := by
  induction limit generalizing c with
  | zero => rfl
  | succ limit ih =>
    cases hstep : t.step c with
    | halt o =>
      rw [run, hstep]
      rfl
    | move move next =>
      obtain ⟨hlast, hshifted⟩ := run_of_step hstep limit
      rw [hlast, hshifted, ih, index_of_step hstep, List.length_append, Nat.add_assoc]

/-- A run that ends for want of an action ends in the state that the last token has led to. -/
theorem state_last_run (hg : g.WellFormed) (hfirst : g.FirstInhabited)
    (ht : build policy (.ofGrammar g) columns = .ok t) {limit entered : Nat} (hc : c.Sound g tokens)
    (hentered : c.state = entered ∨ (t.action? c.state c.lookahead).isSome)
    (hnone : t.action? (t.run limit c).last.state (t.run limit c).last.lookahead = none) :
    (t.run limit c).last.state = (t.run limit c).shifted.getLastD entered := by
  induction limit generalizing c entered with
  | zero =>
    rw [← Option.not_isSome_iff_eq_none] at hnone
    exact hentered.resolve_right hnone
  | succ limit ih =>
    cases hstep : t.step c with
    | halt o =>
      rw [run, hstep, ← Option.not_isSome_iff_eq_none] at hnone
      rw [run, hstep]
      exact hentered.resolve_right hnone
    | move move next =>
      have hnext := sound_of_moves hg ht hc ⟨move, hstep⟩
      obtain ⟨hlast, hshifted⟩ := run_of_step hstep limit
      rw [hlast] at hnone ⊢
      rw [hshifted]
      rcases shifted?_of_step hfirst ht hc.supports hstep with hmove | ⟨hmove, hacts⟩
      · rw [hmove, Option.toList_some, List.singleton_append, List.getLastD_cons]
        exact ih hnext (.inl rfl) hnone
      · rw [hmove, Option.toList_none, List.nil_append]
        exact ih hnext (.inr hacts) hnone

/-! ### Stopping -/

theorem expected_ne_nil (hfirst : g.FirstInhabited) (ht : ofGrammar policy g = .ok t)
    (hc : (Automaton.ofGrammar g).Supports c.stack) : t.expected c.state ≠ [] := by
  obtain ⟨i, hi⟩ := Automaton.exists_places_of_walk? hc.walk?
  obtain ⟨x, hx⟩ := Grammar.exists_permits fun y hy => hfirst.exists_starts hi.mem_productions hy
  have hacts := (isSome_action?_iff_permits ht hc).2 ⟨i, hi, hx⟩
  exact List.ne_nil_of_mem ((mem_expected_iff ht).2 hacts)

theorem exists_unexpected_eq (hfirst : g.FirstInhabited) (ht : ofGrammar policy g = .ok t)
    (hc : (Automaton.ofGrammar g).Supports c.stack) : ∃ expected, expected ≠ [] ∧
      ((∃ kind location, c.unexpected t = .unexpectedToken c.index kind location expected) ∨
        c.unexpected t = .unexpectedEnd expected) := by
  have hne : (t.expected c.state).map Terminal.text ≠ [] := by
    intro hnil
    exact expected_ne_nil hfirst ht hc (List.map_eq_nil_iff.1 hnil)
  refine ⟨_, hne, ?_⟩
  rcases unexpected_eq c t with ⟨token, rest, -, -, heq⟩ | ⟨-, heq⟩
  · exact .inl ⟨token.kind, token.location, heq⟩
  · exact .inr heq

/-- The parser acts on the next terminal behind every reduction. It is rejected in the state that the last token has led to, at the first token that was not read, and something is expected there. -/
theorem stops_behind_shift (hg : Grammar.ofSource source = .ok g) (hfirst : g.FirstInhabited)
    (ht : ofGrammar policy g = .ok t) (tokens : List Token) :
    (∀ c c' name count exposed target, t.Reaches (.start tokens) c →
      t.step c = .move (.reduce name count exposed target) c' →
      c'.rest = c.rest ∧ c'.state = target ∧ (t.action? target c.lookahead).isSome) ∧
    ∀ e, (t.parse tokens).outcome = some (.rejected e) →
      t.action? (t.parse tokens).last.state (t.parse tokens).last.lookahead = none ∧
      (t.parse tokens).last.state = (t.parse tokens).shifted.getLastD 0 ∧
      ∃ expected, expected ≠ [] ∧ ((∃ kind location,
        e = .unexpectedToken (t.parse tokens).shifted.length kind location expected) ∨ e = .unexpectedEnd expected) := by
  have hwell := Grammar.wellFormed_of_ofSource hg
  have hsupports {c : Configuration} (hreaches : t.Reaches (.start tokens) c) :
      (Automaton.ofGrammar g).Supports c.stack := (sound_of_reaches hwell ht hreaches).supports
  refine ⟨fun c c' name count exposed target hreaches hstep => ?_, fun e he => ?_⟩
  · exact acts_of_reduce hfirst ht (hsupports hreaches) hstep
  · have hlast : (Automaton.ofGrammar g).Supports (t.parse tokens).last.stack := hsupports (reaches_run t _ _)
    have hindex : (t.parse tokens).last.index = 0 + (t.parse tokens).shifted.length := index_last_run t _ _
    obtain ⟨expected, hne, hcases⟩ := exists_unexpected_eq hfirst ht hlast
    rw [hindex, Nat.zero_add] at hcases
    rcases halts_cases hwell ht hlast (step_of_run he) with ⟨hnone, herror⟩ | ⟨_, -, -, herror⟩
    · obtain rfl := Outcome.rejected.inj herror
      exact ⟨hnone, state_last_run hwell hfirst ht (sound_start g tokens) (.inl rfl) hnone, expected, hne, hcases⟩
    · cases herror

/-- Cells have been overwritten, and still the fifth token is refused in the state that the fourth has led to. -/
theorem stops_behind_shift_sum : ∃ g t,
    Grammar.ofSource "__root : @sum ; sum : @sum plus @sum ; sum : id ;" = .ok g ∧ g.FirstInhabited
      ∧ ofGrammar .overwrite g = .ok t ∧ t.conflicts ≠ []
      ∧ (t.parse (["id", "plus", "id", "plus", "plus"].map .plain)).outcome
        = some (.rejected (.unexpectedToken 4 "plus" none ["id"]))
      ∧ (t.parse (["id", "plus", "id", "plus", "plus"].map .plain)).shifted.length = 4
      ∧ (t.parse (["id", "plus", "id", "plus", "plus"].map .plain)).last.state
        = (t.parse (["id", "plus", "id", "plus", "plus"].map .plain)).shifted.getLastD 0
      ∧ ∀ c c' name count exposed target, t.Reaches (.start (["id", "plus", "id", "plus", "plus"].map .plain)) c →
        t.step c = .move (.reduce name count exposed target) c' → (t.action? target c.lookahead).isSome := by
  obtain ⟨g, t, hg, ht, hfirst, hconflicts, houtcome⟩ := exists_table_of_within .overwrite 20
    "__root : @sum ; sum : @sum plus @sum ; sum : id ;"
    (P := fun g t => g.FirstInhabited ∧ t.conflicts ≠ []
      ∧ (t.parse (["id", "plus", "id", "plus", "plus"].map .plain)).outcome
        = some (.rejected (.unexpectedToken 4 "plus" none ["id"])))
    (by decide +kernel)
  obtain ⟨hreductions, hrejected⟩ :=
    stops_behind_shift hg hfirst ht (["id", "plus", "id", "plus", "plus"].map .plain)
  obtain ⟨-, hstate, expected, -, ⟨kind, location, herror⟩ | herror⟩ := hrejected _ houtcome
  · have hindex := (SyntaxError.unexpectedToken.inj herror).1
    refine ⟨g, t, hg, hfirst, ht, hconflicts, houtcome, hindex.symm, hstate, ?_⟩
    intro c c' name count exposed target hreaches hstep
    exact (hreductions c c' name count exposed target hreaches hstep).2.2
  · cases herror

end Table

end CanonicalLR
