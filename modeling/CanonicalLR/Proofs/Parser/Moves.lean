import CanonicalLR.Proofs.Parser.Stack
import CanonicalLR.Proofs.Table.Actions

/-!
# Moves

What the parser of a grammar's table does in one move (`moves_iff`), why it makes none (`Halts`), and what every run of moves keeps. The stack stays supported by the automaton, its trees are admitted by the grammar, and their leaves with the tokens that are still to come are the input (`Configuration.Sound`). A cell tells only the name and the length of the production that it reduces by; that the trees on top are children for that very production is read off the path that the stack spells (`children_of_final`). This holds whatever the policy, also where a cell has been overwritten.
-/

namespace CanonicalLR

open Relation

/-! ### The tokens to come -/

/-- The terminal of the first token; at the end of input it is the end marker. -/
def nextTerminal (rest : List Token) : Terminal := ⟨rest.head?.elim "" Token.kind⟩

theorem Configuration.lookahead_eq (c : Configuration) : c.lookahead = nextTerminal c.rest := rfl

theorem nextTerminal_cons (token : Token) (rest : List Token) : nextTerminal (token :: rest) = ⟨token.kind⟩ := rfl

theorem exists_cons_of_nextTerminal {rest : List Token} (h : nextTerminal rest ≠ .endMarker) :
    ∃ token more, rest = token :: more ∧ token.kind ≠ "" := by
  cases rest with
  | nil => exact absurd rfl h
  | cons token more =>
    refine ⟨token, more, rfl, fun hkind => h ?_⟩
    rw [nextTerminal_cons, hkind]
    rfl

namespace Table

theorem untilEnd_cons {token : Token} (h : token.kind ≠ "") (rest : List Token) :
    untilEnd (token :: rest) = token :: untilEnd rest := by
  rw [untilEnd, List.takeWhile_cons_of_pos (by simp [h])]
  rfl

theorem untilEnd_eq_nil_iff {rest : List Token} : untilEnd rest = [] ↔ nextTerminal rest = .endMarker := by
  cases rest with
  | nil => exact iff_of_true rfl rfl
  | cons token more =>
    rw [nextTerminal_cons]
    by_cases hkind : token.kind = ""
    · rw [hkind]
      refine iff_of_true ?_ rfl
      rw [untilEnd, List.takeWhile_cons_of_neg (by simp [hkind])]
    · rw [untilEnd_cons hkind]
      exact iff_of_false (List.cons_ne_nil _ _) fun h => hkind (congrArg Terminal.name h)

theorem untilEnd_append {tokens more : List Token} (htokens : ∀ token ∈ tokens, token.kind ≠ "")
    (hmore : nextTerminal more = .endMarker) : untilEnd (tokens ++ more) = tokens := by
  induction tokens with
  | nil => exact untilEnd_eq_nil_iff.2 hmore
  | cons token rest ih =>
    rw [List.cons_append, untilEnd_cons (htokens token List.mem_cons_self),
      ih fun other hother => htokens other (List.mem_cons_of_mem _ hother)]

theorem exists_eq_untilEnd_append (tokens : List Token) :
    ∃ more, tokens = untilEnd tokens ++ more ∧ nextTerminal more = .endMarker := by
  refine ⟨tokens.dropWhile (!·.kind.isEmpty), List.takeWhile_append_dropWhile.symm, ?_⟩
  induction tokens with
  | nil => rfl
  | cons token rest ih =>
    by_cases hkind : token.kind = ""
    · rw [List.dropWhile_cons_of_neg (by simp [hkind]), nextTerminal_cons, hkind]
      rfl
    · rw [List.dropWhile_cons_of_pos (by simp [hkind])]
      exact ih

/-! ### Runs -/

def Moves (t : Table) (c c' : Configuration) : Prop := ∃ move, t.step c = .move move c'

/-- Any number of moves. -/
def Reaches (t : Table) : Configuration → Configuration → Prop := ReflTransGen t.Moves

variable {t : Table} {c c' : Configuration} {o : Outcome}

theorem Moves.unique {d d' : Configuration} (hd : t.Moves c d) (hd' : t.Moves c d') : d = d' := by
  obtain ⟨m, hm⟩ := hd
  obtain ⟨m', hm'⟩ := hd'
  injection hm.symm.trans hm'

theorem not_moves_of_halt (h : t.step c = .halt o) : ¬ t.Moves c c' := by
  intro hmoves
  obtain ⟨m, hm⟩ := hmoves
  cases h.symm.trans hm

theorem reaches_of_halt {d e : Configuration} (hd : t.Reaches c d) (ho : t.step d = .halt o)
    (he : t.Reaches c e) : t.Reaches e d := by
  induction he using ReflTransGen.head_induction_on with
  | refl => exact hd
  | head hmoves _ ih =>
    rcases hd.cases_head with rfl | ⟨c', hmoves', hc'⟩
    · exact absurd hmoves (not_moves_of_halt ho)
    · exact ih (hmoves.unique hmoves' ▸ hc')

theorem halt_unique {d d' : Configuration} {o' : Outcome} (hd : t.Reaches c d) (ho : t.step d = .halt o)
    (hd' : t.Reaches c d') (ho' : t.step d' = .halt o') : d = d' ∧ o = o' := by
  rcases (reaches_of_halt hd ho hd').cases_head with rfl | ⟨e, hmoves, -⟩
  · injection ho.symm.trans ho' with heq
    exact ⟨rfl, heq⟩
  · exact absurd hmoves (not_moves_of_halt ho')

theorem reaches_run (t : Table) (limit : Nat) (c : Configuration) : t.Reaches c (t.run limit c).last := by
  induction limit generalizing c with
  | zero => exact .refl
  | succ limit ih =>
    rw [run]
    split
    · exact .refl
    · rename_i move next hstep
      exact .head ⟨move, hstep⟩ (ih next)

theorem step_of_run {limit : Nat} (h : (t.run limit c).outcome = some o) :
    t.step (t.run limit c).last = .halt o := by
  induction limit generalizing c with
  | zero => cases h
  | succ limit ih =>
    rw [run] at h ⊢
    split at h
    · rename_i outcome hstep
      rw [← Option.some.inj h]
      exact hstep
    · exact ih h

end Table

/-! ### One move -/

namespace Table

theorem step_eq_move_iff {t : Table} {c c' : Configuration} {move : Move} : t.step c = .move move c' ↔
    (∃ target token rest, t.action? c.state c.lookahead = some (.shift target) ∧ c.rest = token :: rest
      ∧ move = .shift c.index token.kind target
      ∧ c' = ⟨⟨target, .leaf token⟩ :: c.stack, rest, c.index + 1⟩) ∨
    ∃ name count target, t.action? c.state c.lookahead = some (.reduce name count) ∧ count ≤ c.stack.length
      ∧ t.goto? (topState (c.stack.drop count)) name = some target
      ∧ move = .reduce name count (topState (c.stack.drop count)) target
      ∧ c' = { c with stack := ⟨target, .node name (topTrees c.stack count)⟩ :: c.stack.drop count } := by
  constructor
  · intro hstep
    unfold step at hstep
    split at hstep
    · cases hstep
    · rename_i target haction
      unfold Configuration.shift at hstep
      split at hstep
      · cases hstep
      · rename_i token rest hrest
        injection hstep with hmove hnext
        exact .inl ⟨target, token, rest, haction, hrest, hmove.symm, hnext.symm⟩
    · rename_i name count haction
      simp only [Configuration.reduce] at hstep
      split at hstep
      · cases hstep
      · rename_i hshort
        rw [isShort_iff, Nat.not_lt] at hshort
        split at hstep
        · cases hstep
        · rename_i target hgoto
          injection hstep with hmove hnext
          exact .inr ⟨name, count, target, haction, hshort, hgoto, hmove.symm, hnext.symm⟩
    · unfold Configuration.accept at hstep
      split at hstep <;> cases hstep
    · cases hstep
  · intro h
    rcases h with
      ⟨target, token, rest, haction, hrest, rfl, rfl⟩ | ⟨name, count, target, haction, hcount, hgoto, rfl, rfl⟩
    · simp only [step, haction, Configuration.shift, hrest]
    · have hshort : ¬ isShort c.stack count = true := by
        rw [isShort_iff]
        omega
      simp only [step, haction, Configuration.reduce, if_neg hshort, hgoto]

/-- A move shifts the next token or reduces the topmost trees. -/
theorem moves_iff {t : Table} {c c' : Configuration} : t.Moves c c' ↔
    (∃ target token rest, t.action? c.state c.lookahead = some (.shift target) ∧ c.rest = token :: rest
      ∧ c' = ⟨⟨target, .leaf token⟩ :: c.stack, rest, c.index + 1⟩) ∨
    ∃ name count target, t.action? c.state c.lookahead = some (.reduce name count) ∧ count ≤ c.stack.length
      ∧ t.goto? (topState (c.stack.drop count)) name = some target
      ∧ c' = { c with stack := ⟨target, .node name (topTrees c.stack count)⟩ :: c.stack.drop count } := by
  constructor
  · intro h
    obtain ⟨move, hstep⟩ := h
    rcases step_eq_move_iff.1 hstep with
      ⟨target, token, rest, haction, hrest, -, hnext⟩ | ⟨name, count, target, haction, hcount, hgoto, -, hnext⟩
    · exact .inl ⟨target, token, rest, haction, hrest, hnext⟩
    · exact .inr ⟨name, count, target, haction, hcount, hgoto, hnext⟩
  · intro h
    rcases h with ⟨target, token, rest, haction, hrest, hnext⟩ | ⟨name, count, target, haction, hcount, hgoto, hnext⟩
    · exact ⟨_, step_eq_move_iff.2 (.inl ⟨target, token, rest, haction, hrest, rfl, hnext⟩)⟩
    · exact ⟨_, step_eq_move_iff.2 (.inr ⟨name, count, target, haction, hcount, hgoto, rfl, hnext⟩)⟩

/-- Why the parser makes no move, and what it halts with. -/
inductive Halts (t : Table) (c : Configuration) : Outcome → Prop where
  | unexpected : t.action? c.state c.lookahead = none → Halts t c (.rejected (c.unexpected t))
  | accepted {count : Nat} : t.action? c.state c.lookahead = some (.accept count) → count ≤ c.stack.length →
    Halts t c (.accepted (.node .root (topTrees c.stack count)))
  | missingGoto {name : NonTerminal} {count : Nat} : t.action? c.state c.lookahead = some (.reduce name count) →
    t.goto? (topState (c.stack.drop count)) name = none →
    Halts t c (.rejected (.missingGoto (topState (c.stack.drop count)) name))
  | endShifted {target : Nat} : t.action? c.state c.lookahead = some (.shift target) → c.rest = [] →
    Halts t c (.broken .endShifted)
  | reduceShort {name : NonTerminal} {count : Nat} : t.action? c.state c.lookahead = some (.reduce name count) →
    c.stack.length < count → Halts t c (.broken .stackTooShort)
  | acceptShort {count : Nat} : t.action? c.state c.lookahead = some (.accept count) → c.stack.length < count →
    Halts t c (.broken .stackTooShort)
  | gotoOnTerminal {target : Nat} : t.action? c.state c.lookahead = some (.goto target) →
    Halts t c (.broken .gotoOnTerminal)

theorem halts_of_step {t : Table} {c : Configuration} {o : Outcome} (h : t.step c = .halt o) : t.Halts c o := by
  unfold step at h
  split at h
  · rename_i haction
    injection h with ho
    exact ho ▸ .unexpected haction
  · rename_i target haction
    unfold Configuration.shift at h
    split at h
    · rename_i hrest
      injection h with ho
      exact ho ▸ .endShifted haction hrest
    · cases h
  · rename_i name count haction
    simp only [Configuration.reduce] at h
    split at h
    · rename_i hshort
      injection h with ho
      exact ho ▸ .reduceShort haction (isShort_iff.1 hshort)
    · split at h
      · rename_i hgoto
        injection h with ho
        exact ho ▸ .missingGoto haction hgoto
      · cases h
  · rename_i count haction
    unfold Configuration.accept at h
    split at h
    · rename_i hshort
      injection h with ho
      exact ho ▸ .acceptShort haction (isShort_iff.1 hshort)
    · rename_i hshort
      rw [isShort_iff, Nat.not_lt] at hshort
      injection h with ho
      exact ho ▸ .accepted haction hshort
  · rename_i target haction
    injection h with ho
    exact ho ▸ .gotoOnTerminal haction

variable {policy : ConflictPolicy} {g columns : Grammar} {t : Table} {stack : List Frame} {c c' : Configuration}

/-- Behind the symbols of a production, its children are on top and its start stands below them. -/
theorem children_of_final {p : Production} {x : Terminal} (h : g.Places (stackSymbols stack) (.final p x)) :
    (topTrees stack p.size).map Tree.symbol = p.symbols
      ∧ stackSymbols stack = stackSymbols (stack.drop p.size) ++ p.symbols
      ∧ g.Places (stackSymbols (stack.drop p.size)) (.initial p x) := by
  obtain ⟨before, hpath, hbefore⟩ := h.split
  have hsymbols : stackSymbols stack = before ++ p.symbols := by
    rw [hpath]
    exact congrArg (before ++ ·) (List.take_of_length_le (Nat.le_refl _))
  obtain ⟨hbelow, hchildren⟩ := topTrees_of_stackSymbols hsymbols
  have hbelow' : stackSymbols (stack.drop p.size) = before := hbelow
  rw [hbelow']
  exact ⟨hchildren, hsymbols, hbefore⟩

theorem size_le_of_final {p : Production} {x : Terminal} (h : g.Places (stackSymbols stack) (.final p x)) :
    p.size ≤ stack.length := by
  obtain ⟨hchildren, -, -⟩ := children_of_final h
  have hlength := congrArg List.length hchildren
  simp only [topTrees, List.length_map, List.length_reverse, List.length_take] at hlength
  rw [Production.size]
  omega

theorem exists_token_of_shift (hg : g.WellFormed) (ht : build policy (.ofGrammar g) columns = .ok t)
    (hc : (Automaton.ofGrammar g).Supports c.stack) {target : Nat}
    (h : t.action? c.state c.lookahead = some (.shift target)) :
    ∃ token rest, c.rest = token :: rest ∧ token.kind ≠ "" := by
  have hgoto := goto?_of_shift ht h
  apply exists_cons_of_nextTerminal
  intro hend
  rw [Configuration.lookahead_eq, hend] at hgoto
  exact Automaton.goto?_endMarker hg hc.walk? hgoto

/-- A move reads a token that does not end the input, or it reduces by a production that is complete. -/
theorem moves_cases (hg : g.WellFormed) (ht : build policy (.ofGrammar g) columns = .ok t)
    (hc : (Automaton.ofGrammar g).Supports c.stack) (h : t.Moves c c') :
    (∃ token rest target, c.rest = token :: rest ∧ token.kind ≠ ""
      ∧ (Automaton.ofGrammar g).goto? c.state token.symbol = some target
      ∧ c' = ⟨⟨target, .leaf token⟩ :: c.stack, rest, c.index + 1⟩) ∨
    ∃ p target, g.Places (stackSymbols c.stack) (.final p c.lookahead)
      ∧ (Automaton.ofGrammar g).goto? (topState (c.stack.drop p.size)) (.nonterminal p.name) = some target
      ∧ c' = { c with
          stack := ⟨target, .node p.name (topTrees c.stack p.size)⟩ :: c.stack.drop p.size } := by
  rcases moves_iff.1 h with
    ⟨target, token, rest, haction, hrest, hnext⟩ | ⟨name, count, target, haction, -, hgoto, hnext⟩
  · left
    obtain ⟨token', rest', hrest', hkind⟩ := exists_token_of_shift hg ht hc haction
    obtain ⟨rfl, rfl⟩ := List.cons.inj (hrest.symm.trans hrest')
    have htarget := goto?_of_shift ht haction
    rw [Configuration.lookahead_eq, hrest] at htarget
    exact ⟨token, rest, target, hrest, hkind, htarget, hnext⟩
  · right
    obtain ⟨p, hplaces, rfl, rfl, -⟩ := exists_production_of_reduce ht hc.walk? haction
    exact ⟨p, target, hplaces, goto?_automaton ht hgoto, hnext⟩

theorem step_accepted (ht : build policy (.ofGrammar g) columns = .ok t)
    (hc : (Automaton.ofGrammar g).Supports c.stack) {tree : Tree} (h : t.step c = .halt (.accepted tree)) :
    nextTerminal c.rest = .endMarker ∧ g.Places (stackSymbols c.stack) (.final g.root .endMarker)
      ∧ tree = .node .root (topTrees c.stack g.root.size) := by
  cases halts_of_step h with
  | accepted haction _ =>
    obtain ⟨hend, rfl, hplaces⟩ := root_of_accept ht hc.walk? haction
    exact ⟨hend, hplaces, rfl⟩

end Table

/-! ### What moves keep -/

/-- What the parser holds while it reads the tokens. -/
structure Configuration.Sound (g : Grammar) (tokens : List Token) (c : Configuration) : Prop where
  supports : (Automaton.ofGrammar g).Supports c.stack
  admits : ∀ t ∈ stackTrees c.stack, g.Admits t
  leaves : (stackTrees c.stack).flatMap Tree.leaves ++ Table.untilEnd c.rest = Table.untilEnd tokens

namespace Table

variable {policy : ConflictPolicy} {g columns : Grammar} {t : Table} {tokens : List Token}
  {c c' : Configuration}

theorem sound_start (g : Grammar) (tokens : List Token) : (Configuration.start tokens).Sound g tokens where
  supports := .nil
  admits := by
    intro t ht
    cases ht
  leaves := rfl

theorem sound_of_moves (hg : g.WellFormed) (ht : build policy (.ofGrammar g) columns = .ok t)
    (hc : c.Sound g tokens) (h : t.Moves c c') : c'.Sound g tokens := by
  rcases moves_cases hg ht hc.supports h with
    ⟨token, rest, target, hrest, hkind, hgoto, rfl⟩ | ⟨p, target, hplaces, hgoto, rfl⟩
  · refine ⟨.push hc.supports hgoto, ?_, ?_⟩
    · intro u hu
      rw [stackTrees_cons] at hu
      rcases List.mem_append.1 hu with hu | hu
      · exact hc.admits u hu
      · rw [List.mem_singleton.1 hu]
        exact .leaf token
    · have hleaves := hc.leaves
      rw [hrest, untilEnd_cons hkind] at hleaves
      rw [stackTrees_cons, List.flatMap_append, List.append_assoc]
      simpa using hleaves
  · obtain ⟨hchildren, -, -⟩ := children_of_final hplaces
    have hsplit := stackTrees_eq_append c.stack p.size
    have hmem : ∀ u ∈ topTrees c.stack p.size, g.Admits u := by
      intro u hu
      exact hc.admits u (hsplit ▸ List.mem_append_right _ hu)
    refine ⟨.push (hc.supports.drop _) hgoto, ?_, ?_⟩
    · intro u hu
      rw [stackTrees_cons] at hu
      rcases List.mem_append.1 hu with hu | hu
      · exact hc.admits u (hsplit ▸ List.mem_append_left _ hu)
      · rw [List.mem_singleton.1 hu]
        refine .node ?_ hmem
        rw [hchildren]
        exact hplaces.mem_productions
    · have hleaves := hc.leaves
      rw [hsplit, List.flatMap_append] at hleaves
      rw [stackTrees_cons, List.flatMap_append]
      simpa using hleaves

theorem sound_of_reaches (hg : g.WellFormed) (ht : build policy (.ofGrammar g) columns = .ok t)
    (h : t.Reaches (.start tokens) c) : c.Sound g tokens := by
  induction h with
  | refl => exact sound_start g tokens
  | tail _ hmoves ih => exact sound_of_moves hg ht ih hmoves

end Table

end CanonicalLR
