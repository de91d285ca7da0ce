import CanonicalLR.Proofs.Parser.Errors
import CanonicalLR.Proofs.Parser.Safety
import Mathlib.Data.List.TakeWhile

/-!
# Kinds

A parser looks at the kinds of its tokens and at nothing else, and at none behind the end of input. Two runs on tokens of the same kinds go side by side. They have the same states on their stacks, and the trees on the second stack are those on the first with the second tokens for their leaves (`Configuration.Parallel`): refilling takes as many tokens as the stack has leaves, so what it leaves over is just what the second parser has still to read. A shift keeps this because the end of input is never shifted, so that where one parser has a token to shift, the other has one too (`Parallel.shift`).
-/

namespace CanonicalLR

open Relation

namespace Tree

/-! ### Other leaves -/

mutual

/-- The tree with the tokens for its leaves, from left to right, and the tokens that are left over. -/
def refill : Tree → List Token → Tree × List Token
  | leaf token, [] => (leaf token, [])
  | leaf _, token :: rest => (leaf token, rest)
  | node name children, tokens => ((node name (refillAll children tokens).1), (refillAll children tokens).2)

def refillAll : List Tree → List Token → List Tree × List Token
  | [], tokens => ([], tokens)
  | c :: rest, tokens =>
    ((refill c tokens).1 :: (refillAll rest (refill c tokens).2).1, (refillAll rest (refill c tokens).2).2)

end

theorem refillAll_append (cs ds : List Tree) (tokens : List Token) : refillAll (cs ++ ds) tokens
    = ((refillAll cs tokens).1 ++ (refillAll ds (refillAll cs tokens).2).1, (refillAll ds (refillAll cs tokens).2).2) := by
  induction cs generalizing tokens with
  | nil => rfl
  | cons c rest ih => rw [List.cons_append, refillAll, ih, refillAll, List.cons_append]

theorem refillAll_singleton (t : Tree) (tokens : List Token) :
    refillAll [t] tokens = ([(t.refill tokens).1], (t.refill tokens).2) := rfl

theorem length_refillAll (ts : List Tree) (tokens : List Token) : (refillAll ts tokens).1.length = ts.length := by
  induction ts generalizing tokens with
  | nil => rfl
  | cons c rest ih => rw [refillAll, List.length_cons, ih, List.length_cons]

mutual

theorem refill_snd (tokens : List Token) : (t : Tree) → (t.refill tokens).2 = tokens.drop t.leaves.length
  | leaf token => by
    rw [leaves_leaf]
    cases tokens <;> rfl
  | node name children => by
    rw [refill, leaves_node]
    exact refillAll_snd tokens children

theorem refillAll_snd (tokens : List Token) :
    (ts : List Tree) → (refillAll ts tokens).2 = tokens.drop (ts.flatMap leaves).length
  | [] => rfl
  | c :: rest => by
    rw [refillAll, refillAll_snd _ rest, refill_snd tokens c, List.drop_drop, List.flatMap_cons, List.length_append]

end

mutual

theorem refill_leaves (more : List Token) : (t : Tree) → t.refill (t.leaves ++ more) = (t, more)
  | leaf token => by rw [leaves_leaf, List.singleton_append, refill]
  | node name children => by rw [leaves_node, refill, refillAll_leaves more children]

theorem refillAll_leaves (more : List Token) :
    (ts : List Tree) → refillAll ts (ts.flatMap leaves ++ more) = (ts, more)
  | [] => rfl
  | c :: rest => by
    rw [List.flatMap_cons, List.append_assoc, refillAll, refill_leaves _ c, refillAll_leaves more rest]

end

end Tree

/-- The same outcome for other tokens. The leaves of a tree are the last of the tokens, and the other tree has the other tokens in their places. An error has the place of the token at its index. -/
inductive Outcome.Corresponds (tokens tokens' : List Token) : Outcome → Outcome → Prop where
  | accepted {tree : Tree} {place : Nat} : tree.leaves = (Table.untilEnd tokens).drop place →
    Corresponds tokens tokens' (.accepted tree) (.accepted (tree.refill (tokens'.drop place)).1)
  | unexpectedToken {index : Nat} {token token' : Token} (expected : List String) :
    tokens[index]? = some token → tokens'[index]? = some token' → token'.kind = token.kind →
    Corresponds tokens tokens' (.rejected (.unexpectedToken index token.kind token.location expected))
      (.rejected (.unexpectedToken index token'.kind token'.location expected))
  | unexpectedEnd (expected : List String) :
    Corresponds tokens tokens' (.rejected (.unexpectedEnd expected)) (.rejected (.unexpectedEnd expected))

namespace Table

/-- The kinds of the tokens before the end of input. -/
def kinds (tokens : List Token) : List String := (untilEnd tokens).map Token.kind

theorem kinds_untilEnd (tokens : List Token) : kinds (untilEnd tokens) = kinds tokens :=
  congrArg (List.map Token.kind) List.takeWhile_idem

theorem nextTerminal_eq_kinds (rest : List Token) : nextTerminal rest = ⟨(kinds rest).headD ""⟩ := by
  cases rest with
  | nil => rfl
  | cons token more =>
    by_cases hkind : token.kind = ""
    · have hnil : kinds (token :: more) = [] := by
        rw [kinds, untilEnd_eq_nil_iff.2 (by rw [nextTerminal_cons, hkind]; rfl), List.map_nil]
      rw [nextTerminal_cons, hnil, hkind]
      rfl
    · rw [nextTerminal_cons, kinds, untilEnd_cons hkind]
      rfl

theorem kinds_cons {token : Token} (h : token.kind ≠ "") (rest : List Token) :
    kinds (token :: rest) = token.kind :: kinds rest := by
  rw [kinds, untilEnd_cons h]
  rfl

theorem exists_cons_of_kinds {token : Token} {rest tokens' : List Token} (hkind : token.kind ≠ "")
    (h : kinds tokens' = kinds (token :: rest)) :
    ∃ token' rest', tokens' = token' :: rest' ∧ token'.kind = token.kind ∧ kinds rest' = kinds rest := by
  rw [kinds_cons hkind] at h
  have hnext : nextTerminal tokens' = ⟨token.kind⟩ := by rw [nextTerminal_eq_kinds, h, List.headD_cons]
  have hne : nextTerminal tokens' ≠ .endMarker := by
    rw [hnext]
    exact fun heq => hkind (congrArg Terminal.name heq)
  obtain ⟨token', rest', rfl, hkind'⟩ := exists_cons_of_nextTerminal hne
  rw [kinds_cons hkind'] at h
  obtain ⟨heq, hrest⟩ := List.cons.inj h
  exact ⟨token', rest', rfl, heq, hrest⟩

end Table

namespace Configuration

/-- The same states and as many tokens read; the trees are those of the other stack, with other leaves, and the kinds to come are the same. -/
structure Parallel (tokens' : List Token) (c c' : Configuration) : Prop where
  states : c'.stack.map Frame.state = c.stack.map Frame.state
  refilled : Tree.refillAll (stackTrees c.stack) tokens' = (stackTrees c'.stack, c'.rest)
  index : c'.index = c.index
  kinds : Table.kinds c'.rest = Table.kinds c.rest

namespace Parallel

variable {tokens' : List Token} {c c' : Configuration}

theorem length (h : Parallel tokens' c c') : c'.stack.length = c.stack.length := by
  simpa using congrArg List.length h.states

theorem topState_drop (h : Parallel tokens' c c') (count : Nat) :
    topState (c'.stack.drop count) = topState (c.stack.drop count) := by
  rw [topState_eq, topState_eq, List.map_drop, List.map_drop, h.states]

theorem state (h : Parallel tokens' c c') : c'.state = c.state := h.topState_drop 0

theorem lookahead (h : Parallel tokens' c c') : c'.lookahead = c.lookahead := by
  rw [lookahead_eq, lookahead_eq, Table.nextTerminal_eq_kinds, Table.nextTerminal_eq_kinds, h.kinds]

/-- The trees that a reduction takes are refilled with what those below them leave over. -/
theorem refillAll_topTrees (h : Parallel tokens' c c') (count : Nat) :
    Tree.refillAll (stackTrees (c.stack.drop count)) tokens'
        = (stackTrees (c'.stack.drop count), tokens'.drop (stackLeaves (c.stack.drop count)).length) ∧
      Tree.refillAll (topTrees c.stack count) (tokens'.drop (stackLeaves (c.stack.drop count)).length)
        = (topTrees c'.stack count, c'.rest) := by
  have hrefilled := h.refilled
  rw [stackTrees_eq_append c.stack count, stackTrees_eq_append c'.stack count, Tree.refillAll_append,
    Tree.refillAll_snd] at hrefilled
  obtain ⟨htrees, hrest⟩ := Prod.mk.inj hrefilled
  obtain ⟨hbelow, htop⟩ := List.append_inj htrees (by
    rw [Tree.length_refillAll, length_stackTrees, length_stackTrees, List.length_drop, List.length_drop, h.length])
  exact ⟨Prod.ext hbelow (Tree.refillAll_snd _ _), Prod.ext htop hrest⟩

theorem start {tokens : List Token} (h : Table.kinds tokens' = Table.kinds tokens) :
    Parallel tokens' (.start tokens) (.start tokens') := ⟨rfl, rfl, rfl, h⟩

/-! ### One step -/

theorem shift (h : Parallel tokens' c c') {token : Token} {rest : List Token} (hrest : c.rest = token :: rest)
    (hkind : token.kind ≠ "") (target : Nat) : ∃ token' rest', c'.rest = token' :: rest' ∧
      Parallel tokens' ⟨⟨target, .leaf token⟩ :: c.stack, rest, c.index + 1⟩
        ⟨⟨target, .leaf token'⟩ :: c'.stack, rest', c'.index + 1⟩ := by
  obtain ⟨token', rest', hrest', -, hkinds⟩ := Table.exists_cons_of_kinds hkind (hrest ▸ h.kinds)
  refine ⟨token', rest', hrest', ?_, ?_, ?_, hkinds⟩
  · rw [List.map_cons, List.map_cons, h.states]
  · rw [stackTrees_cons, Tree.refillAll_append, h.refilled, hrest', stackTrees_cons]
    rfl
  · rw [h.index]

theorem reduce (h : Parallel tokens' c c') (name : NonTerminal) (count target : Nat) :
    Parallel tokens' { c with stack := ⟨target, .node name (topTrees c.stack count)⟩ :: c.stack.drop count }
      { c' with stack := ⟨target, .node name (topTrees c'.stack count)⟩ :: c'.stack.drop count } := by
  obtain ⟨hbelow, htop⟩ := h.refillAll_topTrees count
  refine ⟨?_, ?_, h.index, h.kinds⟩
  · rw [List.map_cons, List.map_cons, List.map_drop, List.map_drop, h.states]
  · rw [stackTrees_cons, Tree.refillAll_append, hbelow, Tree.refillAll_singleton, Tree.refill, htop, stackTrees_cons]

end Parallel

end Configuration

namespace Table

variable {policy : ConflictPolicy} {g columns : Grammar} {t : Table} {tokens tokens' : List Token}
  {c c' d : Configuration} {o : Outcome} {source : String}

theorem moves_of_parallel (hg : g.WellFormed) (ht : build policy (.ofGrammar g) columns = .ok t)
    (hc : (Automaton.ofGrammar g).Supports c.stack) (h : c.Parallel tokens' c') (hmoves : t.Moves c d) :
    ∃ d', t.Moves c' d' ∧ d.Parallel tokens' d' := by
  rcases moves_iff.1 hmoves with
    ⟨target, token, rest, haction, hrest, rfl⟩ | ⟨name, count, target, haction, hcount, hgoto, rfl⟩
  · obtain ⟨_, _, hcons, hkind⟩ := exists_token_of_shift hg ht hc haction
    obtain ⟨rfl, rfl⟩ := List.cons.inj (hrest.symm.trans hcons)
    obtain ⟨token', rest', hrest', hparallel⟩ := h.shift hrest hkind target
    rw [← h.state, ← h.lookahead] at haction
    exact ⟨_, moves_iff.2 (.inl ⟨target, token', rest', haction, hrest', rfl⟩), hparallel⟩
  · rw [← h.state, ← h.lookahead] at haction
    rw [← h.length] at hcount
    rw [← h.topState_drop] at hgoto
    exact ⟨_, moves_iff.2 (.inr ⟨name, count, target, haction, hcount, hgoto, rfl⟩), h.reduce name count target⟩

theorem corresponds_unexpected (h : c.Parallel tokens' c') (hc : t.Reaches (.start tokens) c)
    (hc' : t.Reaches (.start tokens') c') : Outcome.Corresponds tokens tokens' (.rejected (c.unexpected t))
      (.rejected (c'.unexpected t)) := by
  have hget {tokens : List Token} {c : Configuration} (hc : t.Reaches (.start tokens) c) {token : Token}
      {rest : List Token} (hrest : c.rest = token :: rest) : tokens[c.index]? = some token := by
    obtain ⟨happend, hindex⟩ := stackLeaves_append_rest hc
    rw [← happend, hindex, hrest, List.getElem?_append_right (Nat.le_refl _), Nat.sub_self]
    rfl
  rcases unexpected_eq c t with ⟨token, rest, hrest, hkind, herror⟩ | ⟨hend, herror⟩
  · obtain ⟨token', rest', hrest', hkind', -⟩ := exists_cons_of_kinds hkind (hrest ▸ h.kinds)
    rcases unexpected_eq c' t with ⟨_, _, hcons, -, herror'⟩ | ⟨hend', -⟩
    · obtain ⟨rfl, rfl⟩ := List.cons.inj (hrest'.symm.trans hcons)
      have htoken' := hget hc' hrest'
      rw [h.index] at htoken'
      rw [herror, herror', h.index, h.state]
      exact .unexpectedToken _ (hget hc hrest) htoken' hkind'
    · rw [Configuration.lookahead_eq, hrest', nextTerminal_cons, hkind'] at hend'
      exact absurd (congrArg Terminal.name hend') hkind
  · rw [← h.lookahead] at hend
    rcases unexpected_eq c' t with ⟨token', rest', hrest', hkind', -⟩ | ⟨-, herror'⟩
    · rw [Configuration.lookahead_eq, hrest', nextTerminal_cons] at hend
      exact absurd (congrArg Terminal.name hend) hkind'
    · rw [herror, herror', h.state]
      exact .unexpectedEnd _

theorem halts_of_parallel (hg : g.WellFormed) (ht : build policy (.ofGrammar g) columns = .ok t)
    (hc : t.Reaches (.start tokens) c) (hc' : t.Reaches (.start tokens') c') (h : c.Parallel tokens' c')
    (hhalt : t.step c = .halt o) : ∃ o', t.step c' = .halt o' ∧ Outcome.Corresponds tokens tokens' o o' := by
  have hsound := sound_of_reaches hg ht hc
  rcases halts_cases hg ht hsound.supports hhalt with ⟨hnone, rfl⟩ | ⟨count, haction, hcount, rfl⟩
  · rw [← h.state, ← h.lookahead] at hnone
    exact ⟨_, step_of_action?_eq_none hnone, corresponds_unexpected h hc hc'⟩
  · obtain ⟨hend, -, -⟩ := step_accepted ht hsound.supports hhalt
    have hleaves := hsound.leaves
    rw [untilEnd_eq_nil_iff.2 hend, List.append_nil, stackTrees_eq_append c.stack count, List.flatMap_append] at hleaves
    have hshort : ¬ isShort c'.stack count = true := by
      rw [isShort_iff, h.length]
      omega
    have hstep : t.step c' = .halt (.accepted (.node .root (topTrees c'.stack count))) := by
      rw [← h.state, ← h.lookahead] at haction
      rw [step, haction]
      exact if_neg hshort
    have htree : ((Tree.node .root (topTrees c.stack count)).refill
        (tokens'.drop (stackLeaves (c.stack.drop count)).length)).1 = .node .root (topTrees c'.stack count) := by
      rw [Tree.refill, (h.refillAll_topTrees count).2]
    refine ⟨_, hstep, ?_⟩
    rw [← htree]
    refine .accepted ?_
    rw [Tree.leaves_node, ← hleaves]
    exact List.drop_left.symm

/-! ### Runs -/

theorem exists_parallel (hg : g.WellFormed) (ht : build policy (.ofGrammar g) columns = .ok t)
    (hkinds : kinds tokens' = kinds tokens) (hreaches : t.Reaches (.start tokens) c) :
    ∃ c', t.Reaches (.start tokens') c' ∧ c.Parallel tokens' c' := by
  induction hreaches with
  | refl => exact ⟨_, .refl, .start hkinds⟩
  | tail hreaches hmoves ih =>
    obtain ⟨c', hreaches', hparallel⟩ := ih
    obtain ⟨d', hmoves', hd⟩ :=
      moves_of_parallel hg ht (sound_of_reaches hg ht hreaches).supports hparallel hmoves
    exact ⟨d', hreaches'.tail hmoves', hd⟩

theorem exists_corresponds (hg : g.WellFormed) (ht : build policy (.ofGrammar g) columns = .ok t)
    (hkinds : kinds tokens' = kinds tokens) (h : (t.parse tokens).outcome = some o) :
    ∃ o', (t.parse tokens').outcome = some o' ∧ Outcome.Corresponds tokens tokens' o o' := by
  obtain ⟨c, hreaches, hhalt⟩ := (outcome_parse_iff hg ht).1 h
  obtain ⟨c', hreaches', hparallel⟩ := exists_parallel hg ht hkinds hreaches
  obtain ⟨o', hhalt', hcorresponds⟩ := halts_of_parallel hg ht hreaches hreaches' hparallel hhalt
  exact ⟨o', (outcome_parse_iff hg ht).2 ⟨c', hreaches', hhalt'⟩, hcorresponds⟩

theorem rel_parse_of_kinds (hg : g.WellFormed) (ht : build policy (.ofGrammar g) columns = .ok t)
    (hkinds : kinds tokens' = kinds tokens) :
    Option.Rel (Outcome.Corresponds tokens tokens') (t.parse tokens).outcome (t.parse tokens').outcome := by
  cases houtcome : (t.parse tokens).outcome with
  | some o =>
    obtain ⟨o', houtcome', hcorresponds⟩ := exists_corresponds hg ht hkinds houtcome
    rw [houtcome']
    exact .some hcorresponds
  | none =>
    have hnone : (t.parse tokens').outcome = none := by
      rw [Option.eq_none_iff_forall_ne_some]
      intro o' houtcome'
      obtain ⟨o, ho, -⟩ := exists_corresponds hg ht hkinds.symm houtcome'
      cases houtcome.symm.trans ho
    rw [hnone]
    exact .none

theorem eq_of_corresponds {o o' : Outcome} (h : Outcome.Corresponds tokens (untilEnd tokens) o o') : o' = o := by
  cases h with
  | accepted hleaves => rw [← hleaves, ← List.append_nil (Tree.leaves _), Tree.refill_leaves]
  | unexpectedToken expected htoken htoken' hkind =>
    obtain ⟨more, happend, -⟩ := exists_eq_untilEnd_append tokens
    rw [happend, List.getElem?_append_left (List.getElem?_eq_some_iff.1 htoken').1, htoken'] at htoken
    rw [Option.some.inj htoken]
  | unexpectedEnd expected => rfl

/-- On tokens of the same kinds the parser never stops, or it stops in the same way: a tree has the other tokens for its leaves, an error tells of the other token. What stands behind the end of input makes no difference, nor does it whether the end is marked. -/
theorem outcome_of_kinds (hg : Grammar.ofSource source = .ok g) (ht : build policy (.ofGrammar g) columns = .ok t) :
    (∀ tokens tokens', kinds tokens' = kinds tokens →
      Option.Rel (Outcome.Corresponds tokens tokens') (t.parse tokens).outcome (t.parse tokens').outcome) ∧
    ∀ tokens, (t.parse (untilEnd tokens)).outcome = (t.parse tokens).outcome := by
  have hwell := Grammar.wellFormed_of_ofSource hg
  refine ⟨fun tokens tokens' hkinds => rel_parse_of_kinds hwell ht hkinds, fun tokens => ?_⟩
  have hrel : Option.Rel (Outcome.Corresponds tokens (untilEnd tokens)) (t.parse tokens).outcome
      (t.parse (untilEnd tokens)).outcome := rel_parse_of_kinds hwell ht (kinds_untilEnd tokens)
  generalize (t.parse tokens).outcome = outcome at hrel ⊢
  generalize (t.parse (untilEnd tokens)).outcome = outcome' at hrel ⊢
  cases hrel with
  | none => rfl
  | some hcorresponds => rw [eq_of_corresponds hcorresponds]

/-- The second input has other texts, tells places, marks its end and goes on behind it. -/
theorem outcome_of_kinds_sum : ∃ g t, Grammar.ofSource "__root : @sum ; sum : @sum plus id ; sum : id ;" = .ok g
    ∧ build .reject (.ofGrammar g) g = .ok t ∧
    let sum (x y : Token) : Tree := .node .root
      [.node ⟨"sum"⟩ [.node ⟨"sum"⟩ [.leaf x], .leaf (.plain "plus"), .leaf y]]
    let tokens : List Token := [.plain "id", .plain "plus", .plain "id"]
    let tokens' : List Token :=
      [⟨"id", "x", some ⟨1, 1⟩⟩, .plain "plus", ⟨"id", "y", some ⟨1, 8⟩⟩, .plain "", .plain "plus"]
    kinds tokens' = kinds tokens
      ∧ (t.parse tokens).outcome = some (.accepted (sum (.plain "id") (.plain "id")))
      ∧ (t.parse tokens').outcome = some (.accepted (sum ⟨"id", "x", some ⟨1, 1⟩⟩ ⟨"id", "y", some ⟨1, 8⟩⟩))
      ∧ Option.Rel (Outcome.Corresponds tokens tokens') (t.parse tokens).outcome (t.parse tokens').outcome
      ∧ (t.parse (untilEnd tokens')).outcome = (t.parse tokens').outcome := by
  let sum (x y : Token) : Tree := .node .root
    [.node ⟨"sum"⟩ [.node ⟨"sum"⟩ [.leaf x], .leaf (.plain "plus"), .leaf y]]
  obtain ⟨g, t, hg, ht, houtcome, houtcome'⟩ := exists_table_of_within .reject 20
    "__root : @sum ; sum : @sum plus id ; sum : id ;"
    (P := fun _ t => (t.parse [.plain "id", .plain "plus", .plain "id"]).outcome
        = some (.accepted (sum (.plain "id") (.plain "id")))
      ∧ (t.parse [⟨"id", "x", some ⟨1, 1⟩⟩, .plain "plus", ⟨"id", "y", some ⟨1, 8⟩⟩, .plain "", .plain "plus"]).outcome
        = some (.accepted (sum ⟨"id", "x", some ⟨1, 1⟩⟩ ⟨"id", "y", some ⟨1, 8⟩⟩)))
    (by decide +kernel)
  obtain ⟨hrel, huntilEnd⟩ := outcome_of_kinds hg ht
  have hkinds : kinds [⟨"id", "x", some ⟨1, 1⟩⟩, .plain "plus", ⟨"id", "y", some ⟨1, 8⟩⟩, .plain "", .plain "plus"]
      = kinds [.plain "id", .plain "plus", .plain "id"] := by decide +kernel
  exact ⟨g, t, hg, ht, hkinds, houtcome, houtcome', hrel _ _ hkinds, huntilEnd _⟩

end Table

end CanonicalLR
