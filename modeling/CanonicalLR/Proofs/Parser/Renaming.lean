import CanonicalLR.Proofs.Automaton.Renaming
import CanonicalLR.Proofs.Parser.Errors
import CanonicalLR.Proofs.Parser.Safety
import Mathlib.Logic.Equiv.Basic

/-!
# Parsers of renamed grammars

Two parsers read the same tokens, the second with other kinds. Their stacks hold the same trees but for the names, so they spell the same path, renamed, and the items behind it are the same, renamed. In a table without conflicts the items decide on the action, so both parsers do the same, with other states. A step of the one is therefore a step of the other (`Mirrors.moves`, `Mirrors.halts`), and from the same start the two runs go side by side to the same end (`rel_parse`). The numbers of the states never enter.
-/

namespace CanonicalLR

open Relation

namespace Renaming

variable {ρ : Renaming} {g h columns columns' : Grammar} {policy policy' : ConflictPolicy} {t u : Table}
  {path : List Symbol} {state state' : Nat} {x : Terminal}

/-- The name that a kind of token gets. -/
def kind (ρ : Renaming) (kind : String) : String := (ρ.terminal ⟨kind⟩).name

def token (ρ : Renaming) (token : Token) : Token := { token with kind := ρ.kind token.kind }

mutual

def tree (ρ : Renaming) : Tree → Tree
  | .leaf token => .leaf (ρ.token token)
  | .node name children => .node (ρ.nonterminal name) (ρ.trees children)

def trees (ρ : Renaming) : List Tree → List Tree
  | [] => []
  | c :: rest => ρ.tree c :: ρ.trees rest

end

theorem trees_eq_map (ts : List Tree) : ρ.trees ts = ts.map ρ.tree := by
  induction ts with
  | nil => rfl
  | cons c rest ih => rw [trees, ih, List.map_cons]

theorem symbol_tree (t : Tree) : (ρ.tree t).symbol = ρ.symbol t.symbol := by
  cases t with
  | leaf token => rfl
  | node name children =>
    rw [tree]
    rfl

theorem nextTerminal_map (rest : List Token) : nextTerminal (rest.map ρ.token) = ρ.terminal (nextTerminal rest) := by
  cases rest with
  | nil => exact ρ.terminal_endMarker.symm
  | cons token rest => rfl

theorem isEmpty_kind (kind : String) : (ρ.kind kind).isEmpty = kind.isEmpty := by
  rw [Bool.eq_iff_iff]
  exact Terminal.isEnd_iff.trans (terminal_eq_endMarker_iff.trans Terminal.isEnd_iff.symm)

/-- The outcome with other names. The terminals that an error lists are the given ones. -/
inductive Changes (ρ : Renaming) (expected : List Terminal) : Outcome → Outcome → Prop where
  | accepted (tree : Tree) : Changes ρ expected (.accepted tree) (.accepted (ρ.tree tree))
  | unexpectedToken (index : Nat) (kind : String) (location : Option Location) : Changes ρ expected
    (.rejected (.unexpectedToken index kind location (expected.map Terminal.text)))
    (.rejected (.unexpectedToken index (ρ.kind kind) location ((expected.map ρ.terminal).map Terminal.text)))
  | unexpectedEnd : Changes ρ expected (.rejected (.unexpectedEnd (expected.map Terminal.text)))
    (.rejected (.unexpectedEnd ((expected.map ρ.terminal).map Terminal.text)))

/-! ### Actions -/

namespace Renames

theorem isSome_action?_iff (hgh : ρ.Renames g h) (ht : Table.build policy (.ofGrammar g) columns = .ok t)
    (hu : Table.build policy' (.ofGrammar h) columns' = .ok u)
    (hwalk : (Automaton.ofGrammar g).walk? path = some state)
    (hwalk' : (Automaton.ofGrammar h).walk? (path.map ρ.symbol) = some state') :
    (u.action? state' (ρ.terminal x)).isSome ↔ (t.action? state x).isSome := by
  rw [Table.isSome_action?_iff hu hwalk', Table.isSome_action?_iff ht hwalk]
  simp only [hgh.places_iff]
  constructor
  · intro hitem
    obtain ⟨_, ⟨i, hi, rfl⟩, hcases⟩ := hitem
    rw [current?_item_eq_terminal_iff, current?_item_eq_none_iff, lookahead_item_eq_iff] at hcases
    exact ⟨i, hi, hcases⟩
  · intro hitem
    obtain ⟨i, hi, hcases⟩ := hitem
    rw [← current?_item_eq_terminal_iff (ρ := ρ), ← current?_item_eq_none_iff (ρ := ρ),
      ← lookahead_item_eq_iff (ρ := ρ)] at hcases
    exact ⟨_, ⟨i, hi, rfl⟩, hcases⟩

theorem exists_shift (hgh : ρ.Renames g h) (ht : Table.build policy (.ofGrammar g) columns = .ok t)
    (hu : Table.build policy' (.ofGrammar h) columns' = .ok u) (hconflicts : u.conflicts = [])
    (hwalk : (Automaton.ofGrammar g).walk? path = some state)
    (hwalk' : (Automaton.ofGrammar h).walk? (path.map ρ.symbol) = some state') {target : Nat}
    (haction : t.action? state x = some (.shift target)) :
    ∃ target', u.action? state' (ρ.terminal x) = some (.shift target') := by
  obtain ⟨i, hi, hcurrent⟩ := Automaton.exists_places_of_goto? hwalk (Table.goto?_of_shift ht haction)
  obtain ⟨target', -, haction'⟩ := Table.shift_of_places hu hconflicts hwalk' (hgh.places hi)
    (current?_item_eq_some_iff.2 hcurrent)
  exact ⟨target', haction'⟩

theorem action?_of_completion (hgh : ρ.Renames g h) (ht : Table.build policy (.ofGrammar g) columns = .ok t)
    (hu : Table.build policy' (.ofGrammar h) columns' = .ok u) (hconflicts : u.conflicts = [])
    (hwalk : (Automaton.ofGrammar g).walk? path = some state)
    (hwalk' : (Automaton.ofGrammar h).walk? (path.map ρ.symbol) = some state') {entry : Action}
    (haction : t.action? state x = some entry) (hshift : ∀ target, entry ≠ .shift target) :
    u.action? state' (ρ.terminal x) = some (ρ.action entry) := by
  obtain ⟨p, hplaces, rfl⟩ := Table.exists_final_of_action? ht hwalk haction hshift
  have hplaces' := hgh.places hplaces
  rw [item_final] at hplaces'
  rw [← completion_item, item_final]
  exact Table.completion_of_places hu hconflicts hwalk' hplaces'

theorem exists_goto (hgh : ρ.Renames g h) (ht : Table.build policy (.ofGrammar g) columns = .ok t)
    (hu : Table.build policy' (.ofGrammar h) columns' = .ok u)
    (hwalk : (Automaton.ofGrammar g).walk? path = some state)
    (hwalk' : (Automaton.ofGrammar h).walk? (path.map ρ.symbol) = some state') {n : NonTerminal} {target : Nat}
    (hgoto : t.goto? state n = some target) : ∃ target', u.goto? state' (ρ.nonterminal n) = some target' := by
  rw [Table.goto?_eq ht] at hgoto
  obtain ⟨target', htarget'⟩ := hgh.exists_goto? hwalk hwalk' hgoto
  exact ⟨target', (Table.goto?_eq hu _ _).trans htarget'⟩

theorem expected_eq (hgh : ρ.Renames g h) (ht : Table.build policy (.ofGrammar g) g = .ok t)
    (hu : Table.build policy' (.ofGrammar h) h = .ok u)
    (hwalk : (Automaton.ofGrammar g).walk? path = some state)
    (hwalk' : (Automaton.ofGrammar h).walk? (path.map ρ.symbol) = some state') :
    u.expected state' = (t.expected state).map ρ.terminal := by
  have hcolumns : u.terminals = t.terminals.map ρ.terminal := by
    rw [Table.terminals_of_build hu, Table.terminals_of_build ht, hgh.terminals_eq, List.map_append, List.map_singleton,
      ρ.terminal_endMarker]
  rw [Table.expected_eq, Table.expected_eq, hcolumns, List.filter_map]
  refine congrArg (List.map ρ.terminal) (List.filter_congr fun x _ => ?_)
  rw [Bool.eq_iff_iff]
  exact hgh.isSome_action?_iff ht hu hwalk hwalk'

end Renames

/-! ### Steps -/

/-- The same trees with other names, and before them the same tokens with other kinds. -/
structure Mirrors (ρ : Renaming) (c c' : Configuration) : Prop where
  trees : c'.stack.map Frame.tree = (c.stack.map Frame.tree).map ρ.tree
  rest : c'.rest = c.rest.map ρ.token
  index : c'.index = c.index

theorem topTrees_of_trees {stack stack' : List Frame}
    (htrees : stack'.map Frame.tree = (stack.map Frame.tree).map ρ.tree) (count : Nat) :
    (stack'.drop count).map Frame.tree = ((stack.drop count).map Frame.tree).map ρ.tree
      ∧ topTrees stack' count = (topTrees stack count).map ρ.tree := by
  simp only [topTrees, List.map_drop, List.map_take, List.map_reverse, htrees, and_self]

theorem stackSymbols_of_trees {stack stack' : List Frame}
    (htrees : stack'.map Frame.tree = (stack.map Frame.tree).map ρ.tree) :
    stackSymbols stack' = (stackSymbols stack).map ρ.symbol := by
  rw [← map_symbol_stackTrees, ← map_symbol_stackTrees, stackTrees, stackTrees, htrees]
  simp [symbol_tree]

variable {c c' d : Configuration} {tokens : List Token}

namespace Mirrors

theorem lookahead (hc : ρ.Mirrors c c') : c'.lookahead = ρ.terminal c.lookahead := by
  rw [Configuration.lookahead_eq, Configuration.lookahead_eq, hc.rest, nextTerminal_map]

theorem length (hc : ρ.Mirrors c c') : c'.stack.length = c.stack.length := by
  simpa using congrArg List.length hc.trees

theorem walk? (hc : ρ.Mirrors c c') (hsupports' : (Automaton.ofGrammar h).Supports c'.stack) :
    (Automaton.ofGrammar h).walk? ((stackSymbols c.stack).map ρ.symbol) = some c'.state := by
  rw [← stackSymbols_of_trees hc.trees]
  exact hsupports'.walk?

theorem moves (hgh : ρ.Renames g h) (ht : Table.build policy (.ofGrammar g) columns = .ok t)
    (hu : Table.build policy' (.ofGrammar h) columns' = .ok u) (hconflicts : u.conflicts = [])
    (hsupports : (Automaton.ofGrammar g).Supports c.stack) (hsupports' : (Automaton.ofGrammar h).Supports c'.stack)
    (hc : ρ.Mirrors c c') (hmoves : t.Moves c d) : ∃ d', u.Moves c' d' ∧ ρ.Mirrors d d' := by
  have hwalk' := hc.walk? hsupports'
  rcases Table.moves_iff.1 hmoves with
    ⟨target, token, rest, haction, hrest, rfl⟩ | ⟨name, count, target, haction, hcount, hgoto, rfl⟩
  · obtain ⟨target', haction'⟩ := hgh.exists_shift ht hu hconflicts hsupports.walk? hwalk' haction
    rw [← hc.lookahead] at haction'
    have hrest' := hc.rest
    rw [hrest, List.map_cons] at hrest'
    refine ⟨_, Table.moves_iff.2 (.inl ⟨target', _, _, haction', hrest', rfl⟩), ?_, rfl, congrArg (· + 1) hc.index⟩
    rw [List.map_cons, List.map_cons, List.map_cons, hc.trees]
    rfl
  · have haction' := hgh.action?_of_completion ht hu hconflicts hsupports.walk? hwalk' haction fun _ => nofun
    rw [← hc.lookahead] at haction'
    obtain ⟨hdrop, htop⟩ := topTrees_of_trees hc.trees count
    have hbelow := (hsupports'.drop count).walk?
    rw [stackSymbols_of_trees hdrop] at hbelow
    obtain ⟨target', hgoto'⟩ := hgh.exists_goto ht hu (hsupports.drop count).walk? hbelow hgoto
    refine ⟨_, Table.moves_iff.2 (.inr ⟨_, count, target', haction', hc.length ▸ hcount, hgoto', rfl⟩), ?_, hc.rest, hc.index⟩
    rw [List.map_cons, List.map_cons, List.map_cons, hdrop, htop, tree, trees_eq_map]

theorem changes_unexpected (hgh : ρ.Renames g h) (ht : Table.build policy (.ofGrammar g) g = .ok t)
    (hu : Table.build policy' (.ofGrammar h) h = .ok u) (hsupports : (Automaton.ofGrammar g).Supports c.stack)
    (hsupports' : (Automaton.ofGrammar h).Supports c'.stack) (hc : ρ.Mirrors c c') :
    ρ.Changes (t.expected c.state) (.rejected (c.unexpected t)) (.rejected (c'.unexpected u)) := by
  have hexpected := hgh.expected_eq ht hu hsupports.walk? (hc.walk? hsupports')
  have hexpected' : u.expected c'.state = (t.expected c.state).map ρ.terminal := hexpected
  unfold Configuration.unexpected
  rw [hexpected', hc.rest, hc.index]
  cases c.rest with
  | nil => exact .unexpectedEnd
  | cons token rest =>
    simp only [List.map_cons, Renaming.token, isEmpty_kind]
    split
    · exact .unexpectedEnd
    · exact .unexpectedToken _ _ _

theorem halts (hgh : ρ.Renames g h) (hg : g.WellFormed) (ht : Table.build policy (.ofGrammar g) g = .ok t)
    (hu : Table.build policy' (.ofGrammar h) h = .ok u) (hconflicts : u.conflicts = [])
    (hsupports : (Automaton.ofGrammar g).Supports c.stack) (hsupports' : (Automaton.ofGrammar h).Supports c'.stack)
    (hc : ρ.Mirrors c c') {o : Outcome} (hhalt : t.step c = .halt o) :
    ∃ o', u.step c' = .halt o' ∧ ρ.Changes (t.expected c.state) o o' := by
  have hwalk' := hc.walk? hsupports'
  rcases Table.halts_cases hg ht hsupports hhalt with ⟨hnone, rfl⟩ | ⟨count, haction, hcount, rfl⟩
  · have hnone' : u.action? c'.state c'.lookahead = none := by
      rw [hc.lookahead, ← Option.not_isSome_iff_eq_none, hgh.isSome_action?_iff ht hu hsupports.walk? hwalk']
      exact Option.not_isSome_iff_eq_none.2 hnone
    exact ⟨_, Table.step_of_action?_eq_none hnone', changes_unexpected hgh ht hu hsupports hsupports' hc⟩
  · have haction' := hgh.action?_of_completion ht hu hconflicts hsupports.walk? hwalk' haction fun _ => nofun
    rw [← hc.lookahead] at haction'
    have hstep : u.step c' = .halt (.accepted (.node .root (topTrees c'.stack count))) := by
      have hshort : ¬ isShort c'.stack count = true := by
        rw [isShort_iff, hc.length]
        omega
      rw [Table.step, haction']
      exact if_neg hshort
    have htree : ρ.tree (.node .root (topTrees c.stack count)) = .node .root (topTrees c'.stack count) := by
      rw [tree, trees_eq_map, ρ.nonterminal_root, (topTrees_of_trees hc.trees count).2]
    exact ⟨_, hstep, htree ▸ .accepted _⟩

end Mirrors

/-! ### Runs -/

theorem mirrors_start (tokens : List Token) : ρ.Mirrors (.start tokens) (.start (tokens.map ρ.token)) := ⟨rfl, rfl, rfl⟩

/-- Where the one parser gets, the other one does. -/
theorem exists_mirror (hgh : ρ.Renames g h) (hg : g.WellFormed) (ht : Table.build policy (.ofGrammar g) columns = .ok t)
    (hu : Table.build policy' (.ofGrammar h) columns' = .ok u) (hconflicts : u.conflicts = [])
    (hreaches : t.Reaches (.start tokens) c) :
    ∃ c', u.Reaches (.start (tokens.map ρ.token)) c' ∧ ρ.Mirrors c c' := by
  induction hreaches with
  | refl => exact ⟨_, .refl, mirrors_start tokens⟩
  | tail hreaches hmoves ih =>
    obtain ⟨c', hreaches', hc⟩ := ih
    obtain ⟨d', hmoves', hd⟩ := hc.moves hgh ht hu hconflicts (Table.sound_of_reaches hg ht hreaches).supports
      (Table.sound_of_reaches (hgh.wellFormed hg) hu hreaches').supports hmoves
    exact ⟨d', hreaches'.tail hmoves', hd⟩

/-- A step of the other parser is a step of the one, since it makes one and no other. -/
theorem exists_original (hgh : ρ.Renames g h) (hg : g.WellFormed) (ht : Table.build policy (.ofGrammar g) g = .ok t)
    (hu : Table.build policy' (.ofGrammar h) h = .ok u) (hconflicts : u.conflicts = [])
    (hreaches : u.Reaches (.start (tokens.map ρ.token)) c') :
    ∃ c, t.Reaches (.start tokens) c ∧ ρ.Mirrors c c' := by
  induction hreaches with
  | refl => exact ⟨_, .refl, mirrors_start tokens⟩
  | tail hreaches' hmoves' ih =>
    obtain ⟨c, hreaches, hc⟩ := ih
    have hsupports := (Table.sound_of_reaches hg ht hreaches).supports
    have hsupports' := (Table.sound_of_reaches (hgh.wellFormed hg) hu hreaches').supports
    cases hstep : t.step c with
    | halt o =>
      obtain ⟨o', ho', -⟩ := hc.halts hgh hg ht hu hconflicts hsupports hsupports' hstep
      exact absurd hmoves' (Table.not_moves_of_halt ho')
    | move move d =>
      obtain ⟨d', hd', hd⟩ := hc.moves hgh ht hu hconflicts hsupports hsupports' ⟨move, hstep⟩
      exact ⟨d, hreaches.tail ⟨move, hstep⟩, hmoves'.unique hd' ▸ hd⟩

theorem rel_parse (hgh : ρ.Renames g h) (hg : g.WellFormed) (ht : Table.build policy (.ofGrammar g) g = .ok t)
    (hu : Table.build policy' (.ofGrammar h) h = .ok u) (hconflicts : u.conflicts = []) (tokens : List Token) :
    Option.Rel (ρ.Changes (t.expected (t.parse tokens).last.state)) (t.parse tokens).outcome
      (u.parse (tokens.map ρ.token)).outcome := by
  have hh := hgh.wellFormed hg
  cases houtcome : (t.parse tokens).outcome with
  | some o =>
    obtain ⟨c, hreaches, hhalt⟩ := (Table.outcome_parse_iff hg ht).1 houtcome
    obtain ⟨c', hreaches', hc⟩ := exists_mirror hgh hg ht hu hconflicts hreaches
    obtain ⟨o', hhalt', hchanges⟩ := hc.halts hgh hg ht hu hconflicts (Table.sound_of_reaches hg ht hreaches).supports
      (Table.sound_of_reaches hh hu hreaches').supports hhalt
    rw [Table.last_parse hg ht hreaches hhalt, (Table.outcome_parse_iff hh hu).2 ⟨c', hreaches', hhalt'⟩]
    exact .some hchanges
  | none =>
    have hnone : (u.parse (tokens.map ρ.token)).outcome = none := by
      rw [Option.eq_none_iff_forall_ne_some]
      intro o' ho'
      obtain ⟨c', hreaches', hhalt'⟩ := (Table.outcome_parse_iff hh hu).1 ho'
      obtain ⟨c, hreaches, hc⟩ := exists_original hgh hg ht hu hconflicts hreaches'
      cases hstep : t.step c with
      | halt o => cases houtcome.symm.trans ((Table.outcome_parse_iff hg ht).2 ⟨c, hreaches, hstep⟩)
      | move move d =>
        obtain ⟨d', hmoves', -⟩ := hc.moves hgh ht hu hconflicts (Table.sound_of_reaches hg ht hreaches).supports
          (Table.sound_of_reaches hh hu hreaches').supports ⟨move, hstep⟩
        exact Table.not_moves_of_halt hhalt' hmoves'
    rw [hnone]
    exact .none

theorem size_eq (hgh : ρ.Renames g h) (ht : Table.build policy (.ofGrammar g) columns = .ok t)
    (hu : Table.build policy' (.ofGrammar h) columns' = .ok u) : u.size = t.size := by
  obtain ⟨rows, conflicts, hrows, rfl⟩ := Table.build_eq_ok_iff.1 ht
  obtain ⟨rows', conflicts', hrows', rfl⟩ := Table.build_eq_ok_iff.1 hu
  rw [Table.size, Table.size, Table.length_fillRows hrows, Table.length_fillRows hrows', hgh.perm_states.length_eq,
    List.length_map]

/-- The renamed grammar can be written if its names can, and it is refused exactly when the grammar is. Otherwise the tables have as many states, and the parsers end in the same way, with other names. -/
theorem tables_of_renames {source : String} (hg : Grammar.ofSource source = .ok g) (ρ : Renaming)
    (hlegal : ∀ p ∈ g.productions, Lexeme.Legal (ρ.nonterminal p.name).name ∧
      ∀ x ∈ p.symbols, Lexeme.Legal (ρ.symbol x).name) :
    (∃ source' h, Grammar.ofSource source' = .ok h ∧ ρ.Renames g h) ∧ ∀ h, ρ.Renames g h →
      ((∃ u, Table.ofGrammar .reject h = .ok u) ↔ ∃ t, Table.ofGrammar .reject g = .ok t) ∧
      ∀ t u, Table.ofGrammar .reject g = .ok t → Table.ofGrammar .reject h = .ok u → u.size = t.size ∧
        ∀ tokens, Option.Rel (ρ.Changes (t.expected (t.parse tokens).last.state)) (t.parse tokens).outcome
          (u.parse (tokens.map ρ.token)).outcome := by
  refine ⟨(describable_map (Grammar.describable_of_ofSource hg) hlegal).exists_ofSource, fun h hgh => ?_⟩
  refine ⟨hgh.exists_reject_iff, fun t u ht hu => ⟨size_eq hgh ht hu, fun tokens => ?_⟩⟩
  exact rel_parse hgh (Grammar.wellFormed_of_ofSource hg) ht hu (Table.conflicts_of_reject hu) tokens

/-- Two terminals get each other's names, and so do two nonterminals. -/
def exchange (s t : Terminal) (m n : NonTerminal) (hs : .endMarker ≠ s) (ht : .endMarker ≠ t) (hm : .root ≠ m)
    (hn : .root ≠ n) : Renaming where
  terminal := Equiv.swap s t
  nonterminal := Equiv.swap m n
  terminal_injective := (Equiv.swap s t).injective
  nonterminal_injective := (Equiv.swap m n).injective
  terminal_endMarker := Equiv.swap_apply_of_ne_of_ne hs ht
  nonterminal_root := Equiv.swap_apply_of_ne_of_ne hm hn

/-- With `a` and `b` exchanged, the states behind them exchange their numbers, and the error lists them in the other order. -/
theorem tables_of_renames_exchanged : ∃ (ρ : Renaming) (g h : Grammar) (t u : Table),
    Grammar.ofSource "__root : @s ; s : a @s ; s : b ;" = .ok g
      ∧ Grammar.ofSource "__root : @z ; z : b @z ; z : a ;" = .ok h ∧ ρ.Renames g h
      ∧ Table.ofGrammar .reject g = .ok t ∧ Table.ofGrammar .reject h = .ok u ∧ u.size = t.size
      ∧ (t.parse [.plain "a"]).outcome = some (.rejected (.unexpectedEnd ["a", "b"]))
      ∧ (u.parse [⟨"b", "a", none⟩]).outcome = some (.rejected (.unexpectedEnd ["b", "a"]))
      ∧ Option.Rel (ρ.Changes (t.expected (t.parse [.plain "a"]).last.state)) (t.parse [.plain "a"]).outcome
        (u.parse [⟨"b", "a", none⟩]).outcome := by
  let ρ := exchange ⟨"a"⟩ ⟨"b"⟩ ⟨"s"⟩ ⟨"z"⟩ (by decide) (by decide) (by decide) (by decide)
  obtain ⟨g, t, hg, ht, hproductions, houtcome⟩ := Table.exists_table_of_within .reject 20
    "__root : @s ; s : a @s ; s : b ;" (P := fun g t => g.productions
        = [⟨.root, [.nonterminal ⟨"s"⟩]⟩, ⟨⟨"s"⟩, [.terminal ⟨"a"⟩, .nonterminal ⟨"s"⟩]⟩, ⟨⟨"s"⟩, [.terminal ⟨"b"⟩]⟩]
      ∧ (t.parse [.plain "a"]).outcome = some (.rejected (.unexpectedEnd ["a", "b"])))
    (by decide +kernel)
  obtain ⟨h, u, hh, hu, hproductions', houtcome'⟩ := Table.exists_table_of_within .reject 20
    "__root : @z ; z : b @z ; z : a ;" (P := fun h u => h.productions
        = [⟨.root, [.nonterminal ⟨"z"⟩]⟩, ⟨⟨"z"⟩, [.terminal ⟨"b"⟩, .nonterminal ⟨"z"⟩]⟩, ⟨⟨"z"⟩, [.terminal ⟨"a"⟩]⟩]
      ∧ (u.parse [⟨"b", "a", none⟩]).outcome = some (.rejected (.unexpectedEnd ["b", "a"])))
    (by decide +kernel)
  have hrenames : ρ.Renames g h := by
    rw [Renames, hproductions, hproductions']
    decide +kernel
  have hlegal : ∀ p ∈ g.productions, Lexeme.Legal (ρ.nonterminal p.name).name ∧
      ∀ x ∈ p.symbols, Lexeme.Legal (ρ.symbol x).name := by
    rw [hproductions]
    decide +kernel
  have htokens : [Token.plain "a"].map ρ.token = [⟨"b", "a", none⟩] := by decide +kernel
  obtain ⟨-, htables⟩ := (tables_of_renames hg ρ hlegal).2 h hrenames
  obtain ⟨hsize, hparse⟩ := htables t u ht hu
  have hrel := hparse [.plain "a"]
  rw [htokens] at hrel
  exact ⟨ρ, g, h, t, u, hg, hh, hrenames, ht, hu, hsize, houtcome, houtcome', hrel⟩

end Renaming

end CanonicalLR
