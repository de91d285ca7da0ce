import CanonicalLR.Proofs.Parser.Termination
import CanonicalLR.Proofs.Table.Evaluation

/-!
# Two stacks

A parser that keeps its states and its trees on two stacks relies on their being in step. It asserts so whenever it takes off the trees of a production, it expects a token whenever it shifts and a successor whenever it has reduced. Here the two stacks are read off the frames of a configuration, and an iteration on the one is a move of the other (`next?_twoStacks`), so what is known of the configurations that are reached tells that no such expectation ever fails (`Stacks.Intact`). That a reduction finds a successor is a matter of the item it came from: the item's start stands in the state that is laid bare, where some item expects its nonterminal, for the start of the root's production behind the empty path is never reduced but accepted.
-/

namespace CanonicalLR

open Relation

/-- States and trees, both with the top at the end, and the tokens to come. -/
structure Stacks where
  states : List Nat
  trees : List Tree
  rest : List Token

namespace Stacks

def start (tokens : List Token) : Stacks := ⟨[0], [], tokens⟩

/-- The topmost `count` states and trees are taken off, provided that there are as many trees and that there is one state more than there are trees. -/
def pop? (s : Stacks) (count : Nat) : Option (Stacks × List Tree) :=
  if count ≤ s.trees.length ∧ s.states.length = s.trees.length + 1 then
    some ({ s with
        states := s.states.take (s.states.length - count)
        trees := s.trees.take (s.trees.length - count) },
      s.trees.drop (s.trees.length - count))
  else none

def push (s : Stacks) (state : Nat) (tree : Tree) : Stacks :=
  { s with states := s.states ++ [state], trees := s.trees ++ [tree] }

/-- What the state on top does on the next terminal. -/
def action? (s : Stacks) (t : Table) : Option Action :=
  s.states.getLast?.bind (t.action? · (nextTerminal s.rest))

/-- One iteration. There is no next one where the parser ends, and none where something that it relies on fails. -/
def next? (t : Table) (s : Stacks) : Option Stacks :=
  match s.action? t with
  | some (.shift target) =>
    match s.rest with
    | [] => none
    | token :: rest => some ({ s with rest }.push target (.leaf token))
  | some (.reduce name count) => do
    let (below, children) ← s.pop? count
    let exposed ← below.states.getLast?
    let target ← t.goto? exposed name
    return below.push target (.node name children)
  | _ => none

/-- The stacks of some iteration of the parser on the tokens. -/
def Occurs (t : Table) (tokens : List Token) (s : Stacks) : Prop :=
  ReflTransGen (fun s s' => s.next? t = some s') (start tokens) s

end Stacks

/-! ### The stacks of a configuration -/

/-- The states on a stack, from the bottom. -/
def stackStates (stack : List Frame) : List Nat := 0 :: (stack.map Frame.state).reverse

theorem stackStates_cons (f : Frame) (stack : List Frame) :
    stackStates (f :: stack) = stackStates stack ++ [f.state] := by
  simp [stackStates]

theorem length_stackStates (stack : List Frame) : (stackStates stack).length = stack.length + 1 := by
  simp [stackStates]

theorem getLast?_stackStates (stack : List Frame) : (stackStates stack).getLast? = some (topState stack) := by
  cases stack with
  | nil => rfl
  | cons f rest =>
    rw [stackStates_cons, List.getLast?_concat]
    rfl

theorem take_stackStates (stack : List Frame) {count : Nat} (hcount : count ≤ stack.length) :
    (stackStates stack).take ((stackStates stack).length - count) = stackStates (stack.drop count) := by
  have hsplit : stackStates stack
      = stackStates (stack.drop count) ++ ((stack.take count).map Frame.state).reverse := by
    rw [stackStates, stackStates, List.cons_append, ← List.reverse_append, ← List.map_append,
      List.take_append_drop]
  rw [hsplit]
  apply List.take_left'
  rw [List.length_append, List.length_reverse, List.length_map, List.length_take]
  omega

theorem take_stackTrees (stack : List Frame) (count : Nat) :
    (stackTrees stack).take ((stackTrees stack).length - count) = stackTrees (stack.drop count)
      ∧ (stackTrees stack).drop ((stackTrees stack).length - count) = topTrees stack count := by
  have hlength : (stackTrees stack).length - count = (stackTrees (stack.drop count)).length := by
    rw [length_stackTrees, length_stackTrees, List.length_drop]
  rw [hlength, stackTrees_eq_append stack count]
  exact ⟨List.take_left, List.drop_left⟩

namespace Configuration

def twoStacks (c : Configuration) : Stacks := ⟨stackStates c.stack, stackTrees c.stack, c.rest⟩

@[simp] theorem rest_twoStacks (c : Configuration) : c.twoStacks.rest = c.rest := rfl

@[simp] theorem length_trees_twoStacks (c : Configuration) : c.twoStacks.trees.length = c.stack.length :=
  length_stackTrees c.stack

@[simp] theorem length_states_twoStacks (c : Configuration) : c.twoStacks.states.length = c.stack.length + 1 :=
  length_stackStates c.stack

@[simp] theorem getLast?_states_twoStacks (c : Configuration) : c.twoStacks.states.getLast? = some c.state :=
  getLast?_stackStates c.stack

@[simp] theorem action?_twoStacks (c : Configuration) (t : Table) :
    c.twoStacks.action? t = t.action? c.state c.lookahead := by
  rw [Stacks.action?, getLast?_states_twoStacks]
  rfl

theorem push_twoStacks (c : Configuration) (state : Nat) (tree : Tree) :
    c.twoStacks.push state tree = { c with stack := ⟨state, tree⟩ :: c.stack }.twoStacks := by
  simp [Stacks.push, twoStacks, stackStates_cons]

theorem pop?_twoStacks (c : Configuration) {count : Nat} (hcount : count ≤ c.stack.length) : c.twoStacks.pop? count
    = some ({ c with stack := c.stack.drop count }.twoStacks, topTrees c.stack count) := by
  obtain ⟨htake, hdrop⟩ := take_stackTrees c.stack count
  rw [Stacks.pop?, length_trees_twoStacks, length_states_twoStacks, if_pos ⟨hcount, rfl⟩,
    ← length_stackStates, ← length_stackTrees]
  simp only [twoStacks, take_stackStates c.stack hcount, htake, hdrop]

theorem pop?_twoStacks_eq_none (c : Configuration) {count : Nat} (hcount : c.stack.length < count) :
    c.twoStacks.pop? count = none := by
  rw [Stacks.pop?, length_trees_twoStacks, if_neg]
  exact fun h => absurd h.1 (Nat.not_le.2 hcount)

end Configuration

namespace Table

variable {t : Table} {tokens : List Token}

theorem next?_twoStacks (t : Table) (c : Configuration) {s : Stacks} :
    c.twoStacks.next? t = some s ↔ ∃ c', t.Moves c c' ∧ c'.twoStacks = s := by
  rw [Stacks.next?, c.action?_twoStacks t]
  simp only [moves_iff]
  cases haction : t.action? c.state c.lookahead with
  | none => simp
  | some entry =>
    cases entry with
    | goto target => simp
    | accept count => simp
    | shift target =>
      cases hrest : c.rest with
      | nil => simp [hrest]
      | cons token rest => simp [hrest, Configuration.twoStacks, Stacks.push, stackStates_cons]
    | reduce name count =>
      rcases Nat.lt_or_ge c.stack.length count with hshort | hcount
      · simp [c.pop?_twoStacks_eq_none hshort, Nat.not_le.2 hshort]
      · cases hgoto : t.goto? (topState (c.stack.drop count)) name with
        | none => simp [c.pop?_twoStacks hcount, Configuration.state, hgoto]
        | some target => simp [c.pop?_twoStacks hcount, Configuration.state, hgoto, hcount, Configuration.push_twoStacks]

theorem occurs_iff {s : Stacks} : s.Occurs t tokens ↔ ∃ c, t.Reaches (.start tokens) c ∧ c.twoStacks = s := by
  constructor
  · intro h
    induction h with
    | refl => exact ⟨_, .refl, rfl⟩
    | tail _ hnext ih =>
      obtain ⟨c, hreaches, rfl⟩ := ih
      obtain ⟨c', hmoves, hc'⟩ := (next?_twoStacks t c).1 hnext
      exact ⟨c', hreaches.tail hmoves, hc'⟩
  · intro h
    obtain ⟨c, hreaches, rfl⟩ := h
    induction hreaches with
    | refl => exact .refl
    | tail _ hmoves ih => exact ih.tail ((next?_twoStacks t _).2 ⟨_, hmoves, rfl⟩)

end Table

/-! ### Paths -/

/-- Each state has a transition to the next one, on the symbol between them. -/
inductive Automaton.IsPath (a : Automaton) : List Nat → List Symbol → Prop where
  | single (state : Nat) : IsPath a [state] []
  | step {states : List Nat} {symbols : List Symbol} {source : Nat} {x : Symbol} {target : Nat} :
    IsPath a (states ++ [source]) symbols → ⟨source, x, target⟩ ∈ a.transitions.toList →
    IsPath a (states ++ [source, target]) (symbols ++ [x])

namespace Automaton

variable {a : Automaton} {stack : List Frame}

theorem Supports.isPath (h : a.Supports stack) :
    a.IsPath (stackStates stack) ((stackTrees stack).map Tree.symbol) := by
  rw [map_symbol_stackTrees]
  induction h with
  | nil => exact .single 0
  | @push stack f _ hgoto ih =>
    obtain ⟨states, hstates⟩ := List.getLast?_eq_some_iff.1 (getLast?_stackStates stack)
    rw [hstates] at ih
    rw [stackStates_cons, stackSymbols_cons, hstates, List.append_assoc]
    exact ih.step (mem_transitions_iff_goto?.2 hgoto)

end Automaton

/-! ### Nothing fails -/

/-- The stacks are in step and spell a path, and they hold what the next iteration takes from them. -/
structure Stacks.Intact (a : Automaton) (t : Table) (s : Stacks) : Prop where
  length : s.states.length = s.trees.length + 1
  bottom : s.states.head? = some 0
  path : a.IsPath s.states (s.trees.map Tree.symbol)
  shifts : ∀ target, s.action? t = some (.shift target) → ∃ token rest, s.rest = token :: rest ∧ token.kind ≠ ""
  reduces : ∀ name count, s.action? t = some (.reduce name count) → count ≤ s.trees.length ∧
    ∃ below children exposed target, s.pop? count = some (below, children)
      ∧ below.states.getLast? = some exposed ∧ t.goto? exposed name = some target
  accepts : ∀ count, s.action? t = some (.accept count) → count ≤ s.trees.length ∧ (s.pop? count).isSome
  never_goes : ∀ target, s.action? t ≠ some (.goto target)

namespace Table

variable {policy : ConflictPolicy} {g columns : Grammar} {t : Table} {tokens : List Token} {c : Configuration}
  {source : String}

/-- In the state that a reduction lays bare some item expects the nonterminal, with the next terminal behind it. -/
theorem exists_expecting_of_reduce (ht : build policy (.ofGrammar g) columns = .ok t)
    (hc : (Automaton.ofGrammar g).Supports c.stack) {name : NonTerminal} {count : Nat}
    (h : t.action? c.state c.lookahead = some (.reduce name count)) :
    count ≤ c.stack.length ∧ ∃ i, g.Places (stackSymbols (c.stack.drop count)) i
      ∧ i.current? = some (.nonterminal name) ∧ c.lookahead ∈ i.expansionLookaheads g.first := by
  obtain ⟨p, hplaces, rfl, rfl, hroot⟩ := exists_production_of_reduce ht hc.walk? h
  obtain ⟨-, -, hstart⟩ := children_of_final hplaces
  refine ⟨size_le_of_final hplaces, ?_⟩
  rcases hstart.origin with ⟨-, rfl, hend⟩ | hexpecting
  · exact absurd g.root_name (hroot hend)
  · exact hexpecting

theorem exists_goto_of_reduce (ht : build policy (.ofGrammar g) columns = .ok t)
    (hc : (Automaton.ofGrammar g).Supports c.stack) {name : NonTerminal} {count : Nat}
    (h : t.action? c.state c.lookahead = some (.reduce name count)) :
    count ≤ c.stack.length ∧ ∃ target, t.goto? (topState (c.stack.drop count)) name = some target := by
  obtain ⟨hcount, i, hi, hcurrent, -⟩ := exists_expecting_of_reduce ht hc h
  obtain ⟨target, hgoto⟩ := Automaton.exists_goto_of_places (hc.drop count).walk? hi hcurrent
  exact ⟨hcount, target, by rw [goto?_eq ht, hgoto]⟩

theorem size_le_of_accept (ht : build policy (.ofGrammar g) columns = .ok t)
    (hc : (Automaton.ofGrammar g).Supports c.stack) {count : Nat}
    (h : t.action? c.state c.lookahead = some (.accept count)) : count ≤ c.stack.length := by
  obtain ⟨-, rfl, hplaces⟩ := root_of_accept ht hc.walk? h
  exact size_le_of_final hplaces

theorem intact_twoStacks (hg : g.WellFormed) (ht : build policy (.ofGrammar g) columns = .ok t)
    (hc : (Automaton.ofGrammar g).Supports c.stack) : c.twoStacks.Intact (.ofGrammar g) t where
  length := by
    rw [Configuration.length_states_twoStacks, Configuration.length_trees_twoStacks]
  bottom := rfl
  path := hc.isPath
  shifts := by
    intro target h
    rw [c.action?_twoStacks] at h
    exact exists_token_of_shift hg ht hc h
  reduces := by
    intro name count h
    rw [c.action?_twoStacks] at h
    obtain ⟨hcount, target, hgoto⟩ := exists_goto_of_reduce ht hc h
    rw [c.length_trees_twoStacks]
    exact ⟨hcount, _, _, _, target, c.pop?_twoStacks hcount, Configuration.getLast?_states_twoStacks _, hgoto⟩
  accepts := by
    intro count h
    rw [c.action?_twoStacks] at h
    have hcount := size_le_of_accept ht hc h
    rw [c.length_trees_twoStacks, c.pop?_twoStacks hcount]
    exact ⟨hcount, rfl⟩
  never_goes := by
    intro target
    rw [c.action?_twoStacks]
    exact action?_ne_goto ht _ _ target

/-- The parser stops where it has no action or accepts; it comes upon nothing that no table of an automaton leads to. -/
theorem halts_cases (hg : g.WellFormed) (ht : build policy (.ofGrammar g) columns = .ok t)
    (hc : (Automaton.ofGrammar g).Supports c.stack) {o : Outcome} (h : t.step c = .halt o) :
    (t.action? c.state c.lookahead = none ∧ o = .rejected (c.unexpected t)) ∨
      ∃ count, t.action? c.state c.lookahead = some (.accept count) ∧ count ≤ c.stack.length
        ∧ o = .accepted (.node .root (topTrees c.stack count)) := by
  cases halts_of_step h with
  | unexpected haction => exact .inl ⟨haction, rfl⟩
  | accepted haction hcount => exact .inr ⟨_, haction, hcount, rfl⟩
  | missingGoto haction hgoto =>
    obtain ⟨-, target, htarget⟩ := exists_goto_of_reduce ht hc haction
    cases hgoto.symm.trans htarget
  | endShifted haction hrest =>
    obtain ⟨token, rest, hcons, -⟩ := exists_token_of_shift hg ht hc haction
    cases hrest.symm.trans hcons
  | reduceShort haction hshort =>
    exact absurd (exists_goto_of_reduce ht hc haction).1 (Nat.not_le.2 hshort)
  | acceptShort haction hshort => exact absurd (size_le_of_accept ht hc haction) (Nat.not_le.2 hshort)
  | gotoOnTerminal haction => exact absurd haction (action?_ne_goto ht _ _ _)

theorem step_halts (hg : g.WellFormed) (ht : build policy (.ofGrammar g) columns = .ok t)
    (hc : (Automaton.ofGrammar g).Supports c.stack) {o : Outcome} (h : t.step c = .halt o) :
    (∃ tree, o = .accepted tree) ∨ o = .rejected (c.unexpected t) := by
  rcases halts_cases hg ht hc h with ⟨-, rfl⟩ | ⟨count, -, -, rfl⟩
  · exact .inr rfl
  · exact .inl ⟨_, rfl⟩

theorem unexpected_ne_missingGoto (c : Configuration) (t : Table) (state : Nat) (name : NonTerminal) :
    c.unexpected t ≠ .missingGoto state name := by
  unfold Configuration.unexpected
  dsimp only
  split
  · split <;> exact nofun
  · exact nofun

/-- Whatever the columns and the policy, the stacks are intact in every iteration, and the parser neither breaks off nor misses a successor. -/
theorem intact_of_occurs (hg : Grammar.ofSource source = .ok g) (ht : build policy (.ofGrammar g) columns = .ok t)
    (tokens : List Token) :
    (∀ s : Stacks, s.Occurs t tokens → s.Intact (.ofGrammar g) t) ∧
    (∀ s : Stacks, s.Occurs t tokens ↔ ∃ c, t.Reaches (.start tokens) c ∧ c.twoStacks = s) ∧
    (∀ state x target, t.action? state x ≠ some (.goto target)) ∧
    (∀ defect, (t.parse tokens).outcome ≠ some (.broken defect)) ∧
    ∀ state name, (t.parse tokens).outcome ≠ some (.rejected (.missingGoto state name)) := by
  have hwell := Grammar.wellFormed_of_ofSource hg
  have houtcome (o : Outcome) (ho : (t.parse tokens).outcome = some o) :
      ∃ c : Configuration, (∃ tree, o = .accepted tree) ∨ o = .rejected (c.unexpected t) := by
    obtain ⟨c, hreaches, hhalt⟩ := (outcome_parse_iff hwell ht).1 ho
    exact ⟨c, step_halts hwell ht (sound_of_reaches hwell ht hreaches).supports hhalt⟩
  refine ⟨fun s hs => ?_, fun s => occurs_iff, action?_ne_goto ht, fun defect h => ?_, fun state name h => ?_⟩
  · obtain ⟨c, hreaches, rfl⟩ := occurs_iff.1 hs
    exact intact_twoStacks hwell ht (sound_of_reaches hwell ht hreaches).supports
  · obtain ⟨c, ⟨tree, heq⟩ | heq⟩ := houtcome _ h
    · cases heq
    · cases heq
  · obtain ⟨c, ⟨tree, heq⟩ | heq⟩ := houtcome _ h
    · cases heq
    · injection heq with hunexpected
      exact unexpected_ne_missingGoto c t state name hunexpected.symm

/-- A table with overwritten cells, and with the columns of a grammar that has none of its symbols. -/
theorem intact_of_occurs_sum : ∃ g columns t,
    Grammar.ofSource "__root : @sum ; sum : @sum plus @sum ; sum : id ;" = .ok g
      ∧ Grammar.ofSource "__root : z ;" = .ok columns ∧ build .overwrite (.ofGrammar g) columns = .ok t
      ∧ t.conflicts ≠ [] ∧ ∀ s : Stacks, s.Occurs t [.plain "id", .plain "plus", .plain "id"] →
        s.Intact (.ofGrammar g) t := by
  obtain ⟨g, t, hg, ht, hconflicts⟩ := exists_table_of_within .overwrite 20
    "__root : @sum ; sum : @sum plus @sum ; sum : id ;" (P := fun _ t => t.conflicts ≠ []) (by decide +kernel)
  obtain ⟨columns, -, hcolumns, -, -⟩ := exists_table_of_within .reject 20 "__root : z ;"
    (P := fun _ _ => True) (by decide +kernel)
  have hbuild := build_columns ht columns
  obtain ⟨hintact, -⟩ := intact_of_occurs hg hbuild [.plain "id", .plain "plus", .plain "id"]
  exact ⟨g, columns, _, hg, hcolumns, hbuild, hconflicts, hintact⟩

end Table

end CanonicalLR
