import CanonicalLR.Error
import CanonicalLR.Table.Basic
import CanonicalLR.Tree

/-!
# One step of a parser

A parser keeps a stack of trees, each with the state that it led to; below the stack is the state zero.
In each step the state on top and the kind of the next token decide on an action. Input that is
exhausted and a token of the empty kind both read as the end of input. A step makes a move to the next
configuration, or it halts with an outcome.
-/

namespace CanonicalLR

/-- A tree on the stack, with the state behind it. -/
structure Frame where
  state : Nat
  tree : Tree

structure Configuration where
  /-- The topmost frame comes first. -/
  stack : List Frame
  rest : List Token
  /-- The number of tokens that have been shifted. -/
  index : Nat

inductive Move where
  | shift (index : Nat) (kind : String) (target : Nat)
  /-- A reduction, with the state that it lays bare and the state that it leads to. -/
  | reduce (name : NonTerminal) (count exposed target : Nat)
deriving DecidableEq

/-- Ways in which a table can be no table of an automaton. -/
inductive Defect where
  | endShifted
  | stackTooShort
  | gotoOnTerminal
deriving DecidableEq

inductive Outcome where
  | accepted (tree : Tree)
  | rejected (error : SyntaxError)
  | broken (defect : Defect)
deriving DecidableEq

inductive Step where
  | move (move : Move) (next : Configuration)
  | halt (outcome : Outcome)

/-- The state on top of a stack. -/
def topState (stack : List Frame) : Nat := stack.head?.elim 0 Frame.state

/-- The topmost `count` trees from left to right. -/
def topTrees (stack : List Frame) (count : Nat) : List Tree := ((stack.take count).map Frame.tree).reverse

/-- Whether a stack holds fewer trees than a reduction takes off. Only as many trees are looked at. -/
def isShort (stack : List Frame) (count : Nat) : Bool := (stack.take count).length < count

theorem isShort_iff {stack : List Frame} {count : Nat} :
    isShort stack count = true ↔ stack.length < count := by
  simp only [isShort, List.length_take, decide_eq_true_eq]
  omega

namespace Configuration

def start (tokens : List Token) : Configuration := ⟨[], tokens, 0⟩

def state (c : Configuration) : Nat := topState c.stack

/-- The terminal that comes next. -/
def lookahead (c : Configuration) : Terminal := ⟨c.rest.head?.elim "" Token.kind⟩

/-- The error of a configuration without an action. -/
def unexpected (c : Configuration) (t : Table) : SyntaxError :=
  let expected := (t.expected c.state).map Terminal.text
  match c.rest with
  | token :: _ =>
    if token.kind.isEmpty then .unexpectedEnd expected
    else .unexpectedToken c.index token.kind token.location expected
  | [] => .unexpectedEnd expected

def shift (c : Configuration) (target : Nat) : Step :=
  match c.rest with
  | [] => .halt (.broken .endShifted)
  | token :: rest =>
    .move (.shift c.index token.kind target) ⟨⟨target, .leaf token⟩ :: c.stack, rest, c.index + 1⟩

def reduce (c : Configuration) (t : Table) (name : NonTerminal) (count : Nat) : Step :=
  if isShort c.stack count then .halt (.broken .stackTooShort)
  else
    let below := c.stack.drop count
    let exposed := topState below
    match t.goto? exposed name with
    | none => .halt (.rejected (.missingGoto exposed name))
    | some target =>
      .move (.reduce name count exposed target)
        { c with stack := ⟨target, .node name (topTrees c.stack count)⟩ :: below }

def accept (c : Configuration) (count : Nat) : Step :=
  if isShort c.stack count then .halt (.broken .stackTooShort)
  else .halt (.accepted (.node .root (topTrees c.stack count)))

end Configuration

/-- What the parser does next. -/
def Table.step (t : Table) (c : Configuration) : Step :=
  match t.action? c.state c.lookahead with
  | none => .halt (.rejected (c.unexpected t))
  | some (.shift target) => c.shift target
  | some (.reduce name count) => c.reduce t name count
  | some (.accept count) => c.accept count
  | some (.goto _) => .halt (.broken .gotoOnTerminal)

end CanonicalLR
