import CanonicalLR.Automaton
import CanonicalLR.Grammar.Source
import CanonicalLR.Table.Basic

/-!
# Filling a table

Every item of a state demands one cell of the state's row. An item that expects a symbol demands the cell
under that symbol for the step to the next state; a complete item demands the cell under its lookahead, for
accepting if it is the root's and the input is at its end, and for a reduction otherwise. Demands are
written in the order of the items. Where a cell holds a different action already, the policy decides: the
later action replaces it and the conflict is recorded, or the whole table is refused.
-/

namespace CanonicalLR

inductive ConflictPolicy where
  | overwrite
  | reject
deriving DecidableEq

/-- A cell with what is to be written there. -/
inductive Demand where
  | action (terminal : Terminal) (action : Action)
  | goto (n : NonTerminal) (state : Nat)
deriving DecidableEq

namespace Demand

def symbol : Demand → Symbol
  | action t _ => .terminal t
  | goto n _ => .nonterminal n

/-- What the cell reads once it is written. -/
def entry : Demand → Action
  | action _ a => a
  | goto _ state => .goto state

end Demand

/-- What a complete item does on its lookahead. -/
def Item.completion (i : Item) : Action :=
  if i.lookahead.isEnd && i.production.name.isRoot then .accept i.production.size
  else .reduce i.production.name i.production.size

namespace Automaton

/-- What an item of a state demands; an item that expects a symbol demands nothing if no transition of the
state is on that symbol. -/
def demand? (a : Automaton) (state : Nat) (i : Item) : Option Demand :=
  match i.current? with
  | some (.terminal t) => (a.goto? state (.terminal t)).map fun target => .action t (.shift target)
  | some (.nonterminal n) => (a.goto? state (.nonterminal n)).map (.goto n)
  | none => some (.action i.lookahead i.completion)

def demands (a : Automaton) (state : Nat) (s : ItemSet) : List Demand :=
  s.toList.filterMap (a.demand? state)

end Automaton

namespace Row

def write (r : Row) : Demand → Row
  | .action t a => { r with actions := r.actions.insert t a }
  | .goto n state => { r with gotos := r.gotos.insert n state }

/-- The conflict that writing the demand to the row of a state brings about. -/
def conflict? (r : Row) (state : Nat) (c : Demand) : Option Conflict :=
  (r.lookup? c.symbol).bind fun previous =>
    if previous = c.entry then none else some ⟨state, c.symbol, previous, c.entry⟩

end Row

def Conflict.error (c : Conflict) : GrammarError :=
  .conflict c.state c.symbol.text c.previous.text c.replacement.text

/-- The line that tells of an overwritten cell. -/
def Conflict.text (c : Conflict) : String :=
  s!"conflict on I_{c.state}, `{c.symbol.text}`: {c.previous.text} replaced by {c.replacement.text}"

namespace Table

/-- The row with the demands written to it in order, and the conflicts met. -/
def fillRow (policy : ConflictPolicy) (state : Nat) (r : Row) :
    List Demand → Except GrammarError (Row × List Conflict)
  | [] => .ok (r, [])
  | c :: rest =>
    match r.conflict? state c, policy with
    | some conflict, .reject => .error conflict.error
    | conflict?, _ => do
      let (filled, conflicts) ← fillRow policy state (r.write c) rest
      return (filled, conflict?.toList ++ conflicts)

/-- The rows of the states from number `state` on, and the conflicts met. -/
def fillRows (policy : ConflictPolicy) (a : Automaton) (state : Nat) :
    List ItemSet → Except GrammarError (List Row × List Conflict)
  | [] => .ok ([], [])
  | s :: rest => do
    let (row, conflicts) ← fillRow policy state {} (a.demands state s)
    let (rows, more) ← fillRows policy a (state + 1) rest
    return (row :: rows, conflicts ++ more)

/-- The table of an automaton, with the columns of a grammar. -/
def build (policy : ConflictPolicy) (a : Automaton) (columns : Grammar) : Except GrammarError Table := do
  let (rows, conflicts) ← fillRows policy a 0 a.states.toList
  return ⟨rows, columns.terminals ++ [.endMarker], columns.nonTerminals, conflicts⟩

/-- The table of the automaton of a grammar. -/
def ofGrammar (policy : ConflictPolicy) (g : Grammar) : Except GrammarError Table :=
  build policy (.ofGrammar g) g

/-- The table of the grammar that a text describes. -/
def ofSource (policy : ConflictPolicy) (source : String) : Except GrammarError Table :=
  (Grammar.ofSource source).bind (ofGrammar policy)

end Table

end CanonicalLR
