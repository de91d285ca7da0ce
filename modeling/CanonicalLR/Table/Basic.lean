import CanonicalLR.Collection.OrderedMap
import CanonicalLR.Table.Action

/-!
# Parsing tables

A table has a row for every state of an automaton. A row has a cell for every terminal on which the
state acts and for every nonterminal behind which it has a successor, in the order in which they were
first written. The columns of a table are the terminals and nonterminals of a grammar; they decide the
order in which cells are listed, while the cells themselves come from the automaton.
-/

namespace CanonicalLR

structure Row where
  actions : OrderedMap Terminal Action := .empty
  gotos : OrderedMap NonTerminal Nat := .empty

/-- An action that was replaced by another one for the same cell. -/
structure Conflict where
  state : Nat
  symbol : Symbol
  previous : Action
  replacement : Action
deriving DecidableEq

structure Table where
  rows : List Row
  /-- The columns of actions, the end of input being the last. -/
  terminals : List Terminal
  /-- The columns of successor states. -/
  nonTerminals : List NonTerminal
  conflicts : List Conflict

namespace Row

/-- The cell under a symbol; that of a nonterminal reads as a goto. -/
def lookup? (r : Row) : Symbol → Option Action
  | .terminal t => r.actions.get? t
  | .nonterminal n => (r.gotos.get? n).map .goto

/-- The same cells, whatever their order. -/
def agrees (r s : Row) : Bool :=
  r.actions.agrees (· == ·) s.actions && r.gotos.agrees (· == ·) s.gotos

end Row

namespace Table

def size (t : Table) : Nat := t.rows.length

def isEmpty (t : Table) : Bool := t.rows.isEmpty

def row? (t : Table) (state : Nat) : Option Row := t.rows[state]?

def action? (t : Table) (state : Nat) (terminal : Terminal) : Option Action :=
  (t.row? state).bind (·.actions.get? terminal)

def goto? (t : Table) (state : Nat) (n : NonTerminal) : Option Nat :=
  (t.row? state).bind (·.gotos.get? n)

def lookup? (t : Table) (state : Nat) (x : Symbol) : Option Action :=
  (t.row? state).bind (·.lookup? x)

/-- The terminals on which a state acts, in the order of the columns. -/
def expected (t : Table) (state : Nat) : List Terminal :=
  match t.row? state with
  | none => []
  | some r => t.terminals.filter (r.actions.contains ·)

def hasConflicts (t : Table) : Bool := !t.conflicts.isEmpty

/-- The same columns, the same cells and the same conflicts; the cells of a row may stand in any order. -/
def agrees (t u : Table) : Bool :=
  t.size == u.size && (t.rows.zip u.rows).all (fun (r, s) => r.agrees s) && t.terminals == u.terminals
    && t.nonTerminals == u.nonTerminals && t.conflicts == u.conflicts

end Table

end CanonicalLR
