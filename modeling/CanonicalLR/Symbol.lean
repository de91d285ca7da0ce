import CanonicalLR.Text.Quoted

/-!
# Grammar symbols

A terminal stands for the tokens of one kind and a nonterminal for a phrase; a symbol is one of the
two. The terminal with the empty name marks the end of input, and the nonterminal `__root` is where
every derivation starts. Names compare by code point and a terminal comes before every nonterminal.
This order decides the numbering of the automaton's states, so its laws are recorded here.
-/

namespace CanonicalLR

open Std

structure Terminal where
  name : String
deriving DecidableEq

structure NonTerminal where
  name : String
deriving DecidableEq

inductive Symbol where
  | terminal (t : Terminal)
  | nonterminal (n : NonTerminal)
deriving DecidableEq

/-- The end of input. -/
def Terminal.endMarker : Terminal := ⟨""⟩

def Terminal.isEnd (t : Terminal) : Bool := t.name.isEmpty

theorem Terminal.isEnd_iff {t : Terminal} : t.isEnd = true ↔ t = .endMarker := by
  cases t
  simp [isEnd, endMarker]

/-- The nonterminal that derives the whole input. -/
def NonTerminal.root : NonTerminal := ⟨"__root"⟩

def NonTerminal.isRoot (n : NonTerminal) : Bool := n == root

theorem NonTerminal.isRoot_iff {n : NonTerminal} : n.isRoot = true ↔ n = .root := by rw [isRoot, beq_iff_eq]

/-- The end of input is written `$`. -/
def Terminal.text (t : Terminal) : String := if t.isEnd then "$" else t.name

def NonTerminal.text (n : NonTerminal) : String := n.name

/-- The name in quotes, marked as a terminal's. -/
def Terminal.inspect (t : Terminal) : String := "t" ++ Text.quote t.name

/-- The name in quotes, marked as a nonterminal's. -/
def NonTerminal.inspect (n : NonTerminal) : String := "nt" ++ Text.quote n.name

namespace Symbol

def text : Symbol → String
  | terminal t => t.text
  | nonterminal n => n.text

def inspect : Symbol → String
  | terminal t => t.inspect
  | nonterminal n => n.inspect

/-- The symbol as a grammar text spells it: a nonterminal is referred to with `@`. -/
def spelling : Symbol → String
  | terminal t => t.text
  | nonterminal n => "@" ++ n.text

def terminal? : Symbol → Option Terminal
  | terminal t => some t
  | nonterminal _ => none

def nonterminal? : Symbol → Option NonTerminal
  | terminal _ => none
  | nonterminal n => some n

end Symbol

/-! ### Order -/

instance : Ord Terminal := ⟨compareOn Terminal.name⟩

instance : TransOrd Terminal := inferInstanceAs (TransCmp (compareOn Terminal.name))

instance : LawfulEqOrd Terminal where
  eq_of_compare {a b} h := by
    cases a; cases b
    exact congrArg Terminal.mk (LawfulEqOrd.eq_of_compare (α := String) h)

instance : Ord NonTerminal := ⟨compareOn NonTerminal.name⟩

instance : TransOrd NonTerminal := inferInstanceAs (TransCmp (compareOn NonTerminal.name))

instance : LawfulEqOrd NonTerminal where
  eq_of_compare {a b} h := by
    cases a; cases b
    exact congrArg NonTerminal.mk (LawfulEqOrd.eq_of_compare (α := String) h)

instance : Ord Symbol where
  compare
    | .terminal s, .terminal t => compare s t
    | .terminal _, .nonterminal _ => .lt
    | .nonterminal _, .terminal _ => .gt
    | .nonterminal m, .nonterminal n => compare m n

@[simp] theorem Symbol.compare_terminal (s t : Terminal) :
    compare (Symbol.terminal s) (Symbol.terminal t) = compare s t := rfl

@[simp] theorem Symbol.compare_nonterminal (m n : NonTerminal) :
    compare (Symbol.nonterminal m) (Symbol.nonterminal n) = compare m n := rfl

@[simp] theorem Symbol.compare_terminal_nonterminal (t : Terminal) (n : NonTerminal) :
    compare (Symbol.terminal t) (Symbol.nonterminal n) = .lt := rfl

@[simp] theorem Symbol.compare_nonterminal_terminal (t : Terminal) (n : NonTerminal) :
    compare (Symbol.nonterminal n) (Symbol.terminal t) = .gt := rfl

instance : TransOrd Symbol where
  eq_swap {a b} := by
    cases a <;> cases b <;> simp
    · exact OrientedCmp.eq_swap
    · exact OrientedCmp.eq_swap
  isLE_trans {a b c} hab hbc := by
    cases a <;> cases b <;> cases c <;> simp_all
    · exact TransCmp.isLE_trans hab hbc
    · exact TransCmp.isLE_trans hab hbc

instance : LawfulEqOrd Symbol where
  compare_self {a} := by cases a <;> simp
  eq_of_compare {a b} h := by cases a <;> cases b <;> simp_all

end CanonicalLR
