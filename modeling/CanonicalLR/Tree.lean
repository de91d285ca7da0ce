import CanonicalLR.Symbol
import CanonicalLR.Token

/-!
# Trees

A tree is a token or a node with the name of a nonterminal. Its leaves from left to right are collected
with a stack of trees that are still to be looked at.
-/

namespace CanonicalLR

inductive Tree where
  | leaf (token : Token)
  | node (name : NonTerminal) (children : List Tree)

namespace Tree

/-- The name of a node. -/
def name? : Tree → Option NonTerminal
  | leaf _ => none
  | node name _ => some name

def children : Tree → List Tree
  | leaf _ => []
  | node _ children => children

/-! ### Equality -/

mutual

def decEq : (a b : Tree) → Decidable (a = b)
  | leaf s, leaf t => decidable_of_iff (s = t) (by simp)
  | leaf _, node _ _ => .isFalse (by simp)
  | node _ _, leaf _ => .isFalse (by simp)
  | node m cs, node n ds =>
    have : Decidable (cs = ds) := decEqAll cs ds
    decidable_of_iff (m = n ∧ cs = ds) (by simp)

def decEqAll : (cs ds : List Tree) → Decidable (cs = ds)
  | [], [] => .isTrue rfl
  | [], _ :: _ => .isFalse (by simp)
  | _ :: _, [] => .isFalse (by simp)
  | c :: cs, d :: ds =>
    have : Decidable (c = d) := decEq c d
    have : Decidable (cs = ds) := decEqAll cs ds
    decidable_of_iff (c = d ∧ cs = ds) (by simp)

end

instance : DecidableEq Tree := decEq

/-! ### Printing -/

mutual

/-- What was written before, with the tree behind it. -/
def write (before : String) : Tree → String
  | leaf token => before ++ token.kind
  | node name children => writeAll (before ++ "(" ++ name.text) children ++ ")"

/-- What was written before, with the trees behind it, each after a space. -/
def writeAll (before : String) : List Tree → String
  | [] => before
  | c :: rest => writeAll (write (before ++ " ") c) rest

end

/-- A leaf is written as its kind, a node as its name and its children in parentheses. -/
def text (t : Tree) : String := write "" t

mutual

theorem write_append (before more : String) : (t : Tree) → write (before ++ more) t = before ++ write more t
  | leaf token => by simp [write, String.append_assoc]
  | node name children => by
    have := writeAll_append before (more ++ "(" ++ name.text) children
    simp only [write, String.append_assoc] at this ⊢
    rw [this, String.append_assoc]

theorem writeAll_append (before more : String) :
    (ts : List Tree) → writeAll (before ++ more) ts = before ++ writeAll more ts
  | [] => rfl
  | c :: rest => by
    rw [writeAll, writeAll, String.append_assoc, write_append before, writeAll_append before]

end

theorem write_eq (before : String) (t : Tree) : write before t = before ++ t.text := by
  rw [text, ← write_append, String.append_empty]

theorem writeAll_eq (before : String) (ts : List Tree) :
    writeAll before ts = before ++ String.join (ts.map fun t => " " ++ t.text) := by
  induction ts generalizing before with
  | nil => simp [writeAll]
  | cons c rest ih => rw [writeAll, ih, write_eq]; simp [String.append_assoc]

@[simp] theorem text_leaf (token : Token) : (leaf token).text = token.kind := by simp [text, write]

@[simp] theorem text_node (name : NonTerminal) (children : List Tree) :
    (node name children).text
      = "(" ++ name.text ++ String.join (children.map fun t => " " ++ t.text) ++ ")" := by
  simp [text, write, writeAll_eq]

/-! ### Traversal -/

mutual

/-- The number of leaves and nodes. -/
def size : Tree → Nat
  | leaf _ => 1
  | node _ children => 1 + sizeAll children

def sizeAll : List Tree → Nat
  | [] => 0
  | c :: rest => c.size + sizeAll rest

end

theorem sizeAll_append (cs ds : List Tree) : sizeAll (cs ++ ds) = sizeAll cs + sizeAll ds := by
  induction cs with
  | nil => simp [sizeAll]
  | cons c rest ih => simp [sizeAll, ih, Nat.add_assoc]

/-- The leaves of the trees on a stack, the topmost tree first. -/
def leavesOf : List Tree → List Token
  | [] => []
  | leaf token :: rest => token :: leavesOf rest
  | node _ children :: rest => leavesOf (children ++ rest)
termination_by stack => sizeAll stack
decreasing_by
  · simp [sizeAll, size]
  · simp [sizeAll, size, sizeAll_append]

/-- The leaves from left to right. -/
def leaves (t : Tree) : List Token := leavesOf [t]

mutual

/-- The tree and all trees in it, a node before its children. -/
def preorder : Tree → List Tree
  | leaf token => [leaf token]
  | node name children => node name children :: preorderAll children

def preorderAll : List Tree → List Tree
  | [] => []
  | c :: rest => c.preorder ++ preorderAll rest

end

end Tree

end CanonicalLR
