import CanonicalLR.Production

/-!
# Items

An item is a production with a dot that tells how much of it has been seen, and the terminal that may
follow when all of it has been. An item whose dot is at the end, or past it, is complete. Items compare
by production, then by dot, then by lookahead.
-/

namespace CanonicalLR

open Std

structure Item where
  production : Production
  dot : Nat
  lookahead : Terminal
deriving DecidableEq

namespace Item

/-- The item at which a production starts. -/
def initial (p : Production) (lookahead : Terminal) : Item := ⟨p, 0, lookahead⟩

def isComplete (i : Item) : Bool := i.production.size ≤ i.dot

/-- The symbol behind the dot. -/
def current? (i : Item) : Option Symbol := i.production.symbols[i.dot]?

/-- The symbol behind the current one. -/
def following? (i : Item) : Option Symbol := i.production.symbols[i.dot + 1]?

/-- The item with the dot moved over `s`, if that is the current symbol. -/
def advance? (i : Item) (s : Symbol) : Option Item :=
  if i.current? = some s then some { i with dot := i.dot + 1 } else none

/-- The production with the dot in its place. -/
def body (i : Item) : String :=
  let symbols := i.production.symbols.zipIdx.map fun (s, index) =>
    (if index = i.dot then "⋅ " else "") ++ s.text ++ " "
  i.production.name.text ++ " -> " ++ Text.trimRight (String.join symbols)
    ++ (if i.isComplete then " ⋅" else "")

def text (i : Item) : String := i.body ++ " 〈" ++ i.lookahead.text ++ "〉"

def inspect (i : Item) : String := "Item(" ++ i.body ++ " " ++ i.lookahead.inspect ++ ")"

end Item

instance : Ord Item where
  compare i j := (compare i.production j.production).then
    ((compare i.dot j.dot).then (compare i.lookahead j.lookahead))

instance : TransOrd Item := inferInstanceAs (TransCmp
  (compareLex (compareOn Item.production) (compareLex (compareOn Item.dot) (compareOn Item.lookahead))))

instance : LawfulEqOrd Item where
  eq_of_compare {a b} h := by
    obtain ⟨hproduction, hrest⟩ := Ordering.then_eq_eq.1 h
    obtain ⟨hdot, hlookahead⟩ := Ordering.then_eq_eq.1 hrest
    cases a; cases b
    obtain rfl := LawfulEqOrd.eq_of_compare (α := Production) hproduction
    obtain rfl := LawfulEqOrd.eq_of_compare (α := Nat) hdot
    obtain rfl := LawfulEqOrd.eq_of_compare (α := Terminal) hlookahead
    rfl

end CanonicalLR
