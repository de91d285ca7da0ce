import CanonicalLR.Symbol
import CanonicalLR.Text.Blank

/-!
# Productions

A production rewrites a nonterminal to a list of symbols. Productions are compared by value: by name,
then symbol by symbol, where a list comes after its initial parts. Most productions that are compared
are one and the same object, which is looked at first.
-/

namespace CanonicalLR

open Std

structure Production where
  name : NonTerminal
  symbols : List Symbol

instance : DecidableEq Production := fun p q => withPtrEqDecEq p q fun _ =>
  decidable_of_iff (p.name = q.name ∧ p.symbols = q.symbols) (by cases p; cases q; simp)

namespace Production

def size (p : Production) : Nat := p.symbols.length

def isEmpty (p : Production) : Bool := p.symbols.isEmpty

def firstSymbol? (p : Production) : Option Symbol := p.symbols.head?

/-- The production as a grammar text writes it. -/
def text (p : Production) : String :=
  let symbols := String.join (p.symbols.map fun s => s.spelling ++ " ")
  p.name.text ++ " : " ++ Text.trimRight symbols ++ " ;"

def inspect (p : Production) : String :=
  let symbols := String.join (p.symbols.map fun s => s.inspect ++ " ")
  "Production(" ++ p.name.inspect ++ " -> " ++ Text.trimRight symbols ++ ")"

end Production

/-! ### Order -/

instance : Ord Production where
  compare p q := if p = q then .eq else (compare p.name q.name).then (compare p.symbols q.symbols)

theorem Production.compare_eq_compareLex :
    (compare : Production → Production → Ordering) = compareLex (compareOn name) (compareOn symbols) := by
  funext p q
  show (if p = q then Ordering.eq else compareLex (compareOn name) (compareOn symbols) p q) = _
  split
  · rename_i heq
    have : compareLex (compareOn name) (compareOn symbols) q q = .eq := ReflCmp.compare_self
    rw [heq, this]
  · rfl

instance : TransOrd Production := by
  rw [TransOrd, Production.compare_eq_compareLex]
  infer_instance

instance : LawfulEqOrd Production where
  eq_of_compare {a b} h := by
    obtain ⟨hname, hsymbols⟩ := compareLex_eq_eq.1 (Production.compare_eq_compareLex ▸ h)
    cases a; cases b
    exact congr (congrArg Production.mk (LawfulEqOrd.eq_of_compare (α := NonTerminal) hname))
      (LawfulEqOrd.eq_of_compare (α := List Symbol) hsymbols)

end CanonicalLR
