import CanonicalLR.Symbol
import CanonicalLR.Text.Field

/-!
# Actions

What a parser does in a state on a symbol: go to another state, having read a terminal or reduced to a
nonterminal; reduce the topmost trees to one; or accept. A reduction keeps only the name and the length of
its production.
-/

namespace CanonicalLR

inductive Action where
  | shift (state : Nat)
  /-- The state after a reduction; it stands only under nonterminals. -/
  | goto (state : Nat)
  | reduce (name : NonTerminal) (count : Nat)
  /-- Accepts with as many trees as the root production has symbols. -/
  | accept (count : Nat)
deriving DecidableEq

namespace Action

def text : Action → String
  | shift state => s!"s{state}"
  | goto state => s!"g{state}"
  | reduce name count => s!"r({name.text}, {count})"
  | accept _ => "acc"

/-- The action by its name, each of its parts in the field. -/
def inspect (f : Text.Field) : Action → String
  | shift state => "Shift(" ++ f.padNumber state ++ ")"
  | goto state => "Goto(" ++ f.padNumber state ++ ")"
  | reduce name count => "Reduce(" ++ f.pad name.inspect ++ ", " ++ f.padNumber count ++ ")"
  | accept count => "Accept(" ++ f.padNumber count ++ ")"

end Action

end CanonicalLR
