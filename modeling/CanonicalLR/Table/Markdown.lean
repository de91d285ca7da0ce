import CanonicalLR.Table.Basic

/-!
# Tables in markdown

One line of column heads, one line of dashes, and one line for each state, which is named `I` with its
number. Every cell stands between bars, and an unset cell is blank.
-/

namespace CanonicalLR

namespace Table

/-- A cell with the bar behind it. -/
def cell (content : String) : String := " " ++ content ++ " |"

def blankCell : String := "  |"

def headLine (t : Table) : String :=
  "| |" ++ String.join (t.terminals.map fun s => cell ("`" ++ s.text ++ "`"))
    ++ String.join (t.nonTerminals.map fun n => cell ("`" ++ n.text ++ "`"))

def ruleLine (t : Table) : String :=
  "|" ++ cell "-" ++ String.join (List.replicate (t.terminals.length + t.nonTerminals.length) (cell "-"))

/-- The line of the state with number `state`. -/
def rowLine (t : Table) (state : Nat) (r : Row) : String :=
  let actions := t.terminals.map fun s => (r.actions.get? s).elim blankCell fun a => cell a.text
  let gotos := t.nonTerminals.map fun n =>
    (r.gotos.get? n).elim blankCell fun target => cell (toString target)
  "|" ++ cell ("$I_\x7b" ++ toString state ++ "\x7d$") ++ String.join actions ++ String.join gotos

def markdown (t : Table) : String :=
  String.intercalate "\n" (t.headLine :: t.ruleLine :: t.rows.zipIdx.map fun (r, state) => t.rowLine state r)

end Table

end CanonicalLR
