import CanonicalLR.Parser.Step

/-!
# Runs of a parser

A run is the row of moves from the start to an outcome. A parser can go on for ever only by reducing
single trees in a circle. Reductions of one tree above the same state that do not go round lead to
different successors of that state, and every other step but the last reads a token or makes the stack
shorter, so a run that ends at all ends within `stepBound`.
-/

namespace CanonicalLR

/-- The moves made, the configuration after them, and the outcome if the run has ended there. -/
structure Run where
  moves : List Move
  last : Configuration
  outcome : Option Outcome

namespace Table

/-- At most `limit` steps from a configuration. -/
def run (t : Table) : Nat → Configuration → Run
  | 0, c => ⟨[], c, none⟩
  | limit + 1, c =>
    match t.step c with
    | .halt outcome => ⟨[], c, some outcome⟩
    | .move move next =>
      let rest := t.run limit next
      { rest with moves := move :: rest.moves }

/-- The greatest number of successors on nonterminals that a state has. -/
def width (t : Table) : Nat := (t.rows.map (·.gotos.size)).foldl max 0

/-- The tokens before the end of input. -/
def untilEnd (tokens : List Token) : List Token := tokens.takeWhile (!·.kind.isEmpty)

/-- The number of steps within which parsing the tokens ends, if it ends. -/
def stepBound (t : Table) (tokens : List Token) : Nat := (2 * (untilEnd tokens).length + 1) * (t.width + 1)

/-- The run on the tokens; it has no outcome exactly when the parser would never stop. -/
def parse (t : Table) (tokens : List Token) : Run := t.run (t.stepBound tokens) (.start tokens)

end Table

end CanonicalLR
