import CanonicalLR.Location
import CanonicalLR.Symbol

/-!
# Errors

Why a grammar is refused, and why an input is. Each cause has one message for readers and one form
that shows its parts.
-/

namespace CanonicalLR

inductive GrammarError where
  /-- A lexeme stands where the form of a grammar text does not allow it. -/
  | unexpectedLexeme (location : Location) (expected : List String) (found : String)
  | rootNotFound
  | multipleRoots (count : Nat)
  | undefinedNonTerminal (name : NonTerminal)
  /-- Two different actions meet in one cell of the table. -/
  | conflict (state : Nat) (symbol existing incoming : String)
deriving DecidableEq

inductive SyntaxError where
  | unexpectedToken (index : Nat) (kind : String) (location : Option Location) (expected : List String)
  | unexpectedEnd (expected : List String)
  /-- No state follows a reduction: the table is not one of an automaton. -/
  | missingGoto (state : Nat) (name : NonTerminal)
deriving DecidableEq

/-- Why nothing came of a grammar and an input. -/
inductive Failure where
  | grammar (error : GrammarError)
  | input (error : SyntaxError)
deriving DecidableEq

namespace GrammarError

def message : GrammarError → String
  | unexpectedLexeme l expected found =>
    let alternatives := String.intercalate " or " (expected.map fun kind => "'" ++ kind ++ "'")
    s!"Error parsing productions, line: {l.line}, column: {l.column}, "
      ++ s!"cause: {alternatives} expected, got '{found}'."
  | rootNotFound => "Unable to find a root non-terminal, `__root` must be defined."
  | multipleRoots count => s!"The root non-terminal must be defined once, found {count} productions."
  | undefinedNonTerminal name => s!"Grammar does not contain the non-terminal: {name.text}."
  | conflict state symbol existing incoming =>
    s!"Ambiguous grammar, state {state} on `{symbol}`: {existing} conflicts with {incoming}."

def inspect : GrammarError → String
  | unexpectedLexeme l expected found =>
    "ParseProduction \x7b " ++ s!"line: {l.line}, column: {l.column}, cause: "
      ++ "UnexpectedToken \x7b expected: " ++ Text.bracket (expected.map Text.quote)
      ++ ", found: " ++ Text.quote found ++ " \x7d \x7d"
  | rootNotFound => "RootNotFound"
  | multipleRoots count => s!"MultipleRoots({count})"
  | undefinedNonTerminal name => "UndefinedNonTerminal(" ++ Text.quote name.text ++ ")"
  | conflict state symbol existing incoming =>
    "Conflict \x7b " ++ s!"state: {state}, symbol: " ++ Text.quote symbol
      ++ ", existing: " ++ Text.quote existing ++ ", incoming: " ++ Text.quote incoming ++ " \x7d"

end GrammarError

namespace SyntaxError

/-- How a message gives the place of a token. -/
def place : Option Location → String
  | none => ""
  | some l => " (" ++ l.text ++ ")"

def message : SyntaxError → String
  | unexpectedToken index kind location expected =>
    s!"Unexpected token `{kind}` at #{index}" ++ place location ++ ", expected one of: "
      ++ String.intercalate ", " expected ++ "."
  | unexpectedEnd expected =>
    "Unexpected end of input, expected one of: " ++ String.intercalate ", " expected ++ "."
  | missingGoto state name => s!"State {state} has no goto entry for `{name.text}`."

def inspect : SyntaxError → String
  | unexpectedToken index kind location expected =>
    let shown := match location with
      | none => "None"
      | some l => "Some(" ++ l.inspect {} ++ ")"
    "UnexpectedToken \x7b " ++ s!"index: {index}, kind: " ++ Text.quote kind ++ ", location: " ++ shown
      ++ ", expected: " ++ Text.bracket (expected.map Text.quote) ++ " \x7d"
  | unexpectedEnd expected =>
    "UnexpectedEnd \x7b expected: " ++ Text.bracket (expected.map Text.quote) ++ " \x7d"
  | missingGoto state name =>
    "MissingGoto \x7b " ++ s!"state: {state}, name: " ++ Text.quote name.text ++ " \x7d"

end SyntaxError

namespace Failure

def inspect : Failure → String
  | grammar error => error.inspect
  | input error => error.inspect

end Failure

end CanonicalLR
