import CanonicalLR.Location
import CanonicalLR.Text.Blank

/-!
# Lexemes of a grammar text

A grammar text is a row of lexemes between blanks: colons, semicolons, words, and references, which
are words behind an `@`. An `@` that no word follows is unknown. Every lexeme knows where it starts,
and the row always ends with the lexeme for the end of the text.
-/

namespace CanonicalLR

inductive LexemeKind where
  | endOfText
  | unknown
  | colon
  | semicolon
  | reference
  | literal
deriving DecidableEq

/-- How messages name the kind. -/
def LexemeKind.word : LexemeKind → String
  | endOfText => "end"
  | unknown => "unknown"
  | colon => "colon"
  | semicolon => "semicolon"
  | reference => "reference"
  | literal => "literal"

/-- How the log names the kind. -/
def LexemeKind.title : LexemeKind → String
  | endOfText => "End"
  | unknown => "Unknown"
  | colon => "Colon"
  | semicolon => "Semicolon"
  | reference => "Reference"
  | literal => "Literal"

/-- A lexeme; the text of a reference does not include its `@`. -/
structure Lexeme where
  kind : LexemeKind
  text : String
  location : Location
deriving DecidableEq

namespace Lexeme

def isPunctuation (c : Char) : Bool := c == ':' || c == ';' || c == '@'

def isWordChar (c : Char) : Bool := !Text.isBlank c && !isPunctuation c

/-- The lexeme that starts with `c` and goes on with the word characters `more`; `c` is no blank and
neither colon nor semicolon. -/
def ofWord (c : Char) (more : List Char) (location : Location) : Lexeme :=
  if c = '@' then
    if more.isEmpty then ⟨.unknown, "@", location⟩ else ⟨.reference, String.ofList more, location⟩
  else ⟨.literal, String.ofList (c :: more), location⟩

/-- The lexemes of the characters from `location` on. -/
def scanFrom (location : Location) : List Char → List Lexeme
  | [] => [⟨.endOfText, "", location⟩]
  | c :: rest =>
    if Text.isBlank c then scanFrom (location.after c) rest
    else if c = ':' then ⟨.colon, ":", location⟩ :: scanFrom (location.after c) rest
    else if c = ';' then ⟨.semicolon, ";", location⟩ :: scanFrom (location.after c) rest
    else
      let more := rest.takeWhile isWordChar
      ofWord c more location :: scanFrom (location.afterAll (c :: more)) (rest.dropWhile isWordChar)
termination_by cs => cs.length
decreasing_by
  · exact Nat.lt_succ_self _
  · exact Nat.lt_succ_self _
  · exact Nat.lt_succ_self _
  · exact Nat.lt_succ_of_le (List.dropWhile_sublist _).length_le

/-- The lexemes of a grammar text. -/
def scan (source : String) : List Lexeme := scanFrom .first source.toList

end Lexeme

end CanonicalLR
