import CanonicalLR.Grammar.Basic
import CanonicalLR.Lexeme

/-!
# Reading a grammar text

A grammar text is a row of productions, each of the form `name : symbol symbol ... ;` with at least one
symbol, where a symbol behind `@` is a nonterminal. Reading goes on to the first lexeme that
cannot stand where it does; the productions completed before it are kept, because the log tells of those
that were written twice.
-/

namespace CanonicalLR

namespace Grammar

/-- Where in a production the reader is. -/
inductive Position where
  | name
  | colon (name : String)
  /-- Among the symbols, those read so far being listed backwards. -/
  | symbols (name : String) (read : List Symbol)
deriving DecidableEq

/-- The kinds of lexeme that can stand at a position, in the order in which a message lists them; the
end of the text can also stand in place of a name. -/
def Position.expected : Position → List LexemeKind
  | name => [.literal]
  | colon _ => [.colon]
  | symbols _ [] => [.reference, .literal]
  | symbols _ (_ :: _) => [.semicolon, .reference, .literal]

/-- A lexeme that cannot stand where it does, with the kinds that can. -/
structure Fault where
  lexeme : Lexeme
  expected : List LexemeKind
deriving DecidableEq

/-- The productions in the order in which they were written, repeats included, up to a fault. -/
structure Reading where
  productions : List Production
  fault : Option Fault

/-- Reads on from a position. -/
def readFrom : Position → List Lexeme → Reading
  | _, [] => ⟨[], none⟩
  | position, lexeme :: rest =>
    match position, lexeme.kind with
    | .name, .endOfText => ⟨[], none⟩
    | .name, .literal => readFrom (.colon lexeme.text) rest
    | .colon name, .colon => readFrom (.symbols name []) rest
    | .symbols name read, .literal => readFrom (.symbols name (.terminal ⟨lexeme.text⟩ :: read)) rest
    | .symbols name read, .reference => readFrom (.symbols name (.nonterminal ⟨lexeme.text⟩ :: read)) rest
    | .symbols name (last :: read), .semicolon =>
      let reading := readFrom .name rest
      { reading with productions := ⟨⟨name⟩, (last :: read).reverse⟩ :: reading.productions }
    | position, _ => ⟨[], some ⟨lexeme, position.expected⟩⟩

def read (source : String) : Reading := readFrom .name (Lexeme.scan source)

def Fault.error (fault : Fault) : GrammarError :=
  .unexpectedLexeme fault.lexeme.location (fault.expected.map LexemeKind.word) fault.lexeme.kind.word

def Reading.grammar (reading : Reading) : Except GrammarError Grammar :=
  match reading.fault with
  | some fault => .error fault.error
  | none => ofProductions reading.productions

/-- The grammar that a text describes, or the first error in it. -/
def ofSource (source : String) : Except GrammarError Grammar := (read source).grammar

end Grammar

end CanonicalLR
