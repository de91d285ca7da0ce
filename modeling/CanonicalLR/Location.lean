import CanonicalLR.Text.Field

/-!
# Places in a text

Lines and columns count from one. A line ends at a line feed and at nothing else, and a column is a code
point.
-/

namespace CanonicalLR

structure Location where
  line : Nat
  column : Nat
deriving DecidableEq

namespace Location

def first : Location := ⟨1, 1⟩

/-- The place behind the character `c`. -/
def after (l : Location) (c : Char) : Location :=
  if c = '\n' then ⟨l.line + 1, 1⟩ else ⟨l.line, l.column + 1⟩

def afterAll (l : Location) (cs : List Char) : Location := cs.foldl after l

def text (l : Location) : String := s!"{l.line}:{l.column}"

/-- The parts by name, each number in the field. -/
def inspect (l : Location) (f : Text.Field) : String :=
  "Location \x7b line: " ++ f.padNumber l.line ++ ", column: " ++ f.padNumber l.column ++ " \x7d"

@[simp] theorem afterAll_nil (l : Location) : l.afterAll [] = l := rfl

@[simp] theorem afterAll_cons (l : Location) (c : Char) (cs : List Char) :
    l.afterAll (c :: cs) = (l.after c).afterAll cs := rfl

end Location

end CanonicalLR
