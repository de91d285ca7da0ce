/-!
# Fields of a fixed width

A field cuts a text to its first `precision` characters and then fills it with spaces up to `width`
characters. Text leans to the left and a number to the right unless the field says otherwise; a
number is never cut. When a text is centred, an odd space goes to its right.
-/

namespace CanonicalLR.Text

inductive Align where
  | left
  | center
  | right
deriving DecidableEq

structure Field where
  width : Nat := 0
  precision : Option Nat := none
  align : Option Align := none
deriving DecidableEq

namespace Field

def blanks (n : Nat) : String := String.ofList (List.replicate n ' ')

/-- `text` with the spaces that it lacks of the width. -/
def fill (f : Field) (usual : Align) (text : String) : String :=
  let lack := f.width - text.length
  match f.align.getD usual with
  | .left => text ++ blanks lack
  | .center => blanks (lack / 2) ++ text ++ blanks (lack - lack / 2)
  | .right => blanks lack ++ text

def cut (f : Field) (text : String) : String :=
  match f.precision with
  | none => text
  | some n => String.ofList (text.toList.take n)

def pad (f : Field) (text : String) : String := f.fill .left (f.cut text)

def padNumber (f : Field) (n : Nat) : String := f.fill .right (toString n)

end Field

end CanonicalLR.Text
