import CanonicalLR.Text.Graphic

/-!
# Quoted text

Text between double quotes, written so that every character shows: the quote and the backslash are
escaped, the common controls have letters, and any other character that is not graphic is given by its
code point.
-/

namespace CanonicalLR.Text

def escape (c : Char) : String :=
  match c with
  | '"' => "\\\""
  | '\\' => "\\\\"
  | '\n' => "\\n"
  | '\r' => "\\r"
  | '\t' => "\\t"
  | '\x00' => "\\0"
  | c => if isGraphic c then c.toString else "\\u\x7b" ++ String.ofList (Nat.toDigits 16 c.toNat) ++ "\x7d"

def quote (text : String) : String := "\"" ++ String.join (text.toList.map escape) ++ "\""

/-- A list in brackets. -/
def bracket (items : List String) : String := "[" ++ String.intercalate ", " items ++ "]"

end CanonicalLR.Text
