import CanonicalLR.Location
import CanonicalLR.Text.Blank

/-!
# Tokens

What a parser reads: a kind, which is the name of a terminal, the text it stands for, and perhaps a
place. A token with the empty kind ends the input. The words of a text are tokens too, each of the
kind that it spells.
-/

namespace CanonicalLR

structure Token where
  kind : String
  text : String
  location : Option Location
deriving DecidableEq

namespace Token

/-- The maximal runs of characters that are no blanks, with the column where each starts. -/
def words (column : Nat) : List Char → List (Nat × List Char)
  | [] => []
  | c :: rest =>
    if Text.isBlank c then words (column + 1) rest
    else
      let more := rest.takeWhile fun d => !Text.isBlank d
      (column, c :: more) :: words (column + (more.length + 1)) (rest.dropWhile fun d => !Text.isBlank d)
termination_by cs => cs.length
decreasing_by
  · exact Nat.lt_succ_self _
  · exact Nat.lt_succ_of_le (List.dropWhile_sublist _).length_le

def ofWord (line : Nat) (word : Nat × List Char) : Token :=
  let text := String.ofList word.2
  ⟨text, text, some ⟨line, word.1⟩⟩

/-- The words of a text, line by line. -/
def ofWords (text : String) : List Token :=
  (text.toList.splitOn '\n').zipIdx.flatMap fun (line, index) => (words 1 line).map (ofWord (index + 1))

end Token

end CanonicalLR
