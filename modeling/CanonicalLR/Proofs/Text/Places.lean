import CanonicalLR.Location
import Mathlib.Data.String.Basic

/-!
# Offsets and places

A place in a text is known in two ways. Messages name it by line and column, which are kept up from character to character and at any time are what a count of the text before the place gives (`Location.afterAll_behind`). Slices are cut by offsets, and these count bytes, of which a character takes one to four; a slice exists only between offsets that stand between characters, as those do that are reached character by character (`Text.slice?_of_append`). Names end where a character stands that is not taken, and the last lemmas say where that is.
-/

namespace CanonicalLR

namespace Location

/-- The place behind the characters: a line for each line feed, and a column for each character behind the last one. -/
def behind (cs : List Char) : Location :=
  ⟨1 + cs.count '\n', 1 + (cs.reverse.takeWhile (· ≠ '\n')).length⟩

theorem after_behind (cs : List Char) (c : Char) : (behind cs).after c = behind (cs ++ [c]) := by
  by_cases hc : c = '\n'
  · simp [after, behind, hc, Nat.add_assoc]
  · simp [after, behind, hc, List.count_cons_of_ne, Nat.add_assoc]

theorem afterAll_behind (cs ds : List Char) : (behind cs).afterAll ds = behind (cs ++ ds) := by
  induction ds generalizing cs with
  | nil => rw [afterAll_nil, List.append_nil]
  | cons d rest ih => rw [afterAll_cons, after_behind, ih, List.append_assoc, List.singleton_append]

end Location

namespace Text

/-- The characters with their byte offsets. -/
def indices (offset : Nat) : List Char → List (Nat × Char)
  | [] => []
  | c :: rest => (offset, c) :: indices (offset + c.utf8Size) rest

theorem indices_append (offset : Nat) (cs ds : List Char) :
    indices offset (cs ++ ds) = indices offset cs ++ indices (offset + String.utf8Len cs) ds := by
  induction cs generalizing offset with
  | nil => rfl
  | cons c rest ih =>
    rw [List.cons_append, indices, ih, indices, String.utf8Len_cons, Nat.add_assoc, Nat.add_comm c.utf8Size,
      List.cons_append]

/-- The text between two offsets; there is none if one of them is inside a character or behind the end. -/
def slice? (text : String) (start stop : Nat) : Option String :=
  let first : String.Pos.Raw := ⟨start⟩
  let last : String.Pos.Raw := ⟨stop⟩
  if first.isValid text && last.isValid text && start ≤ stop then some (first.extract text last) else none

theorem isValid_utf8Len (before after : List Char) :
    String.Pos.Raw.isValid (String.ofList (before ++ after)) ⟨String.utf8Len before⟩ = true := by
  refine String.Pos.Raw.isValid_eq_true_iff.2 (String.Pos.Raw.isValid_iff_exists_append.2 ?_)
  exact ⟨String.ofList before, String.ofList after, String.ofList_append, (String.rawEndPos_ofList before).symm⟩

theorem slice?_of_append (before word after : List Char) :
    slice? (String.ofList (before ++ word ++ after)) (String.utf8Len before)
      (String.utf8Len before + String.utf8Len word) = some (String.ofList word) := by
  have hfirst := isValid_utf8Len before (word ++ after)
  have hlast := isValid_utf8Len (before ++ word) after
  rw [← List.append_assoc] at hfirst
  rw [String.utf8Len_append] at hlast
  simp only [slice?, hfirst, hlast, Nat.le_add_right, decide_true, Bool.and_self, if_true]
  rw [String.extract_of_valid]

theorem slice?_cons (before : List Char) (c : Char) (word after : List Char) :
    slice? (String.ofList (before ++ c :: (word ++ after))) (String.utf8Len before)
      (String.utf8Len before + c.utf8Size + String.utf8Len word) = some (String.ofList (c :: word)) := by
  have hslice := slice?_of_append before (c :: word) after
  rw [String.utf8Len_cons, Nat.add_comm (String.utf8Len word), ← Nat.add_assoc, List.append_assoc] at hslice
  exact hslice

theorem slice?_tail (before : List Char) (c : Char) (word after : List Char) :
    slice? (String.ofList (before ++ c :: (word ++ after))) (String.utf8Len before + c.utf8Size)
      (String.utf8Len before + c.utf8Size + String.utf8Len word) = some (String.ofList word) := by
  have hslice := slice?_of_append (before ++ [c]) word after
  rw [String.utf8Len_append, String.utf8Len_cons, String.utf8Len_nil, Nat.zero_add, List.append_assoc,
    List.append_assoc, List.singleton_append] at hslice
  exact hslice

/-! ### Where taking stops -/

variable {p : Char → Bool} {c : Char}

theorem eq_false_of_mem_head?_dropWhile {cs : List Char} (h : c ∈ (cs.dropWhile p).head?) : p c = false := by
  have hhead := List.head?_dropWhile_not p cs
  rw [Option.mem_def.1 h] at hhead
  exact hhead

/-- Nothing is taken beyond a character that must not be taken. -/
theorem takeWhile_append_cons (hc : p c = false) (ds rest : List Char) :
    (ds ++ c :: rest).takeWhile p = ds.takeWhile p ∧ (ds ++ c :: rest).dropWhile p = ds.dropWhile p ++ c :: rest := by
  induction ds with
  | nil => simp [hc]
  | cons d ds ih =>
    cases hd : p d with
    | false => simp [hd]
    | true => simp [hd, ih]

end Text

end CanonicalLR
