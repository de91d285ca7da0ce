import CanonicalLR.Lexeme
import CanonicalLR.Proofs.Text.Places

/-!
# The scanner

The scanner reads a text from character to character. It keeps the characters ahead with their offsets and the place reached, looks at one character before it takes it, and cuts a name out of the text between two offsets. All that it does until the end of the text is to find the lexemes of `Lexeme.scan` (`Scanner.reads_scan`). Between two lexemes it is always in a state `behind` the part of the text that it has read, and there the offset of the next character is the length of this part, so that no slice can fail.
-/

namespace CanonicalLR

structure Scanner where
  source : String
  ahead : List (Nat × Char)
  location : Location

namespace Scanner

def start (source : String) : Scanner := ⟨source, Text.indices 0 source.toList, .first⟩

/-- Takes the blanks that are ahead. -/
def skipBlanks (location : Location) : List (Nat × Char) → Location × List (Nat × Char)
  | [] => (location, [])
  | (offset, c) :: rest =>
    if Text.isBlank c then skipBlanks (location.after c) rest else (location, (offset, c) :: rest)

/-- Takes the word characters that are ahead of the offset `stop`, and gives the offset behind them. -/
def skipWord (stop : Nat) (location : Location) : List (Nat × Char) → Nat × Location × List (Nat × Char)
  | [] => (stop, location, [])
  | (offset, c) :: rest =>
    if Text.isBlank c || Lexeme.isPunctuation c then (stop, location, (offset, c) :: rest)
    else skipWord (offset + c.utf8Size) (location.after c) rest

/-- The lexeme that starts with the next character, which is no blank, and the scanner behind it; there is none if a
slice does not exist. -/
def lexeme? (source : String) (location : Location) : List (Nat × Char) → Option (Lexeme × Scanner)
  | [] => some (⟨.endOfText, "", location⟩, ⟨source, [], location⟩)
  | (start, c) :: rest =>
    if c = ':' then some (⟨.colon, ":", location⟩, ⟨source, rest, location.after c⟩)
    else if c = ';' then some (⟨.semicolon, ";", location⟩, ⟨source, rest, location.after c⟩)
    else
      let (stop, place, left) := skipWord (start + c.utf8Size) (location.after c) rest
      if c = '@' then
        if stop = start + 1 then some (⟨.unknown, "@", location⟩, ⟨source, left, place⟩)
        else (Text.slice? source (start + 1) stop).map fun name => (⟨.reference, name, location⟩, ⟨source, left, place⟩)
      else (Text.slice? source start stop).map fun name => (⟨.literal, name, location⟩, ⟨source, left, place⟩)

def next? (s : Scanner) : Option (Lexeme × Scanner) :=
  let (location, ahead) := skipBlanks s.location s.ahead
  lexeme? s.source location ahead

/-- What is read lexeme by lexeme, up to the end of the text. -/
inductive Reads : Scanner → List Lexeme → Prop where
  | last {s s' : Scanner} {l : Lexeme} : s.next? = some (l, s') → l.kind = .endOfText → Reads s [l]
  | more {s s' : Scanner} {l : Lexeme} {lexemes : List Lexeme} : s.next? = some (l, s') → l.kind ≠ .endOfText →
      Reads s' lexemes → Reads s (l :: lexemes)

/-- The scanner between what is read and what is ahead. -/
def behind (before after : List Char) (location : Location) : Scanner :=
  ⟨String.ofList (before ++ after), Text.indices (String.utf8Len before) after, location⟩

variable {before rest : List Char} {c : Char} {location : Location}

theorem kind_ofWord_ne (c : Char) (more : List Char) (location : Location) :
    (Lexeme.ofWord c more location).kind ≠ .endOfText := by
  unfold Lexeme.ofWord
  split
  · split <;> exact nofun
  · exact nofun

theorem Reads.of_next?_eq {s s' : Scanner} {lexemes : List Lexeme} (h : s'.Reads lexemes) (hnext : s.next? = s'.next?) :
    s.Reads lexemes := by
  cases h with
  | last hl hkind => exact .last (hnext.trans hl) hkind
  | more hl hkind hrest => exact .more (hnext.trans hl) hkind hrest

theorem behind_append (before word after : List Char) (location : Location) :
    behind (before ++ word) after location = ⟨String.ofList (before ++ (word ++ after)),
      Text.indices (String.utf8Len before + String.utf8Len word) after, location⟩ := by
  rw [behind, List.append_assoc, String.utf8Len_append]

theorem next?_blank (h : Text.isBlank c = true) :
    (behind before (c :: rest) location).next? = (behind (before ++ [c]) rest (location.after c)).next? := by
  rw [behind_append]
  simp only [next?, behind, Text.indices, skipBlanks, h, if_true, String.utf8Len_cons, String.utf8Len_nil, Nat.zero_add,
    List.singleton_append]

theorem next?_of_not_blank (h : Text.isBlank c ≠ true) : (behind before (c :: rest) location).next?
    = lexeme? (String.ofList (before ++ c :: rest)) location
        ((String.utf8Len before, c) :: Text.indices (String.utf8Len before + c.utf8Size) rest) := by
  simp only [next?, behind, Text.indices, skipBlanks, if_neg h]

theorem skipWord_indices (offset : Nat) (location : Location) (cs : List Char) :
    skipWord offset location (Text.indices offset cs) =
      (offset + String.utf8Len (cs.takeWhile Lexeme.isWordChar), location.afterAll (cs.takeWhile Lexeme.isWordChar),
        Text.indices (offset + String.utf8Len (cs.takeWhile Lexeme.isWordChar)) (cs.dropWhile Lexeme.isWordChar)) := by
  induction cs generalizing offset location with
  | nil => rfl
  | cons c rest ih =>
    have hword : Lexeme.isWordChar c = !(Text.isBlank c || Lexeme.isPunctuation c) := (Bool.not_or _ _).symm
    rw [Text.indices, skipWord]
    by_cases hends : (Text.isBlank c || Lexeme.isPunctuation c) = true
    · have hc : Lexeme.isWordChar c ≠ true := by simp [hword, hends]
      rw [if_pos hends, List.takeWhile_cons_of_neg hc, List.dropWhile_cons_of_neg hc]
      rfl
    · have hc : Lexeme.isWordChar c = true := by simp [hword, hends]
      rw [if_neg hends, ih, List.takeWhile_cons_of_pos hc, List.dropWhile_cons_of_pos hc, String.utf8Len_cons,
        Location.afterAll_cons, Nat.add_assoc, Nat.add_comm c.utf8Size]

theorem next?_colon : (behind before (':' :: rest) location).next?
    = some (⟨.colon, ":", location⟩, behind (before ++ [':']) rest (location.after ':')) := by
  rw [next?_of_not_blank (by decide), lexeme?, if_pos rfl, behind_append]
  rfl

theorem next?_semicolon : (behind before (';' :: rest) location).next?
    = some (⟨.semicolon, ";", location⟩, behind (before ++ [';']) rest (location.after ';')) := by
  rw [next?_of_not_blank (by decide), lexeme?, if_neg (by decide), if_pos rfl, behind_append]
  rfl

theorem next?_word (hblank : Text.isBlank c ≠ true) (hcolon : c ≠ ':') (hsemicolon : c ≠ ';') :
    (behind before (c :: rest) location).next?
      = some (Lexeme.ofWord c (rest.takeWhile Lexeme.isWordChar) location,
          behind (before ++ c :: rest.takeWhile Lexeme.isWordChar) (rest.dropWhile Lexeme.isWordChar)
            (location.afterAll (c :: rest.takeWhile Lexeme.isWordChar))) := by
  have hrest := List.takeWhile_append_dropWhile (p := Lexeme.isWordChar) (l := rest)
  rw [next?_of_not_blank hblank, lexeme?, if_neg hcolon, if_neg hsemicolon]
  simp only [skipWord_indices]
  generalize rest.takeWhile Lexeme.isWordChar = word at hrest ⊢
  generalize rest.dropWhile Lexeme.isWordChar = after at hrest ⊢
  subst hrest
  rw [behind_append, Lexeme.ofWord, Location.afterAll_cons, String.utf8Len_cons, Nat.add_comm (String.utf8Len word),
    ← Nat.add_assoc]
  by_cases hat : c = '@'
  · subst hat
    have hsize : '@'.utf8Size = 1 := rfl
    have hslice := Text.slice?_tail before '@' word after
    rw [if_pos rfl, if_pos rfl]
    rw [hsize] at hslice ⊢
    by_cases hword : word = []
    · rw [hword, if_pos (by rfl)]
      rfl
    · have hstop : String.utf8Len before + 1 + String.utf8Len word ≠ String.utf8Len before + 1 := by
        have hlength := mt String.utf8Len_eq_zero.1 hword
        omega
      rw [if_neg hstop, if_neg (mt List.isEmpty_iff.1 hword)]
      exact congrArg (Option.map _) hslice
  · rw [if_neg hat, if_neg hat]
    exact congrArg (Option.map _) (Text.slice?_cons before c word after)

/-- The scanner finds the lexemes of the characters ahead, and no slice fails. -/
theorem reads_scanFrom (before : List Char) (location : Location) (cs : List Char) :
    (behind before cs location).Reads (Lexeme.scanFrom location cs) := by
  induction location, cs using Lexeme.scanFrom.induct generalizing before with
  | case1 location =>
    rw [Lexeme.scanFrom]
    exact .last rfl rfl
  | case2 location c rest hblank ih =>
    rw [Lexeme.scanFrom, if_pos hblank]
    exact (ih (before ++ [c])).of_next?_eq (next?_blank hblank)
  | case3 location rest hblank ih =>
    rw [Lexeme.scanFrom, if_neg hblank, if_pos rfl]
    exact .more next?_colon nofun (ih _)
  | case4 location rest hblank hcolon ih =>
    rw [Lexeme.scanFrom, if_neg hblank, if_neg hcolon, if_pos rfl]
    exact .more next?_semicolon nofun (ih _)
  | case5 location c rest hblank hcolon hsemicolon more ih =>
    rw [Lexeme.scanFrom, if_neg hblank, if_neg hcolon, if_neg hsemicolon]
    exact .more (next?_word hblank hcolon hsemicolon) (kind_ofWord_ne c _ _) (ih _)

theorem reads_scan (source : String) : (start source).Reads (Lexeme.scan source) := by
  have hstart : start source = behind [] source.toList .first := by
    rw [behind, List.nil_append, String.ofList_toList]
    rfl
  rw [hstart]
  exact reads_scanFrom [] .first source.toList

end Scanner

end CanonicalLR
