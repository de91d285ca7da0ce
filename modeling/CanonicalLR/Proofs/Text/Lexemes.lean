import CanonicalLR.Proofs.Grammar.Printing
import CanonicalLR.Proofs.Text.Scanner

/-!
# What scanning keeps of a text

Nothing of a text is lost in its lexemes but blanks: a text is the spellings of its lexemes, with blanks before each and behind the last. A lexeme also stands where it says, between the part of the text before it and the part behind it (`Lexeme.Stands`). What is behind it says that no name could have been longer and which `@` are unknown. Each of these holds of the one lexeme with which the text goes on behind some blanks (`exists_stands`), and hence of all of them, the text becoming shorter with every lexeme.
-/

namespace CanonicalLR

namespace Lexeme

/-- The characters that the lexeme stands for. -/
def spelling (l : Lexeme) : List Char :=
  match l.kind with
  | .endOfText => []
  | .unknown => ['@']
  | .colon => [':']
  | .semicolon => [';']
  | .reference => '@' :: l.text.toList
  | .literal => l.text.toList

/-- The lexeme is right for its place between the characters before it and those behind it: it is the one that starts
there, and it ends where it must. -/
structure Stands (before : List Char) (l : Lexeme) (after : List Char) : Prop where
  kind_ne : l.kind ≠ .endOfText
  location_eq : l.location = .behind before
  name : l.kind = .literal ∨ l.kind = .reference → Legal l.text ∧ EndsWord after
  unknown_iff : l.kind = .unknown ↔ ∃ rest, l.spelling ++ after = '@' :: rest ∧ EndsWord rest

/-- Lexemes with the blanks before each, written one behind the other. -/
def writeAll (rows : List (List Char × Lexeme)) : List Char := rows.flatMap fun row => row.1 ++ row.2.spelling

variable {before after cs more : List Char} {c : Char} {location : Location}

theorem endsWord_dropWhile (cs : List Char) : EndsWord (cs.dropWhile isWordChar) :=
  fun _ => Text.eq_false_of_mem_head?_dropWhile

/-- A word is cut off only before its first character or behind its last one. -/
theorem endsWord_append_iff (hmore : ∀ d ∈ more, isWordChar d = true) (hafter : EndsWord after) :
    EndsWord (more ++ after) ↔ more = [] := by
  cases more with
  | nil => exact ⟨fun _ => rfl, fun _ => hafter⟩
  | cons d rest =>
    refine ⟨fun h => ?_, nofun⟩
    have hd := h d rfl
    rw [hmore d List.mem_cons_self] at hd
    cases hd

theorem spelling_ofWord (c : Char) (more : List Char) (location : Location) :
    (ofWord c more location).spelling = c :: more := by
  unfold ofWord
  split
  · rename_i hat
    split
    · rename_i hempty
      rw [hat, List.isEmpty_iff.1 hempty]
      rfl
    · rw [hat, spelling, String.toList_ofList]
  · rw [spelling, String.toList_ofList]

theorem location_ofWord (c : Char) (more : List Char) (location : Location) :
    (ofWord c more location).location = location := by
  unfold ofWord
  split
  · split <;> rfl
  · rfl

theorem kind_ofWord_eq_unknown_iff : (ofWord c more location).kind = .unknown ↔ c = '@' ∧ more = [] := by
  unfold ofWord
  split
  · rename_i hat
    split
    · rename_i hempty
      exact iff_of_true rfl ⟨hat, List.isEmpty_iff.1 hempty⟩
    · rename_i hempty
      exact iff_of_false nofun fun h => hempty (List.isEmpty_iff.2 h.2)
  · rename_i hat
    exact iff_of_false nofun fun h => hat h.1

theorem stands_punctuation {l : Lexeme} (h : l.kind = .colon ∨ l.kind = .semicolon)
    (hlocation : l.location = .behind before) : l.Stands before after where
  kind_ne hkind := by simp [hkind] at h
  location_eq := hlocation
  name hkind := by rcases h with h | h <;> simp [h] at hkind
  unknown_iff := by rcases h with h | h <;> simp [h, spelling]

theorem stands_ofWord (hblank : ¬ Text.isBlank c = true) (hcolon : c ≠ ':') (hsemicolon : c ≠ ';')
    (hmore : ∀ d ∈ more, isWordChar d = true) (hafter : EndsWord after) :
    Stands before (ofWord c more (.behind before)) after where
  kind_ne := Scanner.kind_ofWord_ne c more _
  location_eq := location_ofWord c more _
  name hkind := ⟨legal_ofWord hblank hcolon hsemicolon hmore hkind, hafter⟩
  unknown_iff := by
    rw [kind_ofWord_eq_unknown_iff, spelling_ofWord]
    constructor
    · rintro ⟨rfl, rfl⟩
      exact ⟨after, rfl, hafter⟩
    · rintro ⟨rest, h, hrest⟩
      obtain ⟨hc, rfl⟩ := List.cons.inj h
      exact ⟨hc, (endsWord_append_iff hmore hafter).1 hrest⟩

/-- At a character that is no blank a lexeme starts, and behind its spelling the scanner goes on. -/
theorem exists_stands (hblank : ¬ Text.isBlank c = true) (before rest : List Char) :
    ∃ l after, l.spelling ++ after = c :: rest ∧ after.length ≤ rest.length ∧ l.Stands before after
      ∧ scanFrom (.behind before) (c :: rest) = l :: scanFrom (.behind (before ++ l.spelling)) after := by
  by_cases hcolon : c = ':'
  · subst hcolon
    refine ⟨⟨.colon, ":", .behind before⟩, rest, rfl, le_rfl, stands_punctuation (.inl rfl) rfl, ?_⟩
    rw [scanFrom_colon, Location.after_behind]
    rfl
  by_cases hsemicolon : c = ';'
  · subst hsemicolon
    refine ⟨⟨.semicolon, ";", .behind before⟩, rest, rfl, le_rfl, stands_punctuation (.inr rfl) rfl, ?_⟩
    rw [scanFrom_semicolon, Location.after_behind]
    rfl
  have hmore : ∀ d ∈ rest.takeWhile isWordChar, isWordChar d = true := fun d hd => List.mem_takeWhile_imp hd
  refine ⟨_, rest.dropWhile isWordChar, ?_, (List.dropWhile_sublist _).length_le,
    stands_ofWord hblank hcolon hsemicolon hmore (endsWord_dropWhile rest), ?_⟩
  · rw [spelling_ofWord, List.cons_append, List.takeWhile_append_dropWhile]
  · rw [scanFrom, if_neg hblank, if_neg hcolon, if_neg hsemicolon, spelling_ofWord]
    simp only [Location.afterAll_behind]

/-- The rows are what the scanner reads from the characters behind `before`. -/
structure Reading (before cs : List Char) (rows : List (List Char × Lexeme)) (last : List Char) : Prop where
  scan_eq : scanFrom (.behind before) cs = rows.map Prod.snd ++ [⟨.endOfText, "", .behind (before ++ cs)⟩]
  write_eq : writeAll rows ++ last = cs
  blank : ∀ row ∈ rows, Blank row.1
  blank_last : Blank last
  stands : ∀ front blanks l back, rows = front ++ (blanks, l) :: back →
    l.Stands (before ++ writeAll front ++ blanks) (writeAll back ++ last)

theorem writeAll_cons (row : List Char × Lexeme) (rows : List (List Char × Lexeme)) :
    writeAll (row :: rows) = row.1 ++ row.2.spelling ++ writeAll rows := List.flatMap_cons

theorem Reading.nil {last : List Char} (h : Blank last) (before : List Char) : Reading before last [] last where
  scan_eq := by
    have hscan := scanFrom_blanks h (.behind before) []
    rw [List.append_nil, Location.afterAll_behind, scanFrom] at hscan
    exact hscan
  write_eq := rfl
  blank := nofun
  blank_last := h
  stands front blanks l back h := by simp at h

theorem Reading.cons {blanks : List Char} {l : Lexeme} {rows : List (List Char × Lexeme)} {last : List Char}
    (hblank : Blank blanks) (hl : l.Stands (before ++ blanks) after)
    (hscan : scanFrom (.behind (before ++ blanks)) (l.spelling ++ after)
      = l :: scanFrom (.behind (before ++ blanks ++ l.spelling)) after)
    (h : Reading (before ++ blanks ++ l.spelling) after rows last) :
    Reading before (blanks ++ (l.spelling ++ after)) ((blanks, l) :: rows) last where
  scan_eq := by
    rw [scanFrom_blanks hblank, Location.afterAll_behind, hscan, h.scan_eq, List.map_cons, List.cons_append]
    simp only [List.append_assoc]
  write_eq := by rw [writeAll_cons, List.append_assoc, List.append_assoc, h.write_eq]
  blank := List.forall_mem_cons.2 ⟨hblank, h.blank⟩
  blank_last := h.blank_last
  stands front blanks' l' back hrows := by
    cases front with
    | nil =>
      obtain ⟨hrow, rfl⟩ := List.cons.inj hrows
      obtain ⟨rfl, rfl⟩ := Prod.mk.inj hrow
      rw [h.write_eq, writeAll, List.flatMap_nil, List.append_nil]
      exact hl
    | cons row front =>
      obtain ⟨rfl, hrest⟩ := List.cons.inj hrows
      have hstands := h.stands front blanks' l' back hrest
      rw [writeAll_cons]
      simpa only [List.append_assoc] using hstands

theorem exists_blanks (cs : List Char) :
    ∃ blanks rest, blanks ++ rest = cs ∧ Blank blanks ∧ ∀ c ∈ rest.head?, ¬ Text.isBlank c = true := by
  refine ⟨_, _, List.takeWhile_append_dropWhile (p := Text.isBlank), fun c hc => List.mem_takeWhile_imp hc, ?_⟩
  exact fun c hc => Bool.not_eq_true _ ▸ Text.eq_false_of_mem_head?_dropWhile hc

theorem exists_reading (before cs : List Char) : ∃ rows last, Reading before cs rows last := by
  induction hlength : cs.length using Nat.strong_induction_on generalizing before cs with
  | _ n ih =>
    obtain ⟨blanks, rest, rfl, hblank, hrest⟩ := exists_blanks cs
    cases rest with
    | nil => exact ⟨[], blanks, (List.append_nil blanks).symm ▸ .nil hblank before⟩
    | cons c rest =>
      obtain ⟨l, after, hl, hle, hstands, hscan⟩ := exists_stands (hrest c rfl) (before ++ blanks) rest
      obtain ⟨rows, last, hreading⟩ := ih after.length (by simp at hlength; omega)
        (before ++ blanks ++ l.spelling) after rfl
      rw [← hl] at hscan ⊢
      exact ⟨(blanks, l) :: rows, last, hreading.cons hblank hstands hscan⟩

/-- **Scanning loses nothing but blanks.** The scanner comes to the end of the text; its lexemes, each behind some blanks,
are written as the text; and every lexeme is right for its place. -/
theorem scan_lossless (source : String) : (Scanner.start source).Reads (scan source) ∧
    ∃ (rows : List (List Char × Lexeme)) (last : List Char),
      scan source = rows.map Prod.snd ++ [⟨.endOfText, "", .behind source.toList⟩] ∧
      writeAll rows ++ last = source.toList ∧ (∀ row ∈ rows, Blank row.1) ∧ Blank last ∧
      ∀ front blanks l back, rows = front ++ (blanks, l) :: back →
        l.Stands (writeAll front ++ blanks) (writeAll back ++ last) := by
  obtain ⟨rows, last, h⟩ := exists_reading [] source.toList
  exact ⟨Scanner.reads_scan source, rows, last, h.scan_eq, h.write_eq, h.blank, h.blank_last, h.stands⟩

end Lexeme

end CanonicalLR
