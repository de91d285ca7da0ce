import CanonicalLR.Proofs.Text.Runs

/-!
# The words of a text, in one pass

A text can be cut into tokens by going through each of its lines once, with the offset where a word has started as the only memory. Behind the last character of a line comes one more blank, so that every word has an end. This finds the words of `Token.ofWords` (`Token.split?_eq`), although the lines are not quite the parts between line feeds: a carriage return before a line feed is not part of its line, and there is no line behind a last line feed. Neither makes a difference, for a carriage return at the end of a line belongs to no word, nor does an empty line have one. Among the tokens each run of the text is found once, at its place, and the scanner agrees where it finds nothing but words.
-/

namespace CanonicalLR

namespace Text

/-- The lines of a text that was split at its line feeds: all but the last lose a carriage return at their end, and the
last is no line if it is empty. -/
def trimLines : List (List Char) → List (List Char)
  | [] => []
  | [last] => if last.isEmpty then [] else [last]
  | line :: next :: rest =>
    (if line.getLast? = some '\r' then line.dropLast else line) :: trimLines (next :: rest)

def lines (cs : List Char) : List (List Char) := trimLines (cs.splitOn '\n')

end Text

namespace Token

/-- Looks at one character: `s.1` is the offset where the word has started that goes on, if one does, and `s.2` are the
tokens that have been found. There is no next state if a slice does not exist. -/
def visit? (line : String) (number : Nat) (s : Option Nat × List Token) (place : Nat × Char) :
    Option (Option Nat × List Token) :=
  match s.1, Text.isBlank place.2 with
  | none, false => some (some place.1, s.2)
  | some start, true => do
    let word ← Text.slice? line start place.1
    let ahead ← Text.slice? line 0 start
    return (none, s.2 ++ [⟨word, word, some ⟨number, ahead.length + 1⟩⟩])
  | _, _ => some s

/-- Adds the tokens of a line. -/
def visitLine? (tokens : List Token) (line : List Char × Nat) : Option (List Token) :=
  let places := Text.indices 0 line.1 ++ [(String.utf8Len line.1, ' ')]
  (places.foldlM (visit? (String.ofList line.1) (line.2 + 1)) (none, tokens)).map Prod.snd

def split? (text : String) : Option (List Token) := (Text.lines text.toList).zipIdx.foldlM visitLine? []

/-! ### One line -/

/-- What is visited behind `before`. -/
def visits (before cs : List Char) : List (Nat × Char) :=
  Text.indices (String.utf8Len before) cs ++ [(String.utf8Len (before ++ cs), ' ')]

variable {before word after : List Char} {c : Char} {line : String} {number offset : Nat} {tokens : List Token}
  {places : List (Nat × Char)}

theorem visits_append (before cs ds : List Char) :
    visits before (cs ++ ds) = Text.indices (String.utf8Len before) cs ++ visits (before ++ cs) ds := by
  simp only [visits, Text.indices_append, String.utf8Len_append, List.append_assoc]

theorem visits_cons (before : List Char) (c : Char) (rest : List Char) :
    visits before (c :: rest) = (String.utf8Len before, c) :: visits (before ++ [c]) rest :=
  visits_append before [c] rest

/-- The visit behind a word is that of a blank, at the end of the line too. -/
theorem exists_visits_cons (before : List Char) (h : ∀ c ∈ after.head?, Text.isBlank c = true) :
    ∃ c places, Text.isBlank c = true ∧ visits before after = (String.utf8Len before, c) :: places := by
  cases after with
  | nil => exact ⟨' ', [], rfl, by rw [visits, List.append_nil]; rfl⟩
  | cons c rest => exact ⟨c, _, h c rfl, rfl⟩

theorem foldlM_blank (hc : Text.isBlank c = true) : ((offset, c) :: places).foldlM (visit? line number) (none, tokens)
    = places.foldlM (visit? line number) (none, tokens) := by
  have hvisit : visit? line number (none, tokens) (offset, c) = some (none, tokens) := by simp only [visit?, hc]
  rw [List.foldlM_cons, hvisit]
  rfl

theorem foldlM_more {start : Nat} (hword : ∀ c ∈ word, Text.isBlank c = false) (offset : Nat) :
    (Text.indices offset word ++ places).foldlM (visit? line number) (some start, tokens)
      = places.foldlM (visit? line number) (some start, tokens) := by
  induction word generalizing offset with
  | nil => rfl
  | cons c rest ih =>
    have hvisit : visit? line number (some start, tokens) (offset, c) = some (some start, tokens) := by
      simp only [visit?, hword c List.mem_cons_self]
    rw [Text.indices, List.cons_append, List.foldlM_cons, hvisit]
    exact ih (fun d hd => hword d (List.mem_cons_of_mem _ hd)) _

/-- Through a word nothing but its start is kept. -/
theorem foldlM_word (hne : word ≠ []) (hword : ∀ c ∈ word, Text.isBlank c = false) :
    (Text.indices offset word ++ places).foldlM (visit? line number) (none, tokens)
      = places.foldlM (visit? line number) (some offset, tokens) := by
  cases word with
  | nil => exact absurd rfl hne
  | cons c rest =>
    have hvisit : visit? line number (none, tokens) (offset, c) = some (some offset, tokens) := by
      simp only [visit?, hword c List.mem_cons_self]
    rw [Text.indices, List.cons_append, List.foldlM_cons, hvisit]
    exact foldlM_more (fun d hd => hword d (List.mem_cons_of_mem _ hd)) _

theorem foldlM_end (hline : line = String.ofList (before ++ word ++ after)) (hc : Text.isBlank c = true) :
    ((String.utf8Len (before ++ word), c) :: places).foldlM (visit? line number) (some (String.utf8Len before), tokens)
      = places.foldlM (visit? line number) (none, tokens ++ [ofWord number (before.length + 1, word)]) := by
  have hword := Text.slice?_of_append before word after
  have hahead := Text.slice?_of_append [] before (word ++ after)
  rw [List.nil_append, ← List.append_assoc, String.utf8Len_nil, Nat.zero_add] at hahead
  rw [← hline] at hword hahead
  have hvisit : visit? line number (some (String.utf8Len before), tokens) (String.utf8Len (before ++ word), c)
      = some (none, tokens ++ [ofWord number (before.length + 1, word)]) := by
    simp [visit?, hc, hword, hahead, ofWord]
  rw [List.foldlM_cons, hvisit]
  rfl

/-- Where no word has started, the words ahead are found. -/
theorem foldlM_visits (number : Nat) (before cs : List Char) (tokens : List Token) :
    (visits before cs).foldlM (visit? (String.ofList (before ++ cs)) number) (none, tokens)
      = some (none, tokens ++ (words (before.length + 1) cs).map (ofWord number)) := by
  induction before, cs using Text.runs.induct generalizing tokens with
  | case1 before =>
    rw [words, visits, Text.indices, List.nil_append, foldlM_blank rfl]
    simp only [List.foldlM_nil, List.map_nil, List.append_nil]
    rfl
  | case2 before c rest hc ih =>
    have ih := ih tokens
    rw [List.append_assoc, List.length_append] at ih
    rw [visits_cons, foldlM_blank hc, words, if_pos hc]
    exact ih
  | case3 before c rest hc more ih =>
    have hcs := Text.cons_takeWhile_append_dropWhile c rest
    obtain ⟨b, places, hb, hvisits⟩ := exists_visits_cons (before ++ c :: more) (Text.isBlank_head?_dropWhile rest)
    have ih := ih (tokens ++ [ofWord number (before.length + 1, c :: more)])
    rw [hvisits, foldlM_blank hb, List.append_assoc before, hcs, List.length_append, Nat.add_right_comm] at ih
    rw [words, if_neg hc, ← hcs, visits_append, foldlM_word (List.cons_ne_nil _ _) fun d => Text.isBlank_of_mem_cons_takeWhile hc,
      hvisits, foldlM_end (by rw [List.append_assoc]) hb, hcs, ih, List.append_assoc]
    rfl

theorem visitLine?_eq (tokens : List Token) (line : List Char) (index : Nat) :
    visitLine? tokens (line, index) = some (tokens ++ (words 1 line).map (ofWord (index + 1))) := by
  have hvisits := foldlM_visits (index + 1) [] line tokens
  exact congrArg (Option.map Prod.snd) hvisits

/-! ### All lines -/

theorem words_concat (hc : Text.isBlank c = true) (column : Nat) (cs : List Char) :
    words column (cs ++ [c]) = words column cs := by
  induction column, cs using words.induct with
  | case1 column => rw [List.nil_append, words, words, if_pos hc, words]
  | case2 column b rest hb ih => rw [List.cons_append, words, if_pos hb, ih, words, if_pos hb]
  | case3 column b rest hb more ih =>
    have hc' : (!Text.isBlank c) = false := by rw [hc, Bool.not_true]
    obtain ⟨htake, hdrop⟩ := Text.takeWhile_append_cons (p := (!Text.isBlank ·)) hc' rest []
    rw [List.cons_append, words, if_neg hb, words, if_neg hb]
    simp only [htake, hdrop, ih, more]

theorem words_trim (line : List Char) :
    words 1 (if line.getLast? = some '\r' then line.dropLast else line) = words 1 line := by
  split
  · rename_i hlast
    have hwords := words_concat (c := '\r') rfl 1 line.dropLast
    rw [List.dropLast_append_getLast? '\r' hlast] at hwords
    exact hwords.symm
  · rfl

theorem foldlM_lines (lines : List (List Char)) (index : Nat) (tokens : List Token) :
    ((Text.trimLines lines).zipIdx index).foldlM visitLine? tokens = some (tokens
      ++ (lines.zipIdx index).flatMap fun (line, index) => (words 1 line).map (ofWord (index + 1))) := by
  induction lines using Text.trimLines.induct generalizing index tokens with
  | case1 => simp [Text.trimLines]
  | case2 last hempty =>
    rw [List.isEmpty_iff.1 hempty]
    simp [Text.trimLines, words]
  | case3 last hempty =>
    rw [Text.trimLines, if_neg hempty]
    simp [visitLine?_eq]
  | case4 line next rest ih =>
    rw [Text.trimLines, List.zipIdx_cons, List.foldlM_cons, visitLine?_eq, words_trim, List.zipIdx_cons,
      List.flatMap_cons, ← List.append_assoc]
    exact ih _ _

/-- The words are found in one pass, and no slice fails. -/
theorem split?_eq (text : String) : split? text = some (ofWords text) := foldlM_lines _ 0 []

/-- **The tokens of a text are its runs**, in their order and each at its place. The lexemes of a text without
punctuation are the same words at the same places. -/
theorem ofWords_finds_runs (text : String) :
    split? text = some (ofWords text) ∧
    (∃ runs : List (List Char × List Char),
      ofWords text = runs.map (fun run => ⟨String.ofList run.2, String.ofList run.2, some (.behind run.1)⟩) ∧
      (∀ before word, (before, word) ∈ runs ↔ Text.IsRun text.toList before word) ∧
      runs.Pairwise fun run run' => run.1.length < run'.1.length) ∧
    ((∀ c ∈ text.toList, Lexeme.isPunctuation c = false) →
      ((Lexeme.scan text).takeWhile (·.kind ≠ .endOfText)).map (fun l => (l.text, some l.location))
        = (ofWords text).map fun t => (t.text, t.location)) := by
  refine ⟨split?_eq text, ⟨Text.runs [] text.toList, ofWords_eq_map_runs text, fun before word => Text.mem_runs_iff,
    Text.pairwise_runs [] text.toList⟩, fun h => ?_⟩
  have hscan : Lexeme.scan text = _ := Lexeme.scanFrom_eq_map_runs [] h
  have hliteral : ∀ l ∈ (Text.runs [] text.toList).map
      (fun run => (⟨.literal, String.ofList run.2, .behind run.1⟩ : Lexeme)), decide (l.kind ≠ .endOfText) = true := by
    intro l hl
    obtain ⟨run, -, rfl⟩ := List.mem_map.1 hl
    rfl
  rw [hscan, List.takeWhile_append_of_pos hliteral, ofWords_eq_map_runs]
  simp [ofRun]

/-- Lines that end in two ways, and blanks that end no line. -/
theorem ofWords_finds_runs_of_lines :
    (∀ c ∈ "a\r\n ñü\u2028b\n\u0085c\r".toList, Lexeme.isPunctuation c = false) ∧
    ((Lexeme.scan "a\r\n ñü\u2028b\n\u0085c\r").takeWhile (·.kind ≠ .endOfText)).map (fun l => (l.text, some l.location))
      = [("a", some ⟨1, 1⟩), ("ñü", some ⟨2, 2⟩), ("b", some ⟨2, 5⟩), ("c", some ⟨3, 2⟩)] := by
  have hall : "a\r\n ñü\u2028b\n\u0085c\r".toList.all (!Lexeme.isPunctuation ·) = true := by decide +kernel
  have hnone : ∀ c ∈ "a\r\n ñü\u2028b\n\u0085c\r".toList, Lexeme.isPunctuation c = false :=
    fun c hc => by simpa using List.all_eq_true.1 hall c hc
  refine ⟨hnone, ((ofWords_finds_runs _).2.2 hnone).trans ?_⟩
  decide +kernel

end Token

end CanonicalLR
