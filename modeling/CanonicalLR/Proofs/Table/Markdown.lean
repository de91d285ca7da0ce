import Mathlib.Data.List.DropRight
import CanonicalLR.Proofs.Grammar.Printing
import CanonicalLR.Proofs.Table.Columns
import CanonicalLR.Table.Markdown

/-!
# What the markdown of a table shows

A line of the markdown is a bar and then cells, each with a bar behind it (`framed`), and a cell is its content between two spaces, nothing being the content of an unset cell. Of the contents only names come from outside, and a name has no blank in it; so no line is broken, and what is left of a cell without the blanks at its ends is the content (`Fits`). Nothing keeps a bar out of a name, however: the cells are what the line is cut into at its bars if no content has a bar in it (`shows_framed`). The heads tell columns apart, but for the end of input and a terminal that is itself called `$` (`heading_text_eq_iff`). The table of every text is shown in this way (`rendered_of_ofGrammar`).
-/

namespace CanonicalLR

namespace Text

/-- What is left without the blanks at both ends. -/
def trim (cs : List Char) : List Char := (cs.dropWhile isBlank).rdropWhile isBlank

theorem mem_trim {c : Char} {cs : List Char} (hc : isBlank c = false) (h : c ∈ cs) : c ∈ trim cs := by
  have hfront : c ∈ cs.dropWhile isBlank := by
    rw [← List.takeWhile_append_dropWhile (p := isBlank) (l := cs), List.mem_append] at h
    exact h.resolve_left fun hmem => by simpa [hc] using List.mem_takeWhile_imp hmem
  rw [← List.rdropWhile_append_rtakeWhile (p := isBlank) (l := cs.dropWhile isBlank), List.mem_append] at hfront
  exact hfront.resolve_right fun hmem => by simpa [hc] using List.mem_rtakeWhile_imp hmem

theorem isBlank_of_isDigit {c : Char} (h : c.isDigit = true) : isBlank c = false := by
  simp only [Char.isDigit, Bool.and_eq_true, decide_eq_true_eq, UInt32.le_iff_toNat_le] at h
  have hcode : 48 ≤ c.toNat ∧ c.toNat ≤ 57 := h
  have hranges : ∀ range ∈ blankRanges, range.2 < 48 ∨ 57 < range.1 := by decide
  rw [isBlank, List.any_eq_false]
  intro range hrange
  have hrange := hranges range hrange
  rw [Bool.and_eq_true, decide_eq_true_eq, decide_eq_true_eq]
  omega

end Text

open Text

theorem Terminal.text_eq_name {x : Terminal} (h : x ≠ .endMarker) : x.text = x.name := by
  rw [text, if_neg (mt isEnd_iff.1 h)]

namespace Table

/-! ### Lines of cells -/

/-- A bar, and then the cells with a bar behind each. -/
def framed (cells : List (List Char)) : List Char := '|' :: cells.flatMap (· ++ ['|'])

def padded (content : List Char) : List Char := ' ' :: (content ++ [' '])

/-- The line is made of cells with these contents, and if no content has a bar in it they are what the line is cut into,
between nothing before the first bar and nothing behind the last. -/
def Shows (line : List Char) (contents : List (List Char)) : Prop :=
  ∃ cells, line = framed cells ∧ cells.map trim = contents ∧
    ((∀ c ∈ contents, '|' ∉ c) → line.splitOn '|' = [] :: (cells ++ [[]]))

theorem splitOn_framed (cells : List (List Char)) :
    (framed cells).splitOn '|' = [] :: (cells.flatMap (·.splitOn '|') ++ [[]]) := by
  have hcells : (cells.flatMap (· ++ ['|'])).splitOn '|' = cells.flatMap (·.splitOn '|') ++ [[]] := by
    induction cells with
    | nil => rfl
    | cons cell rest ih =>
      rw [List.flatMap_cons, List.append_assoc, List.singleton_append, List.splitOn_append_cons_self, ih,
        List.flatMap_cons, List.append_assoc]
  rw [framed, ← List.nil_append ('|' :: _), List.splitOn_append_cons_self, hcells]
  rfl

theorem shows_framed {cells contents : List (List Char)} (h : cells.map trim = contents) :
    Shows (framed cells) contents := by
  refine ⟨cells, rfl, h, fun hbar => ?_⟩
  have hpieces : ∀ cell ∈ cells, cell.splitOn '|' = [cell] := by
    intro cell hcell
    refine List.splitOn_eq_singleton fun hmem => hbar (trim cell) ?_ (mem_trim rfl hmem)
    rw [← h]
    exact List.mem_map_of_mem hcell
  rw [splitOn_framed, List.flatMap_congr hpieces, List.flatMap_singleton']

theorem newline_not_mem_framed {cells : List (List Char)} (h : ∀ c ∈ cells, '\n' ∉ c) : '\n' ∉ framed cells := by
  simpa [framed] using h

/-! ### Contents of cells -/

/-- Fits into a cell: has no blank at its ends and is on one line. -/
structure Fits (content : List Char) : Prop where
  first : ∀ c ∈ content.head?, isBlank c = false
  last : ∀ c ∈ content.getLast?, isBlank c = false
  newline : '\n' ∉ content

theorem trim_padded {content : List Char} (h : Fits content) : trim (padded content) = content := by
  cases content with
  -- both spaces are blanks, and an unset cell shows nothing
  | nil => rfl
  | cons a rest =>
    have hfirst : isBlank a = false := h.first a rfl
    have hlast : (a :: rest).rdropWhile isBlank = a :: rest :=
      List.rdropWhile_eq_self_iff.2 fun hne => by simpa using h.last _ (List.getLast?_eq_some_getLast hne)
    rw [padded, trim, List.dropWhile_cons_of_pos isBlank_space, List.cons_append,
      List.dropWhile_cons_of_neg (by simp [hfirst]), ← List.cons_append,
      List.rdropWhile_concat_pos _ _ _ isBlank_space, hlast]

theorem newline_not_mem_padded {content : List Char} (h : Fits content) : '\n' ∉ padded content := by
  simpa [padded] using h.newline

theorem fits_of_isBlank {content : List Char} (h : ∀ c ∈ content, isBlank c = false) : Fits content where
  first c hc := h c (List.mem_of_mem_head? hc)
  last c hc := h c (List.mem_of_mem_getLast? hc)
  newline hmem := by simpa using h _ hmem

theorem fits_between {a b : Char} {middle : List Char} (ha : isBlank a = false) (hb : isBlank b = false)
    (h : '\n' ∉ middle) : Fits (a :: (middle ++ [b])) where
  first c hc := by
    cases hc
    exact ha
  last c hc := by
    rw [← List.cons_append, List.getLast?_concat] at hc
    cases hc
    exact hb
  newline := by
    have hnewline : ∀ c, isBlank c = false → '\n' ≠ c := fun c hc heq => by simp [← heq] at hc
    simp [hnewline a ha, hnewline b hb, h]

theorem isBlank_of_mem_toString {n : Nat} {c : Char} (h : c ∈ (toString n).toList) : isBlank c = false := by
  rw [Nat.toString_eq_repr, Nat.toList_repr] at h
  exact isBlank_of_isDigit (Nat.isDigit_of_mem_toDigits (by decide) (by decide) h)

theorem newline_not_mem_toString (n : Nat) : '\n' ∉ (toString n).toList := fun h => by
  simpa using isBlank_of_mem_toString h

theorem newline_not_mem_of_legal {name : String} (h : Lexeme.Legal name) : '\n' ∉ name.toList :=
  fun hmem => by simpa [Lexeme.isWordChar] using h.2 _ hmem

/-- The head of a column. -/
def heading (name : String) : List Char := '`' :: (name.toList ++ ['`'])

/-- The label of the line of a state. -/
def label (state : Nat) : List Char := '$' :: ("I_\x7b".toList ++ (toString state).toList ++ "\x7d".toList ++ ['$'])

/-- What a cell shows, an unset cell nothing. -/
def shown (content : Option String) : List Char := (content.getD "").toList

theorem heading_inj {m n : String} : heading m = heading n ↔ m = n := by
  rw [heading, heading, List.cons_inj_right, List.append_left_inj, String.toList_inj]

theorem shown_eq_nil_iff {α : Type} {f : α → String} (hf : ∀ a, f a ≠ "") (content : Option α) :
    shown (content.map f) = [] ↔ content = none := by
  cases content with
  | none => simp [shown]
  | some a => simpa [shown] using hf a

theorem text_ne_empty (a : Action) : a.text ≠ "" := by
  cases a <;> simp [Action.text]

theorem fits_heading {name : String} (h : '\n' ∉ name.toList) : Fits (heading name) := fits_between rfl rfl h

theorem fits_label (state : Nat) : Fits (label state) :=
  fits_between rfl rfl (by simpa using newline_not_mem_toString state)

theorem fits_number (n : Nat) : Fits (toString n).toList := fits_of_isBlank fun _ => isBlank_of_mem_toString

theorem fits_letter_number {c : Char} (hc : isBlank c = false) (n : Nat) : Fits (c :: (toString n).toList) :=
  fits_of_isBlank (List.forall_mem_cons.2 ⟨hc, fun _ => isBlank_of_mem_toString⟩)

/-- Of an action only the name that a reduction shows can have a line feed in it. -/
theorem fits_action {a : Action} (h : ∀ name count, a = .reduce name count → '\n' ∉ name.text.toList) :
    Fits a.text.toList := by
  cases a with
  | shift target =>
    have htext : (Action.shift target).text.toList = 's' :: (toString target).toList := by
      simp [Action.text]
      rfl
    rw [htext]
    exact fits_letter_number rfl target
  | goto target =>
    have htext : (Action.goto target).text.toList = 'g' :: (toString target).toList := by
      simp [Action.text]
      rfl
    rw [htext]
    exact fits_letter_number rfl target
  | reduce name count =>
    have htext : (Action.reduce name count).text.toList
        = 'r' :: ('(' :: (name.text.toList ++ ", ".toList ++ (toString count).toList) ++ [')']) := by
      simp [Action.text]
      rfl
    have hparts : '\n' ∉ name.text.toList ∧ '\n' ∉ (toString count).toList :=
      ⟨h name count rfl, newline_not_mem_toString count⟩
    rw [htext]
    exact fits_between rfl rfl (by simpa using hparts)
  | accept count =>
    have hacc : "acc".toList.all (fun c => isBlank c == false) = true := by decide
    exact fits_of_isBlank fun c hc => eq_of_beq (List.all_eq_true.1 hacc c hc)

theorem fits_shown {content : Option String} (h : ∀ s ∈ content, Fits s.toList) : Fits (shown content) := by
  cases content with
  | none => exact fits_of_isBlank nofun
  | some s => exact h s rfl

/-! ### Lines -/

def headings (t : Table) : List (List Char) :=
  t.terminals.map (fun x => heading x.text) ++ t.nonTerminals.map fun n => heading n.text

/-- As many dashes as there are columns. -/
def dashes (t : Table) : List (List Char) := List.replicate (t.terminals.length + t.nonTerminals.length) ['-']

/-- What the cells of a state show, from left to right. -/
def contents (t : Table) (state : Nat) : List (List Char) :=
  t.terminals.map (fun x => shown ((t.action? state x).map Action.text))
    ++ t.nonTerminals.map fun n => shown ((t.goto? state n).map toString)

theorem toList_cell (content : String) : (cell content).toList = padded content.toList ++ ['|'] := by
  simp [cell, padded]

theorem toList_elim_cell {α : Type} (f : α → String) (x : Option α) :
    (x.elim blankCell fun y => cell (f y)).toList = padded (shown (x.map f)) ++ ['|'] := by
  cases x with
  | none => simp [blankCell, padded, shown]
  | some y => exact toList_cell (f y)

theorem toList_headLine (t : Table) : t.headLine.toList = framed ([' '] :: t.headings.map padded) := by
  simp [headLine, framed, headings, toList_cell, List.flatMap_map, heading]

theorem toList_ruleLine (t : Table) : t.ruleLine.toList = framed ((['-'] :: t.dashes).map padded) := by
  simp [ruleLine, framed, dashes, toList_cell, List.flatMap_replicate]

theorem toList_rowLine {t : Table} {state : Nat} {r : Row} (h : t.row? state = some r) :
    (t.rowLine state r).toList = framed ((label state :: t.contents state).map padded) := by
  simp [rowLine, framed, contents, label, toList_cell, toList_elim_cell, List.flatMap_map, action?, goto?, h]
  rfl

def rowLines (t : Table) : List String := t.rows.zipIdx.map fun (r, state) => t.rowLine state r

def lines (t : Table) : List (List Char) := (t.headLine :: t.ruleLine :: t.rowLines).map String.toList

theorem getElem?_rowLines (t : Table) (state : Nat) :
    t.rowLines[state]? = (t.row? state).map fun r => t.rowLine state r := by
  rw [rowLines, List.getElem?_map, List.getElem?_zipIdx, Option.map_map, row?, Nat.zero_add]
  rfl

theorem exists_state_of_mem_rowLines {t : Table} {row : String} (h : row ∈ t.rowLines) :
    ∃ state, row.toList = framed ((label state :: t.contents state).map padded) := by
  obtain ⟨state, hstate⟩ := List.getElem?_of_mem h
  rw [getElem?_rowLines] at hstate
  obtain ⟨r, hr, rfl⟩ := Option.map_eq_some_iff.1 hstate
  exact ⟨state, toList_rowLine hr⟩

theorem exists_framed_concat (cells : List (List Char)) : ∃ front, framed cells = front ++ ['|'] := by
  cases cells using List.reverseRecOn with
  | nil => exact ⟨[], rfl⟩
  | append_singleton front cell => exact ⟨framed front ++ cell, by simp [framed]⟩

theorem exists_toList_rows {rows : List String} (hne : rows ≠ [])
    (hrows : ∀ row ∈ rows, ∃ front, row.toList = front ++ ['|']) :
    ∃ front, (String.intercalate "\n" rows).toList = front ++ ['|'] ∧
      (String.join (rows.map (· ++ "\n"))).toList = front ++ ['|', '\n'] := by
  induction rows with
  | nil => exact absurd rfl hne
  | cons row rest ih =>
    obtain ⟨⟨own, hown⟩, hrest⟩ := List.forall_mem_cons.1 hrows
    cases rest with
    | nil => exact ⟨own, by simp [hown]⟩
    | cons next rest =>
      obtain ⟨front, hintercalate, hjoin⟩ := ih (by simp) hrest
      refine ⟨own ++ '|' :: '\n' :: front, ?_, ?_⟩
      · rw [String.intercalate_cons_cons, String.toList_append, hintercalate]
        simp [hown]
      · rw [List.map_cons, String.join_cons, String.toList_append, hjoin]
        simp [hown]

/-- The rows may as well be written with a line feed behind each, and what is behind the last row be cut off. -/
theorem markdown_eq_trimRight {t : Table} (h : t.rows ≠ []) : t.markdown
    = t.headLine ++ "\n" ++ t.ruleLine ++ "\n" ++ trimRight (String.join (t.rowLines.map (· ++ "\n"))) := by
  have hne : t.rowLines ≠ [] := by simpa [rowLines] using h
  have hrows : ∀ row ∈ t.rowLines, ∃ front, row.toList = front ++ ['|'] := by
    intro row hrow
    obtain ⟨state, hline⟩ := exists_state_of_mem_rowLines hrow
    rw [hline]
    exact exists_framed_concat _
  have htrim : trimRight (String.join (t.rowLines.map (· ++ "\n"))) = String.intercalate "\n" t.rowLines := by
    obtain ⟨front, hintercalate, hjoin⟩ := exists_toList_rows hne hrows
    have hbar : isBlank '|' = false := rfl
    rw [trimRight, hjoin, ← String.ofList_toList (s := String.intercalate _ _), hintercalate]
    simp [List.dropWhile_cons, hbar]
  have hmarkdown : t.markdown = String.intercalate "\n" (t.headLine :: t.ruleLine :: t.rowLines) := rfl
  rw [htrim, hmarkdown, String.intercalate_cons_cons, String.intercalate_cons_of_ne_nil hne]
  simp only [String.append_assoc]

/-! ### The table of a text -/

section

variable {policy : ConflictPolicy} {source : String} {g : Grammar} {t : Table} {state : Nat}

theorem newline_not_mem_nonTerminal (hg : Grammar.ofSource source = .ok g) {n : NonTerminal}
    (h : n ∈ g.nonTerminals) : '\n' ∉ n.text.toList := by
  obtain ⟨p, hp, rfl⟩ := Grammar.mem_nonTerminals.1 h
  exact newline_not_mem_of_legal ((Grammar.describable_of_ofSource hg).legal_name p hp)

theorem newline_not_mem_terminal (hg : Grammar.ofSource source = .ok g) {x : Terminal}
    (h : x ∈ g.terminals ++ [.endMarker]) : '\n' ∉ x.text.toList := by
  rcases List.mem_append.1 h with h | h
  · obtain ⟨p, hp, hmem⟩ := Grammar.mem_terminals.1 h
    have hlegal : Lexeme.Legal x.name := (Grammar.describable_of_ofSource hg).legal_symbol p hp _ hmem
    rw [Terminal.text_eq_name fun hend => hlegal.1 (congrArg Terminal.name hend)]
    exact newline_not_mem_of_legal hlegal
  · obtain rfl := List.mem_singleton.1 h
    decide

theorem mem_nonTerminals_of_reduce (ht : ofGrammar policy g = .ok t) {x : Terminal} {name : NonTerminal} {count : Nat}
    (h : t.action? state x = some (.reduce name count)) : name ∈ g.nonTerminals := by
  obtain ⟨s, i, hs, -, -⟩ := exists_item_of_action? ht h
  obtain ⟨path, hwalk⟩ := Automaton.exists_walk?_of_itemSet? hs
  obtain ⟨p, hplaces, rfl, -, -⟩ := exists_production_of_reduce ht hwalk h
  exact Grammar.mem_nonTerminals.2 ⟨p, hplaces.mem_productions, rfl⟩

theorem fits_headings (hg : Grammar.ofSource source = .ok g) (ht : ofGrammar policy g = .ok t) :
    ∀ c ∈ t.headings, Fits c := by
  rw [headings, terminals_of_build ht, nonTerminals_of_build ht]
  refine List.forall_mem_append.2 ⟨List.forall_mem_map.2 fun x hx => ?_, List.forall_mem_map.2 fun n hn => ?_⟩
  · exact fits_heading (newline_not_mem_terminal hg hx)
  · exact fits_heading (newline_not_mem_nonTerminal hg hn)

theorem fits_dashes (t : Table) : ∀ c ∈ ['-'] :: t.dashes, Fits c := by
  have hdash : Fits ['-'] := fits_of_isBlank (List.forall_mem_singleton.2 rfl)
  refine List.forall_mem_cons.2 ⟨hdash, fun c hc => ?_⟩
  rw [List.eq_of_mem_replicate hc]
  exact hdash

theorem fits_contents (hg : Grammar.ofSource source = .ok g) (ht : ofGrammar policy g = .ok t) (state : Nat) :
    ∀ c ∈ t.contents state, Fits c := by
  refine List.forall_mem_append.2 ⟨List.forall_mem_map.2 fun x _ => fits_shown ?_,
    List.forall_mem_map.2 fun n _ => fits_shown ?_⟩
  · intro s hs
    obtain ⟨a, ha, rfl⟩ := Option.map_eq_some_iff.1 hs
    refine fits_action fun name count hreduce => ?_
    subst hreduce
    exact newline_not_mem_nonTerminal hg (mem_nonTerminals_of_reduce ht ha)
  · intro s hs
    obtain ⟨target, -, rfl⟩ := Option.map_eq_some_iff.1 hs
    exact fits_number target

theorem map_trim_padded {cs : List (List Char)} (h : ∀ c ∈ cs, Fits c) : (cs.map padded).map trim = cs := by
  rw [List.map_map]
  exact (List.map_congr_left fun c hc => trim_padded (h c hc)).trans (List.map_id cs)

theorem splitOn_markdown (h : ∀ line ∈ t.lines, '\n' ∉ line) : t.markdown.toList.splitOn '\n' = t.lines := by
  have hmarkdown : t.markdown.toList = ['\n'].intercalate t.lines := by
    rw [markdown, String.toList_intercalate]
    rfl
  rw [hmarkdown, List.splitOn_intercalate _ h (by simp [lines])]

theorem newline_not_mem_lines (hg : Grammar.ofSource source = .ok g) (ht : ofGrammar policy g = .ok t) :
    ∀ line ∈ t.lines, '\n' ∉ line := by
  have hpadded : ∀ cs : List (List Char), (∀ c ∈ cs, Fits c) → ∀ cell ∈ cs.map padded, '\n' ∉ cell :=
    fun cs h => List.forall_mem_map.2 fun c hc => newline_not_mem_padded (h c hc)
  refine List.forall_mem_map.2 (List.forall_mem_cons.2 ⟨?_, List.forall_mem_cons.2 ⟨?_, fun row hrow => ?_⟩⟩)
  · rw [toList_headLine]
    exact newline_not_mem_framed (List.forall_mem_cons.2 ⟨by decide, hpadded _ (fits_headings hg ht)⟩)
  · rw [toList_ruleLine]
    exact newline_not_mem_framed (hpadded _ t.fits_dashes)
  · obtain ⟨state, hline⟩ := exists_state_of_mem_rowLines hrow
    rw [hline]
    exact newline_not_mem_framed (hpadded _ (List.forall_mem_cons.2 ⟨fits_label state, fits_contents hg ht state⟩))

/-- A head that two columns of actions share belongs to the end of input and to the terminal that is called like it
is shown. -/
theorem heading_text_eq_iff {x y : Terminal} (hne : x ≠ y) : heading x.text = heading y.text ↔
    (x = .endMarker ∧ y = ⟨"$"⟩) ∨ (x = ⟨"$"⟩ ∧ y = .endMarker) := by
  have hend : Terminal.endMarker.text = "$" := rfl
  have hdollar : ∀ z : Terminal, z = ⟨"$"⟩ ↔ z.name = "$" := fun z => by cases z; simp
  rw [heading_inj, hdollar, hdollar]
  rcases eq_or_ne x .endMarker with rfl | hx <;> rcases eq_or_ne y .endMarker with rfl | hy
  · exact absurd rfl hne
  -- the end of input is shown as `$`, any other terminal by its name
  · simp [hend, Terminal.text_eq_name hy, hy, eq_comm]
  · simp [hend, Terminal.text_eq_name hx, hx]
  · have hname : x.name ≠ y.name := fun hname => hne (by cases x; cases y; exact congrArg _ hname)
    simp [Terminal.text_eq_name hx, Terminal.text_eq_name hy, hx, hy, hname]

/-- What lines show of a table: the heads of its columns, a rule, and the cells of each state, every line with one cell
more in front. The heads of nonterminals are different, and those of terminals are but for the end of input and a
terminal called `$`. -/
structure Rendered (t : Table) (lines : List (List Char)) : Prop where
  length_lines : lines.length = t.size + 2
  head : ∀ line ∈ lines[0]?, Shows line ([] :: t.headings)
  length_headings : t.headings.length = t.terminals.length + t.nonTerminals.length
  rule : ∀ line ∈ lines[1]?, Shows line (['-'] :: t.dashes)
  row : ∀ state, ∀ line ∈ lines[state + 2]?, Shows line (label state :: t.contents state)
  length_contents : ∀ state, (t.contents state).length = t.terminals.length + t.nonTerminals.length
  action_unset : ∀ state x, shown ((t.action? state x).map Action.text) = [] ↔ t.action? state x = none
  goto_unset : ∀ state n, shown ((t.goto? state n).map toString) = [] ↔ t.goto? state n = none
  nodup_terminals : t.terminals.Nodup
  action_headings : ∀ x ∈ t.terminals, ∀ y ∈ t.terminals, x ≠ y → (heading x.text = heading y.text ↔
    (x = .endMarker ∧ y = ⟨"$"⟩) ∨ (x = ⟨"$"⟩ ∧ y = .endMarker))
  goto_headings : (t.nonTerminals.map fun n => heading n.text).Nodup

theorem shows_row (hg : Grammar.ofSource source = .ok g) (ht : ofGrammar policy g = .ok t) {line : List Char}
    (h : line ∈ t.lines[state + 2]?) : Shows line (label state :: t.contents state) := by
  rw [lines, List.getElem?_map, List.getElem?_cons_succ, List.getElem?_cons_succ, getElem?_rowLines, Option.map_map] at h
  obtain ⟨r, hr, rfl⟩ := Option.map_eq_some_iff.1 h
  have hcells := map_trim_padded (List.forall_mem_cons.2 ⟨fits_label state, fits_contents hg ht state⟩)
  rw [Function.comp_apply, toList_rowLine hr]
  exact shows_framed hcells

theorem nodup_headings (ht : ofGrammar policy g = .ok t) : (t.nonTerminals.map fun n => heading n.text).Nodup := by
  rw [nonTerminals_of_build ht]
  refine (List.nodup_map_iff_inj_on (nodup_distinct _)).2 fun m _ n _ h => ?_
  have hname : m.name = n.name := heading_inj.1 h
  cases m
  exact congrArg _ hname

theorem rendered_of_ofGrammar (hg : Grammar.ofSource source = .ok g) (ht : ofGrammar policy g = .ok t) :
    t.Rendered (t.markdown.toList.splitOn '\n') := by
  rw [splitOn_markdown (newline_not_mem_lines hg ht)]
  exact {
    length_lines := by simp [lines, rowLines, size]
    length_headings := by simp [headings]
    length_contents := fun _ => by simp [contents]
    head := fun line hline => by
      obtain rfl := Option.some.inj hline
      rw [toList_headLine]
      exact shows_framed (by rw [List.map_cons, map_trim_padded (fits_headings hg ht)]; rfl)
    rule := fun line hline => by
      obtain rfl := Option.some.inj hline
      rw [toList_ruleLine]
      exact shows_framed (map_trim_padded t.fits_dashes)
    row := fun _ _ => shows_row hg ht
    action_unset := fun _ _ => shown_eq_nil_iff text_ne_empty _
    goto_unset := fun _ _ => shown_eq_nil_iff (fun n => by simp) _
    nodup_terminals := nodup_terminals (Grammar.wellFormed_of_ofSource hg) ht
    action_headings := fun x _ y _ => heading_text_eq_iff
    goto_headings := nodup_headings ht }

theorem rendered_sums : ∃ g t, Grammar.ofSource "__root : @sum ; sum : @sum + n ; sum : n ;" = .ok g ∧
    ofGrammar .reject g = .ok t ∧ t.size = 5 ∧ t.Rendered (t.markdown.toList.splitOn '\n') := by
  obtain ⟨g, t, hg, ht, hsize⟩ := exists_table_of_within .reject 20 "__root : @sum ; sum : @sum + n ; sum : n ;"
    (P := fun _ t => t.size = 5) (by decide +kernel)
  exact ⟨g, t, hg, ht, hsize, rendered_of_ofGrammar hg ht⟩

/-- With terminals called `|` and `$`, two columns of actions have one head, and a line is cut into more pieces than it
has cells. -/
theorem exists_shared_head_and_cut_cell : ∃ g t, Grammar.ofSource "__root : | $ ;" = .ok g ∧
    ofGrammar .reject g = .ok t ∧
      (∃ x ∈ t.terminals, ∃ y ∈ t.terminals, x ≠ y ∧ heading x.text = heading y.text) ∧
      ∃ line ∈ t.markdown.toList.splitOn '\n',
        (line.splitOn '|').length ≠ t.terminals.length + t.nonTerminals.length + 3 :=
  exists_table_of_within .reject 20 "__root : | $ ;"
    (P := fun _ t => (∃ x ∈ t.terminals, ∃ y ∈ t.terminals, x ≠ y ∧ heading x.text = heading y.text) ∧
      ∃ line ∈ t.markdown.toList.splitOn '\n',
        (line.splitOn '|').length ≠ t.terminals.length + t.nonTerminals.length + 3)
    (by decide +kernel)

end

end Table

end CanonicalLR
