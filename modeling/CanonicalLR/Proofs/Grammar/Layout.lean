import CanonicalLR.Grammar.Source
import Mathlib.Data.List.Nodup

/-!
# Texts of given lexemes

A text is written piece by piece, each piece a lexeme behind some blanks. The scanner reads back what was written wherever the pieces can be told apart (`scanFrom_write`), and for that blanks are needed in one place only: a word goes on until a character that is no word character, and colons, semicolons, `@` and blanks are none. The reader then turns the lexemes of productions into these productions (`readFrom_productions`), whatever the places of the lexemes are. A grammar comes of them exactly if they meet the conditions in `Describable`; so all that a text of a grammar can vary in is its blanks (`exists_ofSource_of_layout`).
-/

namespace CanonicalLR

namespace Lexeme

/-- A name that a text can spell. -/
def Legal (name : String) : Prop := name ≠ "" ∧ ∀ c ∈ name.toList, isWordChar c = true

instance (name : String) : Decidable (Legal name) :=
  decidable_of_iff (name ≠ "" ∧ name.toList.all isWordChar = true) (by simp [Legal])

/-- What a lexeme is, wherever it stands. -/
def content (l : Lexeme) : LexemeKind × String := (l.kind, l.text)

/-- The lexemes that productions are made of. -/
inductive Spellable : LexemeKind → String → Prop where
  | colon : Spellable .colon ":"
  | semicolon : Spellable .semicolon ";"
  | reference {name : String} : Legal name → Spellable .reference name
  | literal {name : String} : Legal name → Spellable .literal name

end Lexeme

/-- A lexeme to be written behind some blanks. -/
structure Piece where
  blanks : List Char
  kind : LexemeKind
  text : String

namespace Piece

def content (p : Piece) : LexemeKind × String := (p.kind, p.text)

/-- The text, for a reference behind its `@`. -/
def spelling (p : Piece) : List Char := if p.kind = .reference then '@' :: p.text.toList else p.text.toList

/-- The pieces one behind the other, and the characters at the end. -/
def write (pieces : List Piece) (last : List Char) : List Char :=
  pieces.flatMap (fun p => p.blanks ++ p.spelling) ++ last

/-- Blanks keep a literal apart from the name before it. -/
def Apart (p q : Piece) : Prop := p.kind = .literal ∨ p.kind = .reference → q.kind = .literal → q.blanks ≠ []

instance (p q : Piece) : Decidable (Apart p q) := inferInstanceAs (Decidable (_ → _))

end Piece

/-- All characters are blanks. -/
def Blank (cs : List Char) : Prop := ∀ c ∈ cs, Text.isBlank c = true

instance (cs : List Char) : Decidable (Blank cs) := decidable_of_iff (cs.all Text.isBlank = true) (by simp [Blank])

/-- The text consists of the contents in their order, with blanks before, between and behind them. -/
def IsLayout (contents : List (LexemeKind × String)) (text : List Char) : Prop :=
  ∃ (pieces : List Piece) (last : List Char), pieces.map Piece.content = contents ∧ (∀ p ∈ pieces, Blank p.blanks)
    ∧ Blank last ∧ pieces.IsChain Piece.Apart ∧ text = Piece.write pieces last

/-! ### Scanning -/

namespace Lexeme

/-- A word that comes before these characters ends there. -/
def EndsWord (cs : List Char) : Prop := ∀ c ∈ cs.head?, isWordChar c = false

variable {cs : List Char} {c : Char} {name : String} {location : Location}

theorem not_isWordChar_of_isBlank (h : Text.isBlank c = true) : isWordChar c = false := by
  rw [isWordChar, h]
  rfl

theorem endsWord_cons (h : isWordChar c = false) (cs : List Char) : EndsWord (c :: cs) :=
  fun _ hd => Option.some.inj hd ▸ h

theorem endsWord_of_blank (h : Blank cs) : EndsWord cs :=
  fun c hc => not_isWordChar_of_isBlank (h c (List.mem_of_mem_head? hc))

theorem takeWhile_of_endsWord {word : List Char} (hword : ∀ c ∈ word, isWordChar c = true) (h : EndsWord cs) :
    (word ++ cs).takeWhile isWordChar = word ∧ (word ++ cs).dropWhile isWordChar = cs := by
  rw [List.takeWhile_append_of_pos hword, List.dropWhile_append_of_pos hword]
  cases cs with
  | nil => simp
  | cons c rest =>
    have hc : isWordChar c = false := h c rfl
    simp [hc]

theorem scanFrom_blanks {blanks : List Char} (h : Blank blanks) (location : Location) (cs : List Char) :
    scanFrom location (blanks ++ cs) = scanFrom (location.afterAll blanks) cs := by
  induction blanks generalizing location with
  | nil => rfl
  | cons c rest ih =>
    rw [List.cons_append, scanFrom, if_pos (h c List.mem_cons_self), ih fun d hd => h d (List.mem_cons_of_mem _ hd)]
    rfl

theorem scanFrom_ofWord {word : List Char} (hc : isWordChar c = true ∨ c = '@')
    (hword : ∀ c ∈ word, isWordChar c = true) (h : EndsWord cs) :
    scanFrom location (c :: word ++ cs)
      = ofWord c word location :: scanFrom (location.afterAll (c :: word)) cs := by
  obtain ⟨htake, hdrop⟩ := takeWhile_of_endsWord hword h
  have hblank : Text.isBlank c ≠ true := by
    rcases hc with hc | rfl
    · intro hblank
      rw [not_isWordChar_of_isBlank hblank] at hc
      cases hc
    · decide
  have hcolon : c ≠ ':' := by
    rintro rfl
    revert hc
    decide
  have hsemicolon : c ≠ ';' := by
    rintro rfl
    revert hc
    decide
  rw [List.cons_append, scanFrom, if_neg hblank, if_neg hcolon, if_neg hsemicolon]
  simp only [htake, hdrop]

theorem scanFrom_literal (hname : Legal name) (h : EndsWord cs) : scanFrom location (name.toList ++ cs)
    = ⟨.literal, name, location⟩ :: scanFrom (location.afterAll name.toList) cs := by
  obtain ⟨hne, hchars⟩ := hname
  cases hcs : name.toList with
  | nil => exact absurd (String.toList_eq_nil_iff.1 hcs) hne
  | cons c word =>
    rw [hcs] at hchars
    have hc := hchars c List.mem_cons_self
    have hat : c ≠ '@' := by
      rintro rfl
      revert hc
      decide
    rw [scanFrom_ofWord (.inl hc) (fun d hd => hchars d (List.mem_cons_of_mem _ hd)) h, ofWord, if_neg hat, ← hcs,
      String.ofList_toList]

theorem scanFrom_reference (hname : Legal name) (h : EndsWord cs) : scanFrom location ('@' :: name.toList ++ cs)
    = ⟨.reference, name, location⟩ :: scanFrom (location.afterAll ('@' :: name.toList)) cs := by
  obtain ⟨hne, hchars⟩ := hname
  have hempty : name.toList.isEmpty ≠ true :=
    fun hempty => hne (String.toList_eq_nil_iff.1 (List.isEmpty_iff.1 hempty))
  rw [scanFrom_ofWord (.inr rfl) hchars h, ofWord, if_pos rfl, if_neg hempty, String.ofList_toList]

theorem scanFrom_colon : scanFrom location (':' :: cs)
    = ⟨.colon, ":", location⟩ :: scanFrom (location.after ':') cs := by
  rw [scanFrom, if_neg (by decide), if_pos rfl]

theorem scanFrom_semicolon : scanFrom location (';' :: cs)
    = ⟨.semicolon, ";", location⟩ :: scanFrom (location.after ';') cs := by
  rw [scanFrom, if_neg (by decide), if_neg (by decide), if_pos rfl]

end Lexeme

namespace Piece

open Lexeme

variable {pieces : List Piece} {last cs : List Char} {p : Piece}

theorem write_cons (p : Piece) (pieces : List Piece) (last : List Char) :
    write (p :: pieces) last = p.blanks ++ (p.spelling ++ write pieces last) := by
  simp [write]

theorem spelling_colon (blanks : List Char) : spelling ⟨blanks, .colon, ":"⟩ = [':'] := by simp [spelling]

theorem spelling_semicolon (blanks : List Char) : spelling ⟨blanks, .semicolon, ";"⟩ = [';'] := by simp [spelling]

/-- One piece is one lexeme. -/
theorem scanFrom_spelling (hp : Spellable p.kind p.text)
    (h : p.kind = .literal ∨ p.kind = .reference → EndsWord cs) (location : Location) :
    scanFrom location (p.spelling ++ cs) = ⟨p.kind, p.text, location⟩ :: scanFrom (location.afterAll p.spelling) cs := by
  obtain ⟨blanks, kind, text⟩ := p
  cases hp with
  | colon =>
    rw [spelling_colon]
    exact scanFrom_colon
  | semicolon =>
    rw [spelling_semicolon]
    exact scanFrom_semicolon
  | reference hname => exact scanFrom_reference hname (h (.inr rfl))
  | literal hname => exact scanFrom_literal hname (h (.inl rfl))

/-- A name before a row of pieces ends where the row begins. -/
theorem endsWord_write (hblank : ∀ q ∈ pieces, Blank q.blanks) (hspell : ∀ q ∈ pieces, Spellable q.kind q.text)
    (hlast : Blank last) (hkind : p.kind = .literal ∨ p.kind = .reference) (hchain : (p :: pieces).IsChain Apart) :
    EndsWord (write pieces last) := by
  cases pieces with
  | nil => exact endsWord_of_blank hlast
  | cons q rest =>
    have hapart : Apart p q := (List.isChain_cons_cons.1 hchain).1
    have hq := hblank q List.mem_cons_self
    rw [write_cons]
    cases hblanks : q.blanks with
    | cons b more => exact endsWord_cons (not_isWordChar_of_isBlank (hq b (hblanks ▸ List.mem_cons_self))) _
    | nil =>
      rw [List.nil_append]
      obtain ⟨blanks, kind, text⟩ := q
      cases hspell _ List.mem_cons_self with
      | literal _ => exact absurd hblanks (hapart hkind rfl)
      | reference _ => exact endsWord_cons rfl _
      | colon =>
        rw [spelling_colon]
        exact endsWord_cons rfl _
      | semicolon =>
        rw [spelling_semicolon]
        exact endsWord_cons rfl _

theorem scanFrom_write (hblank : ∀ p ∈ pieces, Blank p.blanks) (hspell : ∀ p ∈ pieces, Spellable p.kind p.text)
    (hlast : Blank last) (hchain : pieces.IsChain Apart) (location : Location) :
    (scanFrom location (write pieces last)).map Lexeme.content = pieces.map content ++ [(.endOfText, "")] := by
  induction pieces generalizing location with
  | nil =>
    have hscan := scanFrom_blanks hlast location []
    rw [List.append_nil] at hscan
    rw [write, List.flatMap_nil, List.nil_append, hscan, scanFrom]
    rfl
  | cons p rest ih =>
    have hblank' := fun q hq => hblank q (List.mem_cons_of_mem _ hq)
    have hspell' := fun q hq => hspell q (List.mem_cons_of_mem _ hq)
    rw [write_cons, scanFrom_blanks (hblank p List.mem_cons_self)]
    rw [scanFrom_spelling (hspell p List.mem_cons_self) fun hkind => endsWord_write hblank' hspell' hlast hkind hchain,
      List.map_cons, ih hblank' hspell' hchain.of_cons]
    rfl

end Piece

/-! ### Reading -/

namespace Symbol

def kind : Symbol → LexemeKind
  | terminal _ => .literal
  | nonterminal _ => .reference

def name : Symbol → String
  | terminal t => t.name
  | nonterminal n => n.name

def content (x : Symbol) : LexemeKind × String := (x.kind, x.name)

end Symbol

/-- The lexemes of a production: its name, a colon, its symbols and a semicolon. -/
def Production.contents (p : Production) : List (LexemeKind × String) :=
  (.literal, p.name.name) :: (.colon, ":") :: (p.symbols.map Symbol.content ++ [(.semicolon, ";")])

namespace Grammar

variable {lexemes : List Lexeme} {productions : List Production}

theorem exists_cons_of_content {kind : LexemeKind} {text : String} {more : List (LexemeKind × String)}
    (h : lexemes.map Lexeme.content = (kind, text) :: more) :
    ∃ l rest, lexemes = l :: rest ∧ l.kind = kind ∧ l.text = text ∧ rest.map Lexeme.content = more := by
  obtain ⟨l, rest, hlexemes, hcontent, hrest⟩ := List.map_eq_cons_iff.1 h
  obtain ⟨hkind, htext⟩ := Prod.mk.inj hcontent
  exact ⟨l, rest, hlexemes, hkind, htext, hrest⟩

theorem readFrom_symbol {l : Lexeme} {x : Symbol} (hkind : l.kind = x.kind) (htext : l.text = x.name) (name : String)
    (read : List Symbol) (rest : List Lexeme) :
    readFrom (.symbols name read) (l :: rest) = readFrom (.symbols name (x :: read)) rest := by
  cases x with
  | terminal t =>
    rw [Symbol.kind] at hkind
    simp only [readFrom, hkind, htext, Symbol.name]
  | nonterminal n =>
    rw [Symbol.kind] at hkind
    simp only [readFrom, hkind, htext, Symbol.name]

theorem readFrom_symbols (name : String) (read : List Symbol) {symbols : List Symbol}
    {more : List (LexemeKind × String)} (h : lexemes.map Lexeme.content = symbols.map Symbol.content ++ (.semicolon, ";") :: more)
    (hne : read.reverse ++ symbols ≠ []) : ∃ rest, rest.map Lexeme.content = more ∧
      readFrom (.symbols name read) lexemes = { readFrom .name rest with
        productions := ⟨⟨name⟩, read.reverse ++ symbols⟩ :: (readFrom .name rest).productions } := by
  induction symbols generalizing read lexemes with
  | nil =>
    obtain ⟨l, rest, rfl, hkind, -, hrest⟩ := exists_cons_of_content h
    refine ⟨rest, hrest, ?_⟩
    rw [List.append_nil] at hne ⊢
    cases read with
    | nil => exact absurd rfl hne
    | cons last read => simp only [readFrom, hkind]
  | cons x symbols ih =>
    have happend : (x :: read).reverse ++ symbols = read.reverse ++ x :: symbols := by simp
    obtain ⟨l, rest, rfl, hkind, htext, hrest⟩ := exists_cons_of_content h
    rw [readFrom_symbol hkind htext, ← happend]
    exact ih _ hrest (happend ▸ hne)

/-- The reader gives the productions of which it reads the lexemes, wherever these stand. -/
theorem readFrom_productions (hne : ∀ p ∈ productions, p.symbols ≠ [])
    (h : lexemes.map Lexeme.content = productions.flatMap Production.contents ++ [(.endOfText, "")]) :
    readFrom .name lexemes = ⟨productions, none⟩ := by
  induction productions generalizing lexemes with
  | nil =>
    obtain ⟨l, rest, rfl, hkind, -, -⟩ := exists_cons_of_content h
    simp only [readFrom, hkind]
  | cons p productions ih =>
    simp only [List.flatMap_cons, Production.contents, List.cons_append, List.append_assoc, List.nil_append] at h
    obtain ⟨l, rest, rfl, hkind, htext, hrest⟩ := exists_cons_of_content h
    obtain ⟨l', rest', rfl, hkind', -, hrest'⟩ := exists_cons_of_content hrest
    obtain ⟨more, hmore, hread⟩ := readFrom_symbols p.name.name [] hrest' (hne p List.mem_cons_self)
    have hproductions := ih (fun q hq => hne q (List.mem_cons_of_mem _ hq)) hmore
    rw [hproductions] at hread
    simp only [readFrom, hkind, hkind', htext]
    exact hread

/-! ### The grammar -/

/-- The productions are those of a grammar that a text describes. -/
structure Describable (productions : List Production) : Prop where
  nodup : productions.Nodup
  symbols_ne_nil : ∀ p ∈ productions, p.symbols ≠ []
  legal_name : ∀ p ∈ productions, Lexeme.Legal p.name.name
  legal_symbol : ∀ p ∈ productions, ∀ x ∈ p.symbols, Lexeme.Legal x.name
  existsUnique_root : ∃! p, p ∈ productions ∧ p.name = .root
  defined : ∀ p ∈ productions, ∀ n, .nonterminal n ∈ p.symbols → ∃ q ∈ productions, q.name = n

theorem exists_ofProductions (h : Describable productions) :
    ∃ g, ofProductions productions = .ok g ∧ g.productions = productions := by
  have hdistinct : distinct productions = productions := distinct_of_nodup h.nodup
  obtain ⟨root, ⟨hroot, hname⟩, hunique⟩ := h.existsUnique_root
  have hfilter : (distinct productions).filter (·.name.isRoot) = [root] := by
    rw [hdistinct]
    refine ((List.perm_ext_iff_of_nodup (h.nodup.filter _) (List.nodup_singleton root)).2 fun p => ?_).eq_singleton
    simp only [List.mem_filter, NonTerminal.isRoot_iff, List.mem_singleton]
    constructor
    · exact hunique p
    · rintro rfl
      exact ⟨hroot, hname⟩
  have hundefined : undefined? (distinct productions) = none := by
    rw [hdistinct, undefined?, List.find?_eq_none]
    intro n hn
    obtain ⟨p, hp, x, hx, hxn⟩ := by simpa only [references, List.mem_flatMap, List.mem_filterMap] using hn
    cases x with
    | terminal t => cases hxn
    | nonterminal m =>
      obtain rfl := Option.some.inj hxn
      obtain ⟨q, hq, hname⟩ := h.defined p hp m hx
      simpa using ⟨q, hq, hname⟩
  unfold ofProductions
  dsimp only
  split
  · rename_i hnil
    cases hfilter.symm.trans hnil
  · split
    · rename_i hsome
      cases hundefined.symm.trans hsome
    · exact ⟨_, rfl, hdistinct⟩
  · rename_i hmany
    exact absurd hfilter (hmany root)

theorem spellable_of_mem_contents (h : Describable productions) {content : LexemeKind × String}
    (hmem : content ∈ productions.flatMap Production.contents) : Lexeme.Spellable content.1 content.2 := by
  obtain ⟨p, hp, hcontent⟩ := List.mem_flatMap.1 hmem
  simp only [Production.contents, List.mem_cons, List.mem_append, List.mem_map, List.not_mem_nil, or_false] at hcontent
  rcases hcontent with rfl | rfl | ⟨x, hx, rfl⟩ | rfl
  · exact .literal (h.legal_name p hp)
  · exact .colon
  · have hlegal := h.legal_symbol p hp x hx
    cases x with
    | terminal t => exact .literal hlegal
    | nonterminal n => exact .reference hlegal
  · exact .semicolon

theorem exists_ofSource_of_layout (h : Describable productions) {source : String}
    (hlayout : IsLayout (productions.flatMap Production.contents) source.toList) :
    ∃ g, ofSource source = .ok g ∧ g.productions = productions := by
  obtain ⟨pieces, last, hcontents, hblank, hlast, hchain, htext⟩ := hlayout
  have hspell : ∀ p ∈ pieces, Lexeme.Spellable p.kind p.text :=
    fun p hp => spellable_of_mem_contents h (hcontents ▸ List.mem_map_of_mem (f := Piece.content) hp)
  have hscan := Piece.scanFrom_write hblank hspell hlast hchain .first
  rw [← htext, hcontents] at hscan
  obtain ⟨g, hg, hproductions⟩ := exists_ofProductions h
  refine ⟨g, ?_, hproductions⟩
  rw [ofSource, read, Lexeme.scan, readFrom_productions h.symbols_ne_nil hscan]
  exact hg

end Grammar

end CanonicalLR
