import CanonicalLR.Proofs.Grammar.Layout
import CanonicalLR.Proofs.Grammar.WellFormed
import Mathlib.Data.List.Chain

/-!
# Printed productions

A production prints as one of the texts that lay it out: a space before everything but the name, for the space that is cut from the end of the symbols comes back before the semicolon (`flatMap_pieces`). Behind a semicolon anything can follow at once, so printed productions may be put next to each other with any blanks or none (`IsLayout.production`). The names in a grammar that was read are words of its text, hence legal, and so the printed productions are read back (`ofSource_of_layout`).
-/

namespace CanonicalLR

/-! ### Names that were read -/

namespace Lexeme

theorem isWordChar_of_ne {c : Char} (hblank : ¬ Text.isBlank c = true) (hcolon : c ≠ ':') (hsemicolon : c ≠ ';')
    (hat : c ≠ '@') : isWordChar c = true := by
  simp [isWordChar, isPunctuation, hblank, hcolon, hsemicolon, hat]

theorem legal_ofWord {c : Char} {more : List Char} {location : Location} (hblank : ¬ Text.isBlank c = true)
    (hcolon : c ≠ ':') (hsemicolon : c ≠ ';') (hmore : ∀ d ∈ more, isWordChar d = true)
    (hkind : (ofWord c more location).kind = .literal ∨ (ofWord c more location).kind = .reference) :
    Legal (ofWord c more location).text := by
  unfold ofWord at hkind ⊢
  split
  · rename_i hat
    rw [if_pos hat] at hkind
    split
    · rename_i hempty
      simp [hempty] at hkind
    · rename_i hempty
      exact ⟨by simpa using hempty, by simpa using hmore⟩
  · rename_i hat
    have hc := isWordChar_of_ne hblank hcolon hsemicolon hat
    exact ⟨by simp, by simpa using ⟨hc, hmore⟩⟩

theorem legal_of_mem_scanFrom {location : Location} {cs : List Char} {l : Lexeme} (hl : l ∈ scanFrom location cs)
    (hkind : l.kind = .literal ∨ l.kind = .reference) : Legal l.text := by
  revert hkind
  refine forall_mem_scanFrom (P := fun l => l.kind = .literal ∨ l.kind = .reference → Legal l.text) ?_ ?_ ?_ ?_
    location cs l hl
  · simp
  · simp
  · simp
  · exact fun c more location => legal_ofWord

end Lexeme

namespace Grammar

/-- The names read so far are legal. -/
def Position.Legal : Position → Prop
  | .name => True
  | .colon word => Lexeme.Legal word
  | .symbols word read => Lexeme.Legal word ∧ ∀ x ∈ read, Lexeme.Legal x.name

theorem readFrom_legal {position : Position} {lexemes : List Lexeme} (hposition : position.Legal)
    (hlexemes : ∀ l ∈ lexemes, l.kind = .literal ∨ l.kind = .reference → Lexeme.Legal l.text) :
    ∀ p ∈ (readFrom position lexemes).productions, Lexeme.Legal p.name.name ∧ ∀ x ∈ p.symbols, Lexeme.Legal x.name := by
  fun_induction readFrom position lexemes with
  | case1 => exact fun p hp => absurd hp List.not_mem_nil
  | case2 => exact fun p hp => absurd hp List.not_mem_nil
  | case3 lexeme rest hkind ih =>
    exact ih (hlexemes lexeme List.mem_cons_self (.inl hkind)) fun l hl => hlexemes l (List.mem_cons_of_mem _ hl)
  | case4 lexeme rest name hkind ih =>
    exact ih ⟨hposition, fun x hx => absurd hx List.not_mem_nil⟩ fun l hl => hlexemes l (List.mem_cons_of_mem _ hl)
  | case5 lexeme rest name read hkind ih =>
    have hlegal := hlexemes lexeme List.mem_cons_self (.inl hkind)
    exact ih ⟨hposition.1, List.forall_mem_cons.2 ⟨hlegal, hposition.2⟩⟩ fun l hl => hlexemes l (List.mem_cons_of_mem _ hl)
  | case6 lexeme rest name read hkind ih =>
    have hlegal := hlexemes lexeme List.mem_cons_self (.inr hkind)
    exact ih ⟨hposition.1, List.forall_mem_cons.2 ⟨hlegal, hposition.2⟩⟩ fun l hl => hlexemes l (List.mem_cons_of_mem _ hl)
  | case7 lexeme rest name last read hkind reading ih =>
    intro p hp
    rcases List.mem_cons.1 hp with rfl | hp
    · exact ⟨hposition.1, fun x hx => hposition.2 x (List.mem_reverse.1 hx)⟩
    · exact ih trivial (fun l hl => hlexemes l (List.mem_cons_of_mem _ hl)) p hp
  | case8 => exact fun p hp => absurd hp List.not_mem_nil

theorem describable_of_ofSource {source : String} {g : Grammar} (h : ofSource source = .ok g) :
    Describable g.productions := by
  have hwell := wellFormed_of_ofSource h
  have hlegal : ∀ p ∈ g.productions, Lexeme.Legal p.name.name ∧ ∀ x ∈ p.symbols, Lexeme.Legal x.name := by
    intro p hp
    have hposition : Position.name.Legal := trivial
    exact readFrom_legal hposition (fun l hl hkind => Lexeme.legal_of_mem_scanFrom hl hkind) p
      (mem_of_ofProductions (ofProductions_of_ofSource h) hp)
  exact {
    nodup := g.nodup
    symbols_ne_nil := fun p hp => (hwell p hp).symbols_ne_nil
    legal_name := fun p hp => (hlegal p hp).1
    legal_symbol := fun p hp => (hlegal p hp).2
    existsUnique_root := ⟨g.root, ⟨g.root_mem, g.root_name⟩, fun p hp => g.root_unique p hp.1 hp.2⟩
    defined := g.defined }

end Grammar

/-! ### Texts of productions -/

theorem Symbol.toList_spelling {x : Symbol} (h : Lexeme.Legal x.name) (blanks : List Char) :
    x.spelling.toList = Piece.spelling ⟨blanks, x.kind, x.name⟩ := by
  cases x with
  | terminal t =>
    have hend : t.isEnd ≠ true := fun hend => h.1 (String.isEmpty_iff.1 hend)
    rw [spelling, Terminal.text, if_neg hend]
    rfl
  | nonterminal n =>
    simp [spelling, Piece.spelling, kind, name, NonTerminal.text]

theorem Piece.exists_spelling_concat {text : String} (h : Lexeme.Legal text) (blanks : List Char) (kind : LexemeKind) :
    ∃ front c, spelling ⟨blanks, kind, text⟩ = front ++ [c] ∧ Text.isBlank c = false := by
  obtain ⟨hne, hchars⟩ := h
  have hnil : text.toList ≠ [] := fun hnil => hne (String.toList_eq_nil_iff.1 hnil)
  have hsplit := List.dropLast_append_getLast hnil
  have hlast := hchars _ (List.getLast_mem hnil)
  have hblank : Text.isBlank (text.toList.getLast hnil) = false := by
    rw [Lexeme.isWordChar, Bool.and_eq_true, Bool.not_eq_true'] at hlast
    exact hlast.1
  rw [spelling]
  split
  · exact ⟨'@' :: text.toList.dropLast, _, congrArg ('@' :: ·) hsplit.symm, hblank⟩
  · exact ⟨text.toList.dropLast, _, hsplit.symm, hblank⟩

theorem Text.toList_trimRight {text : String} {front : List Char} {c : Char} (h : text.toList = front ++ [c, ' '])
    (hc : isBlank c = false) : (trimRight text).toList ++ [' '] = text.toList := by
  rw [trimRight, h]
  simp [List.dropWhile_cons, hc]

theorem flatMap_cons_concat {α β : Type} (b : β) (f : α → List β) (xs : List α) :
    xs.flatMap (fun x => b :: f x) ++ [b] = b :: xs.flatMap fun x => f x ++ [b] := by
  induction xs with
  | nil => rfl
  | cons x rest ih => simp [ih]

namespace Production

/-- A production behind some blanks, with single spaces in it. -/
def pieces (blanks : List Char) (p : Production) : List Piece :=
  ⟨blanks, .literal, p.name.name⟩ :: ⟨[' '], .colon, ":"⟩ ::
    (p.symbols.map (fun x => ⟨[' '], x.kind, x.name⟩) ++ [⟨[' '], .semicolon, ";"⟩])

variable {p : Production} {blanks : List Char}

theorem content_pieces : (p.pieces blanks).map Piece.content = p.contents := by
  simp [pieces, contents, Piece.content, Symbol.content]

theorem toList_join_spelling {symbols : List Symbol} (hlegal : ∀ x ∈ symbols, Lexeme.Legal x.name) :
    (String.join (symbols.map fun x => x.spelling ++ " ")).toList
      = symbols.flatMap fun x => Piece.spelling ⟨[' '], x.kind, x.name⟩ ++ [' '] := by
  rw [String.toList_join, List.flatMap_map]
  refine List.flatMap_congr fun x hx => ?_
  rw [String.toList_append, Symbol.toList_spelling (hlegal x hx) [' ']]
  rfl

/-- The space that is cut from the end of the symbols comes back before the semicolon. -/
theorem toList_trimRight_join {symbols : List Symbol} (hne : symbols ≠ [])
    (hlegal : ∀ x ∈ symbols, Lexeme.Legal x.name) :
    (Text.trimRight (String.join (symbols.map fun x => x.spelling ++ " "))).toList ++ [' ']
      = symbols.flatMap fun x => Piece.spelling ⟨[' '], x.kind, x.name⟩ ++ [' '] := by
  have hjoin := toList_join_spelling hlegal
  obtain ⟨before, x, rfl⟩ := (List.eq_nil_or_concat symbols).resolve_left hne
  obtain ⟨front, c, hspelling, hc⟩ := Piece.exists_spelling_concat (hlegal x (by simp)) [' '] x.kind
  have hend : (String.join ((before.concat x).map fun x => x.spelling ++ " ")).toList
      = before.flatMap (fun x => Piece.spelling ⟨[' '], x.kind, x.name⟩ ++ [' ']) ++ front ++ [c, ' '] := by
    rw [hjoin, List.concat_eq_append, List.flatMap_append, List.flatMap_singleton, hspelling]
    simp only [List.append_assoc, List.cons_append, List.nil_append]
  rw [← hjoin]
  exact Text.toList_trimRight hend hc

theorem flatMap_pieces (hne : p.symbols ≠ []) (hlegal : ∀ x ∈ p.symbols, Lexeme.Legal x.name) :
    (p.pieces blanks).flatMap (fun q => q.blanks ++ q.spelling) = blanks ++ p.text.toList := by
  have hsymbols := flatMap_cons_concat ' ' (fun x : Symbol => Piece.spelling ⟨[' '], x.kind, x.name⟩) p.symbols
  rw [← toList_trimRight_join hne hlegal] at hsymbols
  have hbehind := congrArg (· ++ [';']) hsymbols
  have hname : Piece.spelling ⟨blanks, .literal, p.name.name⟩ = p.name.text.toList := rfl
  have hcolon : " : ".toList = [' ', ':', ' '] := by decide
  have hsemicolon : " ;".toList = [' ', ';'] := by decide
  simp only [List.append_assoc, List.cons_append, List.nil_append] at hbehind
  simp only [pieces, text, List.flatMap_cons, List.flatMap_append, List.flatMap_map, List.flatMap_nil, hname,
    Piece.spelling_colon, Piece.spelling_semicolon, String.toList_append, List.append_assoc, List.cons_append,
    List.nil_append, hcolon, hsemicolon, hbehind]

end Production

/-! ### Texts of grammars -/

theorem Piece.isChain_of_blanks {p : Piece} {pieces : List Piece} (h : ∀ q ∈ pieces, q.blanks ≠ []) :
    (p :: pieces).IsChain Apart := by
  induction pieces generalizing p with
  | nil => exact .singleton p
  | cons q rest ih =>
    exact .cons_cons (fun _ _ => h q List.mem_cons_self) (ih fun r hr => h r (List.mem_cons_of_mem _ hr))

theorem Production.isChain_pieces {p : Production} {blanks : List Char} {more : List Piece}
    (h : more.IsChain Piece.Apart) : (p.pieces blanks ++ more).IsChain Piece.Apart := by
  refine List.isChain_append.2 ⟨Piece.isChain_of_blanks fun q hq => ?_, h, fun q hq r _ => ?_⟩
  · simp only [List.mem_cons, List.mem_append, List.mem_map, List.not_mem_nil, or_false] at hq
    rcases hq with rfl | ⟨x, -, rfl⟩ | rfl <;> simp
  · -- the last piece is a semicolon, which needs no blanks behind it
    have hlast : (p.pieces blanks).getLast? = some ⟨[' '], .semicolon, ";"⟩ := by
      rw [pieces, ← List.cons_append, ← List.cons_append, List.getLast?_concat]
    obtain rfl := Option.some.inj (hlast.symm.trans hq)
    simp [Piece.Apart]

theorem isLayout_nil : IsLayout [] [] := ⟨[], [], rfl, by simp, by simp [Blank], .nil, rfl⟩

/-- A printed production goes in front of any text, with any blanks before it. -/
theorem IsLayout.production {contents : List (LexemeKind × String)} {text : List Char} (h : IsLayout contents text)
    {p : Production} (hne : p.symbols ≠ []) (hlegal : ∀ x ∈ p.symbols, Lexeme.Legal x.name) {blanks : List Char}
    (hblanks : Blank blanks) : IsLayout (p.contents ++ contents) (blanks ++ p.text.toList ++ text) := by
  obtain ⟨pieces, last, rfl, hblank, hlast, hchain, rfl⟩ := h
  refine ⟨p.pieces blanks ++ pieces, last, ?_, ?_, hlast, Production.isChain_pieces hchain, ?_⟩
  · rw [List.map_append, Production.content_pieces]
  · intro q hq
    rcases List.mem_append.1 hq with hq | hq
    · simp only [Production.pieces, List.mem_cons, List.mem_append, List.mem_map, List.not_mem_nil, or_false] at hq
      rcases hq with rfl | rfl | ⟨x, -, rfl⟩ | rfl
      · exact hblanks
      all_goals simp [Blank]
    · exact hblank q hq
  · rw [Piece.write, Piece.write, List.flatMap_append, Production.flatMap_pieces hne hlegal, List.append_assoc,
      List.append_assoc, List.append_assoc]

namespace Grammar

theorem isLayout_join {productions : List Production} (hne : ∀ p ∈ productions, p.symbols ≠ [])
    (hlegal : ∀ p ∈ productions, ∀ x ∈ p.symbols, Lexeme.Legal x.name) {gap : Nat → String}
    (hgap : ∀ index, Blank (gap index).toList) : IsLayout (productions.flatMap Production.contents)
      (String.join (productions.mapIdx fun index p => gap index ++ p.text)).toList := by
  induction productions generalizing gap with
  | nil => exact isLayout_nil
  | cons p rest ih =>
    have hrest := ih (fun q hq => hne q (List.mem_cons_of_mem _ hq)) (fun q hq => hlegal q (List.mem_cons_of_mem _ hq))
      fun index => hgap (index + 1)
    rw [List.mapIdx_cons, String.join_cons, String.toList_append, String.toList_append]
    exact hrest.production (hne p List.mem_cons_self) (hlegal p List.mem_cons_self) (hgap 0)

theorem Describable.exists_ofSource {productions : List Production} (h : Describable productions) :
    ∃ source g, ofSource source = .ok g ∧ g.productions = productions := by
  have hgap : ∀ index : Nat, Blank ((fun _ => "" : Nat → String) index).toList := by simp [Blank]
  exact ⟨_, exists_ofSource_of_layout h (isLayout_join h.symbols_ne_nil h.legal_symbol hgap)⟩

/-- Productions are read back from every text that lays them out, and a grammar from its printed productions with any blanks or none between them. -/
theorem ofSource_of_layout :
    (∀ productions source, Describable productions →
      IsLayout (productions.flatMap Production.contents) source.toList →
      ∃ g, ofSource source = .ok g ∧ g.productions = productions) ∧
    ∀ source g, ofSource source = .ok g → ∀ gap : Nat → String, (∀ index, Blank (gap index).toList) →
      ofSource (String.join (g.productions.mapIdx fun index p => gap index ++ p.text)) = .ok g := by
  refine ⟨fun productions source h hlayout => exists_ofSource_of_layout h hlayout, fun source g hg gap hgap => ?_⟩
  have h := describable_of_ofSource hg
  obtain ⟨g', hg', hproductions⟩ :=
    exists_ofSource_of_layout h (isLayout_join h.symbols_ne_nil h.legal_symbol hgap)
  rw [hg', ext_productions hproductions]

/-- The only blank is a no-break space between the reference and the word behind it. -/
theorem ofSource_of_layout_dense : ∃ g, ofSource "__root:@a\u00a0x@a;a:y;" = .ok g
    ∧ g.productions = [⟨.root, [.nonterminal ⟨"a"⟩, .terminal ⟨"x"⟩, .nonterminal ⟨"a"⟩]⟩, ⟨⟨"a"⟩, [.terminal ⟨"y"⟩]⟩]
    ∧ ofSource "__root : @a x @a ;a : y ;" = .ok g := by
  obtain ⟨hread, hprinted⟩ := ofSource_of_layout
  have hdescribable : Describable
      [⟨.root, [.nonterminal ⟨"a"⟩, .terminal ⟨"x"⟩, .nonterminal ⟨"a"⟩]⟩, ⟨⟨"a"⟩, [.terminal ⟨"y"⟩]⟩] := {
    nodup := by decide
    symbols_ne_nil := by decide
    legal_name := by decide
    legal_symbol := by decide
    existsUnique_root := ⟨_, ⟨List.mem_cons_self, rfl⟩, by simp [NonTerminal.root]⟩
    defined := by simp }
  obtain ⟨g, hg, hproductions⟩ := hread _ "__root:@a\u00a0x@a;a:y;" hdescribable
    ⟨[⟨[], .literal, "__root"⟩, ⟨[], .colon, ":"⟩, ⟨[], .reference, "a"⟩, ⟨['\u00a0'], .literal, "x"⟩,
      ⟨[], .reference, "a"⟩, ⟨[], .semicolon, ";"⟩, ⟨[], .literal, "a"⟩, ⟨[], .colon, ":"⟩, ⟨[], .literal, "y"⟩,
      ⟨[], .semicolon, ";"⟩], [], rfl, by decide, by decide, by decide, by decide⟩
  refine ⟨g, hg, hproductions, ?_⟩
  have hagain := hprinted _ g hg (fun _ => "") (by simp [Blank])
  rw [hproductions] at hagain
  exact hagain

end Grammar

end CanonicalLR
