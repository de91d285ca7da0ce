import Mathlib.Data.List.TakeWhile
import CanonicalLR.Grammar.Source

/-!
# Grammars that texts describe

A grammar read from a text has no production without symbols, because the reader refuses a semicolon behind the colon, and none of its terminals is the end of input, because no lexeme that stands for a symbol is spelled with no character. Everything the theory of the parser needs to know of where a grammar came from is in `WellFormed`.
-/

namespace CanonicalLR

structure Production.WellFormed (p : Production) : Prop where
  symbols_ne_nil : p.symbols ≠ []
  endMarker_not_mem : Symbol.terminal .endMarker ∉ p.symbols

namespace Lexeme

theorem text_ne_of_ofWord {c : Char} {more : List Char} {location : Location}
    (h : (ofWord c more location).kind = .literal) : (ofWord c more location).text ≠ "" := by
  unfold ofWord at h ⊢
  split at h
  · split at h <;> simp at h
  · rename_i hc
    rw [if_neg hc]
    intro hempty
    have hchars := congrArg String.toList hempty
    simp at hchars

/-- What is true of the end, of punctuation and of words is true of every lexeme of a text. -/
theorem forall_mem_scanFrom {P : Lexeme → Prop} (hend : ∀ location, P ⟨.endOfText, "", location⟩)
    (hcolon : ∀ location, P ⟨.colon, ":", location⟩) (hsemicolon : ∀ location, P ⟨.semicolon, ";", location⟩)
    (hword : ∀ c more location, ¬ Text.isBlank c = true → c ≠ ':' → c ≠ ';' →
      (∀ d ∈ more, isWordChar d = true) → P (ofWord c more location))
    (location : Location) (cs : List Char) : ∀ l ∈ scanFrom location cs, P l := by
  fun_induction scanFrom location cs with
  | case1 location => exact List.forall_mem_singleton.2 (hend location)
  | case2 location c rest hblank ih => exact ih
  | case3 location rest hblank ih => exact List.forall_mem_cons.2 ⟨hcolon location, ih⟩
  | case4 location rest hblank hne ih => exact List.forall_mem_cons.2 ⟨hsemicolon location, ih⟩
  | case5 location c rest hblank hne hne' more ih =>
    have hmore : ∀ d ∈ more, isWordChar d = true := fun d hd => List.mem_takeWhile_imp hd
    exact List.forall_mem_cons.2 ⟨hword c more location hblank hne hne' hmore, ih⟩

theorem text_ne_of_mem_scanFrom {location : Location} {cs : List Char} {l : Lexeme}
    (hl : l ∈ scanFrom location cs) (hkind : l.kind = .literal) : l.text ≠ "" := by
  revert hkind
  refine forall_mem_scanFrom (P := fun l => l.kind = .literal → l.text ≠ "") ?_ ?_ ?_ ?_ location cs l hl
  · exact fun _ => nofun
  · exact fun _ => nofun
  · exact fun _ => nofun
  · exact fun c more location _ _ _ _ => text_ne_of_ofWord

end Lexeme

namespace Grammar

def WellFormed (g : Grammar) : Prop := ∀ p ∈ g.productions, p.WellFormed

theorem endMarker_not_mem_terminals {g : Grammar} (hg : g.WellFormed) : Terminal.endMarker ∉ g.terminals := by
  intro h
  obtain ⟨p, hp, hmem⟩ := mem_terminals.1 h
  exact (hg p hp).endMarker_not_mem hmem

/-- The symbols read so far hold no end of input. -/
def Position.Sound : Position → Prop
  | .symbols _ read => Symbol.terminal .endMarker ∉ read
  | _ => True

theorem readFrom_wellFormed {position : Position} {lexemes : List Lexeme} (hposition : position.Sound)
    (hlexemes : ∀ l ∈ lexemes, l.kind = .literal → l.text ≠ "") :
    ∀ p ∈ (readFrom position lexemes).productions, p.WellFormed := by
  fun_induction readFrom position lexemes with
  | case1 => exact fun p hp => absurd hp List.not_mem_nil
  | case2 => exact fun p hp => absurd hp List.not_mem_nil
  | case3 lexeme rest hkind ih => exact ih trivial fun l hl => hlexemes l (List.mem_cons_of_mem _ hl)
  | case4 lexeme rest name hkind ih =>
    exact ih List.not_mem_nil fun l hl => hlexemes l (List.mem_cons_of_mem _ hl)
  | case5 lexeme rest name read hkind ih =>
    refine ih ?_ fun l hl => hlexemes l (List.mem_cons_of_mem _ hl)
    intro hmem
    rcases List.mem_cons.1 hmem with heq | hmem
    · have htext := hlexemes lexeme List.mem_cons_self hkind
      simp only [Terminal.endMarker, Symbol.terminal.injEq, Terminal.mk.injEq] at heq
      exact htext heq.symm
    · exact hposition hmem
  | case6 lexeme rest name read hkind ih =>
    refine ih ?_ fun l hl => hlexemes l (List.mem_cons_of_mem _ hl)
    intro hmem
    rcases List.mem_cons.1 hmem with heq | hmem
    · simp at heq
    · exact hposition hmem
  | case7 lexeme rest name last read hkind reading ih =>
    intro p hp
    rcases List.mem_cons.1 hp with rfl | hp
    · refine ⟨by simp, fun hmem => hposition ?_⟩
      simpa only [List.mem_reverse] using hmem
    · exact ih trivial (fun l hl => hlexemes l (List.mem_cons_of_mem _ hl)) p hp
  | case8 => exact fun p hp => absurd hp List.not_mem_nil

theorem productions_of_ofProductions {written : List Production} {g : Grammar}
    (h : ofProductions written = .ok g) : g.productions = distinct written := by
  unfold ofProductions at h
  dsimp only at h
  split at h
  · cases h
  · split at h
    · cases h
    · cases h
      rfl
  · cases h

theorem ofProductions_of_ofSource {source : String} {g : Grammar} (h : ofSource source = .ok g) :
    ofProductions (read source).productions = .ok g := by
  unfold ofSource Reading.grammar at h
  split at h
  · cases h
  · exact h

theorem mem_of_ofProductions {written : List Production} {g : Grammar} (h : ofProductions written = .ok g)
    {p : Production} (hp : p ∈ g.productions) : p ∈ written := by
  rw [productions_of_ofProductions h] at hp
  exact mem_distinct.1 hp

theorem wellFormed_of_ofSource {source : String} {g : Grammar} (h : ofSource source = .ok g) :
    g.WellFormed := by
  intro p hp
  have hposition : Position.name.Sound := trivial
  exact readFrom_wellFormed hposition (fun l hl hkind => Lexeme.text_ne_of_mem_scanFrom hl hkind) p
    (mem_of_ofProductions (ofProductions_of_ofSource h) hp)

end Grammar

end CanonicalLR
