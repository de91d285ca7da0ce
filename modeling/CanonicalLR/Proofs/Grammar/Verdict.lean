import CanonicalLR.Proofs.Grammar.Form
import CanonicalLR.Proofs.Grammar.Layout
import CanonicalLR.Proofs.Grammar.WellFormed
import Mathlib.Data.Finset.Card
import Mathlib.Data.List.Induction

/-!
# What becomes of a grammar text

A text that does not have the form is refused at the first lexeme with which it cannot have it. One that has the form is the lexemes of some productions, in their order and repeats included, and the reader reads these (`contents_of_readFrom`). What becomes of them is said by `Verdict` in terms of what was written: that the grammar keeps every production once changes neither which references come first (`undefined?_distinct`) nor which of them are defined, and the root's productions are counted without repeats.
-/

namespace CanonicalLR

open Std

universe u

/-- What holds of something in a part that repeats is found where the part first stands. -/
theorem find?_flatMap_distinct {α β : Type u} [Ord α] [TransOrd α] [LawfulEqOrd α] (f : α → List β) (holds : β → Bool)
    (l : List α) : ((distinct l).flatMap f).find? holds = (l.flatMap f).find? holds := by
  induction l using List.reverseRecOn with
  | nil => rfl
  | append_singleton l x ih =>
    rw [List.flatMap_append, List.find?_append, ← ih]
    by_cases hx : x ∈ l
    · rw [distinct_concat_of_mem hx]
      cases hfind : ((distinct l).flatMap f).find? holds with
      | some y => rfl
      | none =>
        rw [List.find?_eq_none] at hfind
        rw [Option.none_or, eq_comm, List.find?_eq_none]
        intro y hy
        rw [List.flatMap_singleton] at hy
        exact hfind y (List.mem_flatMap.2 ⟨x, mem_distinct.2 hx, hy⟩)
    · rw [distinct_concat_of_not_mem hx, List.flatMap_append, List.find?_append]

theorem LexemeKind.word_injective : Function.Injective word := by
  intro k l h
  cases k <;> cases l <;> first | rfl | simp [word] at h

namespace Lexeme

/-- Colons, semicolons and the end are spelled in one way only. -/
def Fixed (l : Lexeme) : Prop :=
  (l.kind = .colon → l.text = ":") ∧ (l.kind = .semicolon → l.text = ";") ∧ (l.kind = .endOfText → l.text = "")

theorem fixed_ofWord (c : Char) (more : List Char) (location : Location) : (ofWord c more location).Fixed := by
  unfold ofWord
  split
  · split <;> simp [Fixed]
  · simp [Fixed]

theorem fixed_of_mem_scanFrom {location : Location} {cs : List Char} {l : Lexeme} (hl : l ∈ scanFrom location cs) :
    l.Fixed := by
  refine forall_mem_scanFrom ?_ ?_ ?_ (fun c more location _ _ _ _ => fixed_ofWord c more location) location cs l hl
  · simp [Fixed]
  · simp [Fixed]
  · simp [Fixed]

end Lexeme

namespace Grammar

variable {written : List Production} {lexemes : List Lexeme} {p : Position} {source : String}

/-! ### What was written -/

/-- The lexemes of the part of a production that has been read. -/
def Position.contents : Position → List (LexemeKind × String)
  | name => []
  | colon n => [(.literal, n)]
  | symbols n read => (.literal, n) :: (.colon, ":") :: read.reverse.map Symbol.content

/-- Where the reader does not stop, it reads the productions of which these are the lexemes. -/
theorem contents_of_readFrom (hended : Ended lexemes) (hfixed : ∀ l ∈ lexemes, l.Fixed)
    (h : (readFrom p lexemes).fault = none) : p.contents ++ lexemes.map Lexeme.content
      = (readFrom p lexemes).productions.flatMap Production.contents ++ [(.endOfText, "")] := by
  fun_induction readFrom p lexemes with
  | case1 => exact hended.elim
  | case2 lexeme rest hkind =>
    have htext := (hfixed lexeme List.mem_cons_self).2.2 hkind
    simp [Position.contents, Lexeme.content, hkind, htext, hended.tail_eq_nil hkind]
  | case3 lexeme rest hkind ih =>
    obtain ⟨-, hrest⟩ := List.forall_mem_cons.1 hfixed
    rw [← ih (hended.tail (by simp [hkind])) hrest h]
    simp [Position.contents, Lexeme.content, hkind]
  | case4 lexeme rest n hkind ih =>
    obtain ⟨hlexeme, hrest⟩ := List.forall_mem_cons.1 hfixed
    rw [← ih (hended.tail (by simp [hkind])) hrest h]
    simp [Position.contents, Lexeme.content, hkind, hlexeme.1 hkind]
  | case5 lexeme rest n read hkind ih =>
    obtain ⟨-, hrest⟩ := List.forall_mem_cons.1 hfixed
    rw [← ih (hended.tail (by simp [hkind])) hrest h]
    simp [Position.contents, Lexeme.content, Symbol.content, Symbol.kind, Symbol.name, hkind]
  | case6 lexeme rest n read hkind ih =>
    obtain ⟨-, hrest⟩ := List.forall_mem_cons.1 hfixed
    rw [← ih (hended.tail (by simp [hkind])) hrest h]
    simp [Position.contents, Lexeme.content, Symbol.content, Symbol.kind, Symbol.name, hkind]
  | case7 lexeme rest n last read hkind reading ih =>
    obtain ⟨hlexeme, hrest⟩ := List.forall_mem_cons.1 hfixed
    have hproductions := ih (hended.tail (by simp [hkind])) hrest h
    rw [List.flatMap_cons, List.append_assoc, ← hproductions]
    simp [Position.contents, Production.contents, Lexeme.content, hkind, hlexeme.2.1 hkind]
  | case8 => cases h

/-- The lexemes of the text are those of these productions. -/
structure Lists (source : String) (written : List Production) : Prop where
  contents : (Lexeme.scan source).map Lexeme.content = written.flatMap Production.contents ++ [(.endOfText, "")]
  symbols_ne_nil : ∀ p ∈ written, p.symbols ≠ []

theorem Lists.read_eq (h : Lists source written) : read source = ⟨written, none⟩ :=
  readFrom_productions h.symbols_ne_nil h.contents

theorem lists_of_no_fault (h : (read source).fault = none) : Lists source (read source).productions := by
  have hended : Ended (Lexeme.scan source) := ended_scanFrom _ _
  have hposition : Position.name.Sound := trivial
  have hwell := readFrom_wellFormed hposition
    fun l (hl : l ∈ Lexeme.scan source) hkind => Lexeme.text_ne_of_mem_scanFrom hl hkind
  exact ⟨contents_of_readFrom hended (fun l hl => Lexeme.fixed_of_mem_scanFrom hl) h,
    fun p hp => (hwell p hp).symbols_ne_nil⟩

/-! ### What becomes of it -/

/-- The number of different productions of the root. -/
def rootCount (written : List Production) : Nat := (written.filter (·.name.isRoot)).toFinset.card

def Defined (written : List Production) (n : NonTerminal) : Prop := ∃ p ∈ written, p.name = n

/-- The outcome for productions that were written: errors come in this order, and the reference is the first that is not defined. -/
inductive Verdict (written : List Production) : Except GrammarError Grammar → Prop where
  | rootNotFound : (∀ p ∈ written, p.name ≠ .root) → Verdict written (.error .rootNotFound)
  | multipleRoots : 2 ≤ rootCount written → Verdict written (.error (.multipleRoots (rootCount written)))
  | undefinedNonTerminal {n : NonTerminal} {before after : List NonTerminal} : rootCount written = 1 →
    references written = before ++ n :: after → (∀ m ∈ before, Defined written m) → ¬ Defined written n →
    Verdict written (.error (.undefinedNonTerminal n))
  | accepted {g : Grammar} : rootCount written = 1 → (∀ n ∈ references written, Defined written n) →
    g.productions = distinct written → Verdict written (.ok g)

theorem rootCount_eq (written : List Production) :
    rootCount written = ((distinct written).filter (·.name.isRoot)).length := by
  rw [rootCount, ← List.toFinset_card_of_nodup ((nodup_distinct written).filter _)]
  congr 1
  ext p
  simp

theorem any_name_iff (written : List Production) (n : NonTerminal) :
    written.any (·.name == n) = true ↔ Defined written n := by
  simp [Defined]

theorem undefined?_distinct (written : List Production) : undefined? (distinct written) = undefined? written := by
  have hdefined (n : NonTerminal) : (distinct written).any (·.name == n) = written.any (·.name == n) := by
    rw [Bool.eq_iff_iff, any_name_iff, any_name_iff]
    simp [Defined]
  simp only [undefined?, references, hdefined]
  exact find?_flatMap_distinct _ _ written

theorem verdict_ofProductions (written : List Production) : Verdict written (ofProductions written) := by
  have hcount := rootCount_eq written
  have hundefined := undefined?_distinct written
  unfold ofProductions
  dsimp only
  split
  · rename_i hroots
    refine .rootNotFound fun p hp hname => ?_
    have hmem := List.filter_eq_nil_iff.1 hroots p (mem_distinct.2 hp)
    exact hmem (NonTerminal.isRoot_iff.2 hname)
  · rename_i root hroots
    rw [hroots] at hcount
    split
    · rename_i n hn
      rw [hundefined, undefined?, List.find?_eq_some_iff_append] at hn
      obtain ⟨hnot, before, after, hreferences, hbefore⟩ := hn
      refine .undefinedNonTerminal hcount hreferences (fun m hm => ?_) fun hdefined => ?_
      · simpa [Defined] using hbefore m hm
      · simp [(any_name_iff written n).2 hdefined] at hnot
    · rename_i hnone
      rw [hundefined, undefined?, List.find?_eq_none] at hnone
      refine .accepted hcount (fun n hn => ?_) rfl
      simpa [Defined] using hnone n hn
  · rename_i hnil hsingle
    rw [← hcount]
    refine .multipleRoots ?_
    rw [hcount]
    cases hroots : (distinct written).filter (·.name.isRoot) with
    | nil => exact absurd hroots hnil
    | cons root more =>
      cases more with
      | nil => exact absurd hroots (hsingle root)
      | cons other more => exact Nat.le_add_left 2 _

theorem ofSource_eq_of_fault {fault : Fault} (h : (read source).fault = some fault) :
    ofSource source = .error fault.error := by
  rw [ofSource, Reading.grammar, h]

theorem ofSource_eq_of_no_fault (h : (read source).fault = none) :
    ofSource source = ofProductions (read source).productions := by
  rw [ofSource, Reading.grammar, h]

/-- No other cause is given for productions that have been read. -/
theorem Verdict.ne_unexpectedLexeme {outcome : Except GrammarError Grammar} (h : Verdict written outcome)
    (location : Location) (expected : List String) (found : String) :
    outcome ≠ .error (.unexpectedLexeme location expected found) := by
  cases h <;> exact nofun

theorem exists_fault_of_unexpectedLexeme {location : Location} {expected : List String} {found : String}
    (h : ofSource source = .error (.unexpectedLexeme location expected found)) :
    ∃ fault, (read source).fault = some fault ∧ fault.error = .unexpectedLexeme location expected found := by
  cases hfault : (read source).fault with
  | some fault =>
    rw [ofSource_eq_of_fault hfault] at h
    exact ⟨fault, rfl, Except.error.inj h⟩
  | none =>
    rw [ofSource_eq_of_no_fault hfault] at h
    exact absurd h ((verdict_ofProductions _).ne_unexpectedLexeme location expected found)

/-- A text is refused for its form exactly if it does not have it, and then for the first lexeme with which it cannot have it. The error names the kind of this lexeme and the kinds that are expected, each by a word of its own. Otherwise the text lists some productions and no others, and these decide. -/
theorem verdict_of_source (source : String) :
    ((∃ location expected found, ofSource source = .error (.unexpectedLexeme location expected found)) ↔
      (Lexeme.scan source).map Lexeme.kind ∉ form.matches') ∧
    (∀ location expected found, ofSource source = .error (.unexpectedLexeme location expected found) →
      ∃ (before after : List Lexeme) (fault : Fault), Lexeme.scan source = before ++ fault.lexeme :: after
        ∧ fault.IsFirst before ∧ location = fault.lexeme.location
        ∧ expected = fault.expected.map LexemeKind.word ∧ found = fault.lexeme.kind.word) ∧
    (Function.Injective LexemeKind.word ∧
      [.endOfText, .unknown, .colon, .semicolon, .reference, .literal].map LexemeKind.word
        = ["end", "unknown", "colon", "semicolon", "reference", "literal"]) ∧
    ((Lexeme.scan source).map Lexeme.kind ∈ form.matches' → ∃! written, Lists source written) ∧
    (∀ written, Lists source written → Verdict written (ofSource source)) := by
  have hfault : (∃ fault, (read source).fault = some fault) ↔ (Lexeme.scan source).map Lexeme.kind ∉ form.matches' :=
    isSome_fault_iff (ended_scanFrom _ _)
  refine ⟨?_, fun location expected found h => ?_, ⟨LexemeKind.word_injective, rfl⟩, fun hform => ?_,
    fun written hwritten => ?_⟩
  · rw [← hfault]
    constructor
    · intro h
      obtain ⟨location, expected, found, herror⟩ := h
      obtain ⟨fault, hread, -⟩ := exists_fault_of_unexpectedLexeme herror
      exact ⟨fault, hread⟩
    · intro h
      obtain ⟨fault, hread⟩ := h
      exact ⟨_, _, _, ofSource_eq_of_fault hread⟩
  · obtain ⟨fault, hread, herror⟩ := exists_fault_of_unexpectedLexeme h
    obtain ⟨before, after, hlexemes, hfirst⟩ := exists_isFirst_of_readFrom hread
    injection herror with hlocation hexpected hfound
    exact ⟨before, after, fault, hlexemes, hfirst, hlocation.symm, hexpected.symm, hfound.symm⟩
  · have hnone : (read source).fault = none := by
      rw [Option.eq_none_iff_forall_ne_some]
      exact fun fault hread => hfault.1 ⟨fault, hread⟩ hform
    refine ⟨(read source).productions, lists_of_no_fault hnone, fun written hwritten => ?_⟩
    rw [hwritten.read_eq]
  · rw [ofSource_eq_of_no_fault (congrArg Reading.fault hwritten.read_eq), hwritten.read_eq]
    exact verdict_ofProductions written

/-- An `@` behind a symbol. -/
example : ofSource "__root : x @ ;"
    = .error (.unexpectedLexeme ⟨1, 12⟩ ["semicolon", "reference", "literal"] "unknown") := by decide +kernel

end Grammar

end CanonicalLR
