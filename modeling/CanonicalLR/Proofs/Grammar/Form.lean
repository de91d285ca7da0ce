import CanonicalLR.Grammar.Source
import Mathlib.Computability.RegularExpressions

/-!
# The form of a grammar text

A grammar text is a row of productions and then the end: its kinds of lexeme match one regular expression (`form`). The reader decides this as it goes. At every position there is an expression for what can still come (`Position.form`), a lexeme that can stand there leads to the next position, and the kinds that can stand there are those that the position expects, with the end besides in place of a name (`exists_cons_mem_iff`). So the lexeme at which the reader stops is the first with which the text is no longer the beginning of one that has the form (`fault_of_readFrom`), and a text at whose end it arrives has the form (`mem_form_of_readFrom`).
-/

namespace CanonicalLR

open RegularExpression

/-! ### Regular expressions -/

theorem cons_mem_char_mul {α : Type} {a k : α} {w : List α} {l : Language α} :
    k :: w ∈ (char a).matches' * l ↔ k = a ∧ w ∈ l := by
  rw [Language.mem_mul]
  constructor
  · intro h
    obtain ⟨_, rfl, v, hv, heq⟩ := h
    obtain ⟨rfl, rfl⟩ := List.cons.inj heq
    exact ⟨rfl, hv⟩
  · intro h
    obtain ⟨rfl, hw⟩ := h
    exact ⟨[k], rfl, w, hw, rfl⟩

theorem matches_star_mul {α : Type} (p q : RegularExpression α) :
    (p.star * q).matches' = p.matches' * (p.star * q).matches' + q.matches' := by
  have hunfold := Language.one_add_self_mul_kstar_eq_kstar p.matches'
  rw [matches'_mul, matches'_star, ← mul_assoc]
  nth_rewrite 1 [← hunfold]
  rw [add_mul, one_mul, add_comm]

namespace Grammar

/-- A symbol is a word or a reference. -/
def symbolForm : RegularExpression LexemeKind := char .literal + char .reference

/-- A name, a colon, one symbol or more, and a semicolon. -/
def productionForm : RegularExpression LexemeKind :=
  char .literal * char .colon * (symbolForm * symbolForm.star) * char .semicolon

/-- The kinds of lexeme of a grammar text: any number of productions, and the end. -/
def form : RegularExpression LexemeKind := productionForm.star * char .endOfText

/-- The kinds begin some text that has the form. -/
def Completable (kinds : List LexemeKind) : Prop := ∃ more, kinds ++ more ∈ form.matches'

/-- The text `a : b @c ;`, and one that has no symbol between colon and semicolon. -/
example : [.literal, .colon, .literal, .reference, .semicolon, .endOfText] ∈ form.matches'
    ∧ [.literal, .colon, .semicolon, .endOfText] ∉ form.matches' := by decide

/-! ### Positions -/

/-- What can come from a position on. -/
def Position.form : Position → RegularExpression LexemeKind
  | name => Grammar.form
  | colon _ => char .colon * (symbolForm * (symbolForm.star * (char .semicolon * Grammar.form)))
  | symbols _ [] => symbolForm * (symbolForm.star * (char .semicolon * Grammar.form))
  | symbols _ (_ :: _) => symbolForm.star * (char .semicolon * Grammar.form)

variable {k : LexemeKind} {w : List LexemeKind} {name : String} {read : List Symbol} {last : Symbol}

theorem cons_mem_symbolForm_mul {l : Language LexemeKind} :
    k :: w ∈ symbolForm.matches' * l ↔ (k = .literal ∨ k = .reference) ∧ w ∈ l := by
  rw [symbolForm, matches'_add, add_mul, Language.mem_add, cons_mem_char_mul, cons_mem_char_mul, or_and_right]

theorem cons_mem_name (name : String) : k :: w ∈ Position.name.form.matches' ↔
    (k = .literal ∧ w ∈ (Position.colon name).form.matches') ∨ k = .endOfText ∧ w = [] := by
  have hproduction : productionForm.matches' * Grammar.form.matches'
      = (char .literal).matches' * (Position.colon name).form.matches' := by
    simp only [productionForm, Position.form, matches'_mul, mul_assoc]
  rw [Position.form, Grammar.form, matches_star_mul, Language.mem_add, ← Grammar.form, hproduction, cons_mem_char_mul]
  refine or_congr_right ?_
  rw [← mul_one (char LexemeKind.endOfText).matches', cons_mem_char_mul, Language.mem_one]

theorem cons_mem_colon :
    k :: w ∈ (Position.colon name).form.matches' ↔ k = .colon ∧ w ∈ (Position.symbols name []).form.matches' :=
  cons_mem_char_mul

theorem cons_mem_symbols_nil (last : Symbol) : k :: w ∈ (Position.symbols name []).form.matches' ↔
    (k = .literal ∨ k = .reference) ∧ w ∈ (Position.symbols name [last]).form.matches' :=
  cons_mem_symbolForm_mul

theorem cons_mem_symbols_cons : k :: w ∈ (Position.symbols name (last :: read)).form.matches' ↔
    ((k = .literal ∨ k = .reference) ∧ w ∈ (Position.symbols name (last :: read)).form.matches') ∨
      k = .semicolon ∧ w ∈ Position.name.form.matches' := by
  show k :: w ∈ (symbolForm.star * (char LexemeKind.semicolon * Grammar.form)).matches' ↔ _
  rw [matches_star_mul, Language.mem_add, cons_mem_symbolForm_mul, matches'_mul (char _), cons_mem_char_mul]
  rfl

theorem cons_mem_symbols_of_symbol (hk : k = .literal ∨ k = .reference) (x : Symbol) :
    k :: w ∈ (Position.symbols name read).form.matches' ↔ w ∈ (Position.symbols name (x :: read)).form.matches' := by
  cases read with
  | nil => rw [cons_mem_symbols_nil x, and_iff_right hk]
  | cons last read =>
    have hne : k ≠ .semicolon := by
      rintro rfl
      simp at hk
    rw [cons_mem_symbols_cons, and_iff_right hk, or_iff_left fun h => hne h.1]
    rfl

theorem Position.exists_mem_form (p : Position) : ∃ w, w ∈ p.form.matches' := by
  have hname : [.endOfText] ∈ Position.name.form.matches' := (cons_mem_name "").2 (.inr ⟨rfl, rfl⟩)
  have hsymbols (name : String) (last : Symbol) (read : List Symbol) :
      [.semicolon, .endOfText] ∈ (Position.symbols name (last :: read)).form.matches' :=
    cons_mem_symbols_cons.2 (.inr ⟨rfl, hname⟩)
  have hnil (name : String) : [.literal, .semicolon, .endOfText] ∈ (Position.symbols name []).form.matches' :=
    (cons_mem_symbols_nil (.terminal .endMarker)).2 ⟨.inl rfl, hsymbols _ _ _⟩
  match p with
  | .name => exact ⟨_, hname⟩
  | .colon _ => exact ⟨_, cons_mem_colon.2 ⟨rfl, hnil _⟩⟩
  | .symbols _ [] => exact ⟨_, hnil _⟩
  | .symbols _ (_ :: _) => exact ⟨_, hsymbols _ _ _⟩

/-- What a position expects is what can stand there, but for the end in place of a name. -/
theorem Position.exists_cons_mem_iff (p : Position) :
    (∃ w, k :: w ∈ p.form.matches') ↔ k ∈ p.expected ∨ p = .name ∧ k = .endOfText := by
  match p with
  | .name =>
    obtain ⟨v, hv⟩ := (Position.colon "").exists_mem_form
    simp only [cons_mem_name "", expected, List.mem_singleton]
    grind
  | .colon n =>
    obtain ⟨v, hv⟩ := (Position.symbols n []).exists_mem_form
    simp only [cons_mem_colon, expected, List.mem_singleton]
    grind
  | .symbols n [] =>
    obtain ⟨v, hv⟩ := (Position.symbols n [.terminal .endMarker]).exists_mem_form
    simp only [cons_mem_symbols_nil (.terminal .endMarker), expected, List.mem_cons, List.not_mem_nil]
    grind
  | .symbols n (last :: read) =>
    obtain ⟨v, hv⟩ := (Position.symbols n (last :: read)).exists_mem_form
    obtain ⟨u, hu⟩ := Position.name.exists_mem_form
    simp only [cons_mem_symbols_cons, expected, List.mem_cons, List.not_mem_nil]
    grind

/-! ### Reading -/

/-- The position behind a lexeme, if the lexeme can stand at a position and is not the end. -/
def Position.after? (p : Position) (l : Lexeme) : Option Position :=
  match p, l.kind with
  | .name, .literal => some (.colon l.text)
  | .colon name, .colon => some (.symbols name [])
  | .symbols name read, .literal => some (.symbols name (.terminal ⟨l.text⟩ :: read))
  | .symbols name read, .reference => some (.symbols name (.nonterminal ⟨l.text⟩ :: read))
  | .symbols _ (_ :: _), .semicolon => some .name
  | _, _ => none

variable {p q : Position} {l : Lexeme} {rest lexemes : List Lexeme} {fault : Fault}

theorem cons_mem_of_after? (h : p.after? l = some q) :
    l.kind :: w ∈ p.form.matches' ↔ w ∈ q.form.matches' := by
  unfold Position.after? at h
  split at h
  · rename_i hkind
    obtain rfl := Option.some.inj h
    simp [hkind, cons_mem_name l.text]
  · rename_i hkind
    obtain rfl := Option.some.inj h
    simp [hkind, cons_mem_colon]
  · rename_i hkind
    obtain rfl := Option.some.inj h
    exact cons_mem_symbols_of_symbol (.inl hkind) _
  · rename_i hkind
    obtain rfl := Option.some.inj h
    exact cons_mem_symbols_of_symbol (.inr hkind) _
  · rename_i hkind
    obtain rfl := Option.some.inj h
    simp [hkind, cons_mem_symbols_cons]
  · cases h

/-- The reader goes on to the next position, or it arrives at the end, or it stops at a lexeme that cannot stand there. -/
theorem readFrom_cases (p : Position) (l : Lexeme) (rest : List Lexeme) :
    (∃ q, p.after? l = some q ∧ (readFrom p (l :: rest)).fault = (readFrom q rest).fault) ∨
    (p = .name ∧ l.kind = .endOfText ∧ (readFrom p (l :: rest)).fault = none) ∨
      ¬ (l.kind ∈ p.expected ∨ p = .name ∧ l.kind = .endOfText) ∧
        (readFrom p (l :: rest)).fault = some ⟨l, p.expected⟩ := by
  match p with
  | .name => cases hkind : l.kind <;> simp [Position.after?, readFrom, hkind, Position.expected]
  | .colon _ => cases hkind : l.kind <;> simp [Position.after?, readFrom, hkind, Position.expected]
  | .symbols _ [] => cases hkind : l.kind <;> simp [Position.after?, readFrom, hkind, Position.expected]
  | .symbols _ (_ :: _) => cases hkind : l.kind <;> simp [Position.after?, readFrom, hkind, Position.expected]

/-- Where the reader stops, some position has been reached at which the lexeme cannot stand. -/
theorem fault_of_readFrom (h : (readFrom p lexemes).fault = some fault) :
    ∃ (before after : List Lexeme) (q : Position),
      lexemes = before ++ fault.lexeme :: after ∧ fault.expected = q.expected
      ∧ (∀ w, before.map Lexeme.kind ++ w ∈ p.form.matches' ↔ w ∈ q.form.matches')
      ∧ ¬ ∃ w, fault.lexeme.kind :: w ∈ q.form.matches' := by
  induction lexemes generalizing p with
  | nil => cases h
  | cons l rest ih =>
    rcases readFrom_cases p l rest with ⟨next, hnext, hfault⟩ | ⟨-, -, hnone⟩ | ⟨hcannot, hfault⟩
    · rw [hfault] at h
      obtain ⟨before, after, q, rfl, hexpected, hforms, hcannot⟩ := ih h
      refine ⟨l :: before, after, q, rfl, hexpected, fun w => ?_, hcannot⟩
      rw [List.map_cons, List.cons_append, cons_mem_of_after? hnext, hforms]
    · cases hnone.symm.trans h
    · obtain rfl := Option.some.inj (hfault.symm.trans h)
      exact ⟨[], rest, p, rfl, rfl, fun w => Iff.rfl, mt p.exists_cons_mem_iff.1 hcannot⟩

theorem Position.nodup_expected (p : Position) : p.expected.Nodup := by
  match p with
  | .name | .colon _ | .symbols _ [] | .symbols _ (_ :: _) => simp [expected]

theorem Position.endOfText_not_mem_expected (p : Position) : .endOfText ∉ p.expected := by
  match p with
  | .name | .colon _ | .symbols _ [] | .symbols _ (_ :: _) => simp [expected]

/-- The lexemes before the fault begin some text of the form, with the fault they begin none, and the kinds with which they do are expected, but for the end. -/
structure Fault.IsFirst (fault : Fault) (before : List Lexeme) : Prop where
  completable : Completable (before.map Lexeme.kind)
  not_completable : ¬ Completable (before.map Lexeme.kind ++ [fault.lexeme.kind])
  nodup_expected : fault.expected.Nodup
  mem_expected_iff : ∀ k, k ∈ fault.expected ↔ k ≠ .endOfText ∧ Completable (before.map Lexeme.kind ++ [k])

theorem exists_isFirst_of_readFrom (h : (readFrom .name lexemes).fault = some fault) :
    ∃ before after, lexemes = before ++ fault.lexeme :: after ∧ fault.IsFirst before := by
  obtain ⟨before, after, q, hlexemes, hexpected, hforms, hcannot⟩ := fault_of_readFrom h
  have hcompletable (k : LexemeKind) : Completable (before.map Lexeme.kind ++ [k]) ↔ ∃ w, k :: w ∈ q.form.matches' := by
    simp only [Completable, List.append_assoc, List.singleton_append]
    exact exists_congr fun w => hforms (k :: w)
  obtain ⟨w, hw⟩ := q.exists_mem_form
  refine ⟨before, after, hlexemes, ⟨w, (hforms w).2 hw⟩, mt (hcompletable _).1 hcannot, ?_, fun k => ?_⟩
  · rw [hexpected]
    exact q.nodup_expected
  · rw [hexpected, hcompletable, q.exists_cons_mem_iff]
    constructor
    · exact fun hk => ⟨fun hend => q.endOfText_not_mem_expected (hend ▸ hk), .inl hk⟩
    · exact fun hk => hk.2.resolve_right fun hend => hk.1 hend.2

/-- The lexemes end with the end of the text, which stands nowhere else. -/
def Ended : List Lexeme → Prop
  | [] => False
  | l :: rest => if l.kind = .endOfText then rest = [] else Ended rest

theorem Ended.tail (h : Ended (l :: rest)) (hkind : l.kind ≠ .endOfText) : Ended rest := by
  rwa [Ended, if_neg hkind] at h

theorem Ended.tail_eq_nil (h : Ended (l :: rest)) (hkind : l.kind = .endOfText) : rest = [] := by
  rwa [Ended, if_pos hkind] at h

theorem ended_scanFrom (location : Location) (cs : List Char) : Ended (Lexeme.scanFrom location cs) := by
  fun_induction Lexeme.scanFrom location cs with
  | case1 location => rfl
  | case2 location c rest hblank ih => exact ih
  | case3 location rest hblank ih => exact ih
  | case4 location rest hblank hcolon ih => exact ih
  | case5 location c rest hblank hcolon hsemicolon more ih =>
    have hkind : (Lexeme.ofWord c more location).kind ≠ .endOfText := by
      unfold Lexeme.ofWord
      split
      · split <;> simp
      · simp
    rw [Ended, if_neg hkind]
    exact ih

theorem mem_form_of_readFrom (hended : Ended lexemes) (h : (readFrom p lexemes).fault = none) :
    lexemes.map Lexeme.kind ∈ p.form.matches' := by
  induction lexemes generalizing p with
  | nil => exact hended.elim
  | cons l rest ih =>
    rw [List.map_cons]
    rcases readFrom_cases p l rest with ⟨next, hnext, hfault⟩ | ⟨rfl, hkind, -⟩ | ⟨-, hfault⟩
    · rw [hfault] at h
      have hkind : l.kind ≠ .endOfText := by
        intro hkind
        simp [Position.after?, hkind] at hnext
      exact (cons_mem_of_after? hnext).2 (ih (hended.tail hkind) h)
    · rw [hkind, hended.tail_eq_nil hkind]
      exact (cons_mem_name "").2 (.inr ⟨rfl, rfl⟩)
    · cases h.symm.trans hfault

theorem isSome_fault_iff (hended : Ended lexemes) :
    (∃ fault, (readFrom p lexemes).fault = some fault) ↔ lexemes.map Lexeme.kind ∉ p.form.matches' := by
  constructor
  · intro h hmem
    obtain ⟨fault, hfault⟩ := h
    obtain ⟨before, after, q, rfl, -, hforms, hcannot⟩ := fault_of_readFrom hfault
    rw [List.map_append, List.map_cons, hforms] at hmem
    exact hcannot ⟨_, hmem⟩
  · intro h
    rw [← Option.isSome_iff_exists, Option.isSome_iff_ne_none]
    exact fun hnone => h (mem_form_of_readFrom hended hnone)

end Grammar

end CanonicalLR
