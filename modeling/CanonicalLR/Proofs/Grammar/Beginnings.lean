import CanonicalLR.Proofs.Fixpoint.Passes
import CanonicalLR.Proofs.Grammar.First
import CanonicalLR.Proofs.Table.Evaluation

/-!
# Beginnings of derived strings

FIRST and rewriting at any place. A derivation of a string that begins with a terminal can be read from its end: a step behind the first symbol leaves it there, and a step at the first symbol puts the first symbol of a production in its place, for no production is empty. So what is there to begin with is a symbol in which the terminal stands first (`Derives.exists_starts`), and the FIRST sets hold what strings of symbols derived from their nonterminals begin with (`first_eq_beginnings`).
-/

namespace CanonicalLR

open Relation

namespace Grammar

variable {g : Grammar} {source : String} {x : Symbol} {t : Terminal} {xs rest : List Symbol}

/-- Taking productions for the leading symbol is rewriting. -/
theorem Starts.exists_derives (h : g.Starts x t) : ∃ rest, g.Derives [x] (.terminal t :: rest) := by
  induction h with
  | terminal t => exact ⟨[], .refl⟩
  | @production p x t hp hfirst _ ih =>
    obtain ⟨rest, hrest⟩ := ih
    obtain ⟨more, hmore⟩ := List.head?_eq_some_iff.1 hfirst
    have hwithin := hrest.within [] more
    rw [List.nil_append, List.nil_append, List.singleton_append, ← hmore] at hwithin
    exact ⟨rest ++ more, (derives_symbols hp).trans hwithin⟩

theorem Rewrites.exists_starts (hg : g.WellFormed) {ys : List Symbol} (h : g.Rewrites xs ys) {y : Symbol}
    (hy : ys.head? = some y) (ht : g.Starts y t) : ∃ x, xs.head? = some x ∧ g.Starts x t := by
  obtain ⟨before, after, hp⟩ := h
  cases before with
  | cons x before => exact ⟨y, hy, ht⟩
  | nil =>
    rename_i p
    obtain ⟨z, more, hsymbols⟩ := List.exists_cons_of_ne_nil (hg p hp).symbols_ne_nil
    have hfirst : p.firstSymbol? = some y := by
      rw [hsymbols] at hy
      rw [Production.firstSymbol?, hsymbols]
      exact hy
    exact ⟨_, rfl, .production hp hfirst ht⟩

theorem Derives.exists_starts (hg : g.WellFormed) (h : g.Derives xs (.terminal t :: rest)) :
    ∃ x, xs.head? = some x ∧ g.Starts x t := by
  induction h using ReflTransGen.head_induction_on with
  | refl => exact ⟨_, rfl, .terminal t⟩
  | head hstep _ ih =>
    obtain ⟨y, hy, ht⟩ := ih
    exact hstep.exists_starts hg hy ht

theorem starts_nonterminal_iff (hg : g.WellFormed) {n : NonTerminal} : g.Starts (.nonterminal n) t ↔
    ∃ rest, TransGen g.Rewrites [.nonterminal n] (.terminal t :: rest) := by
  constructor
  · intro h
    obtain ⟨rest, hrest⟩ := h.exists_derives
    rcases reflTransGen_iff_eq_or_transGen.1 hrest with heq | htrans
    · cases heq
    · exact ⟨rest, htrans⟩
  · intro h
    obtain ⟨rest, hrest⟩ := h
    obtain ⟨x, hx, hstarts⟩ := Derives.exists_starts hg hrest.to_reflTransGen
    obtain rfl := Option.some.inj hx
    exact hstarts

theorem isSome_get?_first_iff {n : NonTerminal} : (g.first.get? n).isSome ↔ n ∈ g.nonTerminals :=
  TerminalSets.isSome_get?_ofSolution

/-- The relaxation ends. The FIRST set of a nonterminal then holds the terminals that the strings derived from it begin with, other names have none, and the end of input is in no set. -/
theorem first_eq_beginnings (hg : ofSource source = .ok g) :
    (∃ s, s.Converged (g.productions.filterMap Production.firstInclusion?)
      ∧ g.first = .ofSolution g.nonTerminals s) ∧
    (∀ n ∈ g.nonTerminals, ∃ terminals, g.first.get? n = some terminals ∧ ∀ t, t ∈ terminals ↔
      ∃ rest, TransGen g.Rewrites [.nonterminal n] (.terminal t :: rest)) ∧
    (∀ n, n ∉ g.nonTerminals → g.first.get? n = none) ∧
    ∀ n terminals, g.first.get? n = some terminals → .endMarker ∉ terminals := by
  have hwell := wellFormed_of_ofSource hg
  refine ⟨⟨_, converged_solve _, rfl⟩, fun n hn => ?_, fun n hn => ?_, fun n terminals hget hmem => ?_⟩
  · obtain ⟨terminals, hget⟩ := Option.isSome_iff_exists.1 (isSome_get?_first_iff.2 hn)
    refine ⟨terminals, hget, fun t => ?_⟩
    rw [← starts_nonterminal_iff hwell, ← mem_first_iff]
    simp [hget]
  · rw [← isSome_get?_first_iff] at hn
    exact Option.not_isSome_iff_eq_none.1 hn
  · have hstarts := mem_first_iff.1 ⟨terminals, hget, hmem⟩
    exact hstarts.ne_endMarker hwell nofun rfl

/-- Two nonterminals that lead each other: only by way of `z` does a string begin with a terminal. -/
theorem first_eq_beginnings_mutual : ∃ g, ofSource "__root : @a ; a : @b x ; b : @a y ; b : z ;" = .ok g
    ∧ g.first.get? ⟨"a"⟩ = some [⟨"z"⟩]
    ∧ (∃ rest, TransGen g.Rewrites [.nonterminal ⟨"a"⟩] (.terminal ⟨"z"⟩ :: rest))
    ∧ (∀ rest, ¬ TransGen g.Rewrites [.nonterminal ⟨"a"⟩] (.terminal ⟨"y"⟩ :: rest))
    ∧ g.first.get? ⟨"c"⟩ = none := by
  obtain ⟨g, -, hg, -, hget, ha, hc⟩ := Table.exists_table_of_within .reject 20
    "__root : @a ; a : @b x ; b : @a y ; b : z ;"
    (P := fun g _ => g.first.get? ⟨"a"⟩ = some [⟨"z"⟩] ∧ ⟨"a"⟩ ∈ g.nonTerminals ∧ ⟨"c"⟩ ∉ g.nonTerminals)
    (by decide +kernel)
  obtain ⟨-, hsets, hnone, -⟩ := first_eq_beginnings hg
  obtain ⟨terminals, hterminals, hmem⟩ := hsets _ ha
  obtain rfl : terminals = [⟨"z"⟩] := Option.some.inj (hterminals.symm.trans hget)
  refine ⟨g, hg, hget, (hmem _).1 (List.mem_singleton_self _), fun rest h => ?_, hnone _ hc⟩
  exact absurd ((hmem _).2 ⟨rest, h⟩) (by decide)

end Grammar

end CanonicalLR
