import CanonicalLR.Proofs.Grammar.Beginnings
import CanonicalLR.Proofs.Grammar.Follow
import Mathlib.Data.List.Chain

/-!
# Neighbours in derived strings

FOLLOW and rewriting at any place. Two symbols meet when all that stands first in the second one follows the first one, and neighbours in a derived string always meet. A step puts the symbols of a production in the place of its name: among themselves they meet, the first of them has the neighbour that the name had before it, and the last has the one that the name had behind it (`Rewrites.isChain`). How far up two neighbours part ways is therefore never asked for. In the other direction a chain of last symbols is a derivation read from its end, so the FOLLOW sets hold what stands behind their nonterminals in strings of symbols that are derived (`follow_eq_neighbours`).
-/

namespace CanonicalLR

namespace Grammar

variable {g : Grammar} {source : String} {p : Production} {x y : Symbol} {m n : NonTerminal} {t : Terminal}
  {xs ys before after : List Symbol}

/-! ### From derivations to FOLLOW -/

/-- What stands first in the second symbol follows the first one. -/
def Meets (g : Grammar) (x y : Symbol) : Prop := ∀ n t, x = .nonterminal n → g.Starts y t → g.Follows n t

theorem isChain_symbols (hp : p ∈ g.productions) : p.symbols.IsChain g.Meets := by
  rw [List.isChain_iff_forall_rel_of_append_cons_cons]
  intro x y before after hsymbols n t hx ht
  subst hx
  exact .next hp hsymbols ht

theorem Meets.first (h : g.Meets x (.nonterminal p.name)) (hp : p ∈ g.productions) (hy : p.firstSymbol? = some y) :
    g.Meets x y :=
  fun n t hx ht => h n t hx (.production hp hy ht)

theorem Meets.last (h : g.Meets (.nonterminal p.name) y) (hp : p ∈ g.productions) (hx : p.symbols.getLast? = some x) :
    g.Meets x y := by
  intro n t hn ht
  subst hn
  obtain ⟨before, hsymbols⟩ := List.getLast?_eq_some_iff.1 hx
  exact .last hp hsymbols (h p.name t rfl ht)

theorem Rewrites.isChain (hg : g.WellFormed) (h : g.Rewrites xs ys) (hxs : xs.IsChain g.Meets) : ys.IsChain g.Meets := by
  obtain ⟨before, after, hp⟩ := h
  obtain ⟨hbefore, hrest, hname⟩ := List.isChain_append.1 hxs
  obtain ⟨hnext, hafter⟩ := List.isChain_cons.1 hrest
  rw [List.append_assoc]
  refine hbefore.append ((isChain_symbols hp).append hafter fun x hx y hy => ?_) fun x hx y hy => ?_
  · exact (hnext y hy).last hp hx
  · have hfirst := hy
    rw [List.head?_append_of_ne_nil _ (hg _ hp).symbols_ne_nil] at hfirst
    exact (hname x hx _ rfl).first hp hfirst

theorem Derives.isChain (hg : g.WellFormed) (h : g.Derives xs ys) (hxs : xs.IsChain g.Meets) : ys.IsChain g.Meets := by
  induction h with
  | refl => exact hxs
  | tail _ hstep ih => exact hstep.isChain hg ih

theorem Derives.follows (hg : g.WellFormed)
    (h : g.Derives [.nonterminal m] (before ++ .nonterminal n :: .terminal t :: after)) : g.Follows n t := by
  have hchain := h.isChain hg (List.isChain_singleton _)
  obtain ⟨-, hmeets, -⟩ := List.isChain_append_cons_cons.1 hchain
  exact hmeets n t rfl (.terminal t)

/-! ### From FOLLOW to derivations -/

theorem Follows.exists_derives (h : g.Follows n t) : ∃ m ∈ g.nonTerminals, ∃ before after,
    g.Derives [.nonterminal m] (before ++ .nonterminal n :: .terminal t :: after) := by
  induction h with
  | @next p before after n x t hp hsymbols ht =>
    obtain ⟨rest, hrest⟩ := ht.exists_derives
    have hwithin := hrest.within (before ++ [.nonterminal n]) after
    simp only [List.append_assoc, List.cons_append, List.nil_append, ← hsymbols] at hwithin
    exact ⟨p.name, Grammar.mem_nonTerminals.2 ⟨p, hp, rfl⟩, before, rest ++ after, (derives_symbols hp).trans hwithin⟩
  | @last p front n t hp hsymbols _ ih =>
    obtain ⟨m, hm, before, after, hderives⟩ := ih
    have hwithin := (derives_symbols hp).within before (.terminal t :: after)
    rw [hsymbols] at hwithin
    simp only [List.append_assoc, List.cons_append, List.nil_append] at hwithin
    refine ⟨m, hm, before ++ front, after, ?_⟩
    rw [List.append_assoc]
    exact hderives.trans hwithin

theorem follows_iff_neighbours (hg : g.WellFormed) : g.Follows n t ↔ ∃ m ∈ g.nonTerminals, ∃ before after,
    g.Derives [.nonterminal m] (before ++ .nonterminal n :: .terminal t :: after) := by
  constructor
  · exact Follows.exists_derives
  · intro h
    obtain ⟨m, -, before, after, hderives⟩ := h
    exact hderives.follows hg

/-- What follows a nonterminal stands in a production, so it is not the end of input. -/
theorem Follows.ne_endMarker (hg : g.WellFormed) (h : g.Follows n t) : t ≠ .endMarker := by
  obtain ⟨m, -, before, after, hderives⟩ := h.exists_derives
  have hmem : Symbol.terminal t ∈ before ++ .nonterminal n :: .terminal t :: after := by simp
  rcases hderives.mem_cases hmem with hroot | ⟨p, hp, hsymbol⟩
  · cases List.mem_singleton.1 hroot
  · intro hend
    exact (hg p hp).endMarker_not_mem (hend ▸ hsymbol)

theorem isSome_get?_follow_iff : ((g.follow g.first).get? n).isSome ↔ n ∈ g.nonTerminals :=
  TerminalSets.isSome_get?_ofSolution

/-- The relaxation ends. The FOLLOW set of a nonterminal then holds the terminals that stand immediately behind it in strings derived from some nonterminal, other names have none, and the end of input is in no set. -/
theorem follow_eq_neighbours (hg : ofSource source = .ok g) :
    (∃ s, s.Converged (Follow.inclusions g.first g.productions)
      ∧ g.follow g.first = .ofSolution g.nonTerminals s) ∧
    (∀ n ∈ g.nonTerminals, ∃ terminals, (g.follow g.first).get? n = some terminals ∧ ∀ t, t ∈ terminals ↔
      ∃ m ∈ g.nonTerminals, ∃ before after,
        g.Derives [.nonterminal m] (before ++ .nonterminal n :: .terminal t :: after)) ∧
    (∀ n, n ∉ g.nonTerminals → (g.follow g.first).get? n = none) ∧
    ∀ n terminals, (g.follow g.first).get? n = some terminals → .endMarker ∉ terminals := by
  have hwell := wellFormed_of_ofSource hg
  refine ⟨⟨_, converged_solve _, rfl⟩, fun n hn => ?_, fun n hn => ?_, fun n terminals hget hmem => ?_⟩
  · obtain ⟨terminals, hget⟩ := Option.isSome_iff_exists.1 (isSome_get?_follow_iff.2 hn)
    refine ⟨terminals, hget, fun t => ?_⟩
    rw [← follows_iff_neighbours hwell, ← mem_follow_iff]
    simp [hget]
  · rw [← isSome_get?_follow_iff] at hn
    exact Option.not_isSome_iff_eq_none.1 hn
  · have hfollows := mem_follow_iff.1 ⟨terminals, hget, hmem⟩
    exact hfollows.ne_endMarker hwell rfl

/-- `c` ends `b` and `b` ends `a`, so behind `c` stands what stands behind `a`: the `y` of `d` and the `z` of another `c`, and never `x`. -/
theorem follow_eq_neighbours_last : ∃ g,
    ofSource "__root : @a @d ; a : x @b ; b : @a @c ; b : @c ; c : z ; d : y ;" = .ok g
      ∧ (g.follow g.first).get? ⟨"c"⟩ = some [⟨"y"⟩, ⟨"z"⟩]
      ∧ (∃ m ∈ g.nonTerminals, ∃ before after,
        g.Derives [.nonterminal m] (before ++ .nonterminal ⟨"c"⟩ :: .terminal ⟨"y"⟩ :: after))
      ∧ (∀ m ∈ g.nonTerminals, ∀ before after,
        ¬ g.Derives [.nonterminal m] (before ++ .nonterminal ⟨"c"⟩ :: .terminal ⟨"x"⟩ :: after))
      ∧ (g.follow g.first).get? ⟨"e"⟩ = none := by
  obtain ⟨g, -, hg, -, hget, hc, he⟩ := Table.exists_table_of_within .reject 20
    "__root : @a @d ; a : x @b ; b : @a @c ; b : @c ; c : z ; d : y ;"
    (P := fun g _ => (g.follow g.first).get? ⟨"c"⟩ = some [⟨"y"⟩, ⟨"z"⟩] ∧ ⟨"c"⟩ ∈ g.nonTerminals
      ∧ ⟨"e"⟩ ∉ g.nonTerminals)
    (by decide +kernel)
  obtain ⟨-, hsets, hnone, -⟩ := follow_eq_neighbours hg
  obtain ⟨terminals, hterminals, hmem⟩ := hsets _ hc
  obtain rfl : terminals = [⟨"y"⟩, ⟨"z"⟩] := Option.some.inj (hterminals.symm.trans hget)
  refine ⟨g, hg, hget, (hmem _).1 List.mem_cons_self, fun m hm before after h => ?_, hnone _ he⟩
  exact absurd ((hmem ⟨"x"⟩).2 ⟨m, hm, before, after, h⟩) (by decide)

end Grammar

end CanonicalLR
