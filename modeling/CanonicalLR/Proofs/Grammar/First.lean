import CanonicalLR.Item.Goal
import CanonicalLR.Proofs.Grammar.Derivation

/-!
# What FIRST holds

A terminal stands first in a nonterminal when taking productions for the leading nonterminal, over and over, leads to it. The FIRST sets hold exactly these terminals (`mem_first_iff`), so the first token of a derivation tree is in the FIRST set of the tree's name. What may follow the current symbol of an item is then known without the sets: it is what stands first in the next symbol, or the item's own lookahead where there is no next symbol or nothing stands first in it (`mem_expansionLookaheads_iff`).
-/

namespace CanonicalLR

namespace Grammar

variable {g : Grammar}

/-- Productions for the leading nonterminal lead from `x` to `t`. -/
inductive Starts (g : Grammar) : Symbol → Terminal → Prop where
  | terminal (t : Terminal) : Starts g (.terminal t) t
  | production {p : Production} {x : Symbol} {t : Terminal} : p ∈ g.productions → p.firstSymbol? = some x →
    Starts g x t → Starts g (.nonterminal p.name) t

theorem starts_terminal_iff {s t : Terminal} : g.Starts (.terminal s) t ↔ t = s := by
  constructor
  · intro h
    cases h
    rfl
  · intro h
    subst h
    exact .terminal t

theorem included_of_starts {x : Symbol} {t : Terminal} (h : g.Starts x t) {n : NonTerminal}
    (hx : x = .nonterminal n) : Included (g.productions.filterMap Production.firstInclusion?) n t := by
  induction h generalizing n with
  | terminal t => simp at hx
  | @production p x t hp hfirst _ ih =>
    obtain rfl := Symbol.nonterminal.inj hx
    cases x with
    | terminal s =>
      rename_i hstarts
      obtain rfl := starts_terminal_iff.1 hstarts
      have hmem : (⟨p.name, .members [t]⟩ : Inclusion NonTerminal Terminal)
          ∈ g.productions.filterMap Production.firstInclusion? :=
        List.mem_filterMap.2 ⟨p, hp, by rw [Production.firstInclusion?, hfirst]⟩
      exact .member hmem rfl (List.mem_singleton_self t)
    | nonterminal m =>
      have hmem : (⟨p.name, .setOf m⟩ : Inclusion NonTerminal Terminal)
          ∈ g.productions.filterMap Production.firstInclusion? :=
        List.mem_filterMap.2 ⟨p, hp, by rw [Production.firstInclusion?, hfirst]⟩
      exact .step hmem rfl (ih rfl)

theorem starts_of_included {n : NonTerminal} {t : Terminal}
    (h : Included (g.productions.filterMap Production.firstInclusion?) n t) : g.Starts (.nonterminal n) t := by
  induction h with
  | member hi hsource ht =>
    obtain ⟨p, hp, hinclusion⟩ := List.mem_filterMap.1 hi
    unfold Production.firstInclusion? at hinclusion
    split at hinclusion
    · simp at hinclusion
    · rename_i s hfirst
      obtain rfl := Option.some.inj hinclusion
      obtain rfl := Source.members.inj hsource
      obtain rfl := List.mem_singleton.1 ht
      exact .production hp hfirst (.terminal _)
    · obtain rfl := Option.some.inj hinclusion
      cases hsource
  | step hi hsource _ ih =>
    obtain ⟨p, hp, hinclusion⟩ := List.mem_filterMap.1 hi
    unfold Production.firstInclusion? at hinclusion
    split at hinclusion
    · simp at hinclusion
    · obtain rfl := Option.some.inj hinclusion
      cases hsource
    · rename_i m hfirst
      obtain rfl := Option.some.inj hinclusion
      obtain rfl := Source.setOf.inj hsource
      exact .production hp hfirst ih

theorem included_iff_starts {n : NonTerminal} {t : Terminal} :
    Included (g.productions.filterMap Production.firstInclusion?) n t ↔ g.Starts (.nonterminal n) t :=
  ⟨starts_of_included, fun h => included_of_starts h rfl⟩

theorem Starts.mem_nonTerminals {n : NonTerminal} {t : Terminal} (h : g.Starts (.nonterminal n) t) :
    n ∈ g.nonTerminals := by
  cases h with
  | production hp _ _ => exact Grammar.mem_nonTerminals.2 ⟨_, hp, rfl⟩

theorem mem_first_iff {n : NonTerminal} {t : Terminal} :
    (∃ terminals, g.first.get? n = some terminals ∧ t ∈ terminals) ↔ g.Starts (.nonterminal n) t := by
  rw [first, TerminalSets.mem_get?_ofSolution_solve, included_iff_starts]
  exact and_iff_right_of_imp Starts.mem_nonTerminals

/-- No FIRST set is empty. -/
def FirstInhabited (g : Grammar) : Prop :=
  ∀ n ∈ g.nonTerminals, ∃ terminals, g.first.get? n = some terminals ∧ terminals ≠ []

instance (g : Grammar) : Decidable g.FirstInhabited :=
  decidable_of_iff (∀ n ∈ g.nonTerminals, (g.first.get? n).any (!·.isEmpty) = true) <| by
    simp [FirstInhabited, Option.any_eq_true]

theorem FirstInhabited.exists_starts (h : g.FirstInhabited) {p : Production} (hp : p ∈ g.productions) {x : Symbol}
    (hx : x ∈ p.symbols) : ∃ t, g.Starts x t := by
  cases x with
  | terminal t => exact ⟨t, .terminal t⟩
  | nonterminal n =>
    obtain ⟨terminals, hget, hne⟩ := h n (mem_nonTerminals.2 (g.defined p hp n hx))
    obtain ⟨t, ht⟩ := List.exists_mem_of_ne_nil terminals hne
    exact ⟨t, mem_first_iff.1 ⟨terminals, hget, ht⟩⟩

theorem Starts.ne_endMarker (hg : g.WellFormed) {x : Symbol} {t : Terminal} (h : g.Starts x t)
    (hx : x ≠ .terminal .endMarker) : t ≠ .endMarker := by
  induction h with
  | terminal t => exact fun ht => hx (ht ▸ rfl)
  | production hp hfirst _ ih =>
    apply ih
    intro heq
    apply (hg _ hp).endMarker_not_mem
    exact heq ▸ List.mem_of_mem_head? hfirst

theorem Starts.eq_or_mem_terminals {x : Symbol} {t : Terminal} (h : g.Starts x t) :
    x = .terminal t ∨ t ∈ g.terminals := by
  induction h with
  | terminal t => exact .inl rfl
  | production hp hfirst _ ih =>
    rcases ih with rfl | ht
    · exact .inr (mem_terminals.2 ⟨_, hp, List.mem_of_mem_head? hfirst⟩)
    · exact .inr ht

theorem Admits.starts (hg : g.WellFormed) {t : Tree} (h : g.Admits t) :
    ∃ token rest, t.leaves = token :: rest ∧ g.Starts t.symbol ⟨token.kind⟩ := by
  induction h with
  | leaf token => exact ⟨token, [], Tree.leaves_leaf token, .terminal _⟩
  | @node name children hp _ ih =>
    have hne := (hg _ hp).symbols_ne_nil
    cases children with
    | nil => exact absurd rfl hne
    | cons c rest =>
      obtain ⟨token, more, hleaves, hstarts⟩ := ih c List.mem_cons_self
      refine ⟨token, more ++ rest.flatMap Tree.leaves, ?_, .production hp rfl hstarts⟩
      rw [Tree.leaves_node, List.flatMap_cons, hleaves, List.cons_append]

end Grammar

namespace Item

variable {g : Grammar} {i : Item}

theorem expansionLookaheads_of_last {first : TerminalSets} (h : i.following? = none) :
    i.expansionLookaheads first = [i.lookahead] := by
  rw [expansionLookaheads, h]

/-- Where a symbol follows, what stands first in it can follow; the lookahead stands in for nothing. -/
theorem mem_expansionLookaheads_iff {x : Symbol} {t : Terminal} (h : i.following? = some x) :
    t ∈ i.expansionLookaheads g.first ↔ g.Starts x t ∨ (∀ s, ¬ g.Starts x s) ∧ t = i.lookahead := by
  rw [expansionLookaheads, h]
  cases x with
  | terminal s => simp [Grammar.starts_terminal_iff]
  | nonterminal n =>
    simp only [← Grammar.mem_first_iff]
    cases hget : g.first.get? n with
    | none => simp
    | some terminals =>
      cases terminals with
      | nil => simp
      | cons s rest =>
        have hsome : ¬ ∀ r, r ∉ s :: rest := fun hnone => hnone s List.mem_cons_self
        simp only [Option.some.injEq, exists_eq_left', hsome, false_and, or_false]

/-- Where something stands first in the symbol that follows, the lookahead is not looked at. -/
theorem mem_expansionLookaheads_iff_starts {x : Symbol} {t : Terminal} (hstarts : ∃ s, g.Starts x s)
    (h : i.following? = some x) : t ∈ i.expansionLookaheads g.first ↔ g.Starts x t := by
  rw [mem_expansionLookaheads_iff h]
  exact or_iff_left fun hnone => not_exists.2 hnone.1 hstarts

theorem mem_expansionLookaheads_of_starts {x : Symbol} {t : Terminal} (h : i.following? = some x)
    (ht : g.Starts x t) : t ∈ i.expansionLookaheads g.first :=
  (mem_expansionLookaheads_iff h).2 (.inl ht)

end Item

end CanonicalLR
