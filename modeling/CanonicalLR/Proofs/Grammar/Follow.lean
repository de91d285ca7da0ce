import CanonicalLR.Follow
import CanonicalLR.Proofs.Grammar.First

/-!
# What FOLLOW holds

A terminal follows a nonterminal when it stands first in the symbol behind the nonterminal in some production, or when the nonterminal is the last symbol of a production and the terminal follows the production's own name. Each of the two rules is an inclusion, and the FOLLOW sets, being the least sets of which the inclusions are true, hold exactly what the rules give (`mem_follow_iff`).
-/

namespace CanonicalLR

namespace Grammar

variable {g : Grammar} {head n : NonTerminal} {t : Terminal}

/-- The terminal can stand behind the nonterminal. -/
inductive Follows (g : Grammar) : NonTerminal → Terminal → Prop where
  | next {p : Production} {before after : List Symbol} {n : NonTerminal} {x : Symbol} {t : Terminal} :
    p ∈ g.productions → p.symbols = before ++ .nonterminal n :: x :: after → g.Starts x t → Follows g n t
  | last {p : Production} {before : List Symbol} {n : NonTerminal} {t : Terminal} :
    p ∈ g.productions → p.symbols = before ++ [.nonterminal n] → Follows g p.name t → Follows g n t

theorem Follows.mem_nonTerminals (h : g.Follows n t) : n ∈ g.nonTerminals := by
  cases h with
  | next hp hsymbols _ => exact Grammar.mem_nonTerminals.2 (g.defined _ hp n (by simp [hsymbols]))
  | last hp hsymbols _ => exact Grammar.mem_nonTerminals.2 (g.defined _ hp n (by simp [hsymbols]))

/-! ### The inclusions -/

/-- There is one inclusion for each occurrence of a nonterminal. -/
theorem mem_inclusionsOf {first : TerminalSets} {symbols : List Symbol} {i : Inclusion NonTerminal Terminal} :
    i ∈ Follow.inclusionsOf first head symbols ↔ ∃ before n after,
      symbols = before ++ .nonterminal n :: after ∧ i = Follow.inclusion first head n after.head? := by
  induction symbols with
  | nil => simp [Follow.inclusionsOf]
  | cons y rest ih =>
    have hcons : (∃ before n after, y :: rest = before ++ .nonterminal n :: after
          ∧ i = Follow.inclusion first head n after.head?) ↔
        (∃ n, y = .nonterminal n ∧ i = Follow.inclusion first head n rest.head?)
          ∨ i ∈ Follow.inclusionsOf first head rest := by
      rw [ih]
      constructor
      · rintro ⟨before, n, after, hsymbols, hi⟩
        cases before with
        | nil =>
          obtain ⟨rfl, rfl⟩ := List.cons.inj hsymbols
          exact .inl ⟨n, rfl, hi⟩
        | cons z before => exact .inr ⟨before, n, after, (List.cons.inj hsymbols).2, hi⟩
      · rintro (⟨n, rfl, hi⟩ | ⟨before, n, after, rfl, hi⟩)
        · exact ⟨[], n, rest, rfl, hi⟩
        · exact ⟨y :: before, n, after, rfl, hi⟩
    rw [hcons]
    cases y with
    | terminal s => simp [Follow.inclusionsOf]
    | nonterminal m => simp [Follow.inclusionsOf]

theorem exists_members_inclusion (g : Grammar) (head n : NonTerminal) (x : Symbol) : ∃ members,
    (Follow.inclusion g.first head n (some x)).source = .members members ∧ ∀ t, t ∈ members ↔ g.Starts x t := by
  cases x with
  | terminal s => exact ⟨[s], rfl, fun t => by rw [List.mem_singleton, starts_terminal_iff]⟩
  | nonterminal m =>
    refine ⟨(g.first.get? m).getD [], rfl, fun t => ?_⟩
    rw [← mem_first_iff]
    cases g.first.get? m <;> simp

theorem follows_of_included (h : Included (Follow.inclusions g.first g.productions) n t) : g.Follows n t := by
  induction h with
  | member hi hsource ht =>
    obtain ⟨p, hp, hi⟩ := List.mem_flatMap.1 hi
    obtain ⟨before, n, after, hsymbols, rfl⟩ := mem_inclusionsOf.1 hi
    cases after with
    | nil => cases hsource
    | cons x after =>
      obtain ⟨members, hmembers, hstarts⟩ := exists_members_inclusion g p.name n x
      obtain rfl := Source.members.inj (hmembers.symm.trans hsource)
      exact .next hp hsymbols ((hstarts _).1 ht)
  | step hi hsource _ ih =>
    obtain ⟨p, hp, hi⟩ := List.mem_flatMap.1 hi
    obtain ⟨before, n, after, hsymbols, rfl⟩ := mem_inclusionsOf.1 hi
    cases after with
    | nil =>
      obtain rfl := Source.setOf.inj hsource
      exact .last hp hsymbols ih
    | cons x after =>
      obtain ⟨members, hmembers, -⟩ := exists_members_inclusion g p.name n x
      cases hmembers.symm.trans hsource

theorem included_of_follows (h : g.Follows n t) : Included (Follow.inclusions g.first g.productions) n t := by
  have hmem {p : Production} {before after : List Symbol} {m : NonTerminal} (hp : p ∈ g.productions)
      (hsymbols : p.symbols = before ++ .nonterminal m :: after) :
      Follow.inclusion g.first p.name m after.head? ∈ Follow.inclusions g.first g.productions :=
    List.mem_flatMap.2 ⟨p, hp, mem_inclusionsOf.2 ⟨before, m, after, hsymbols, rfl⟩⟩
  induction h with
  | @next p before after m x t hp hsymbols hx =>
    obtain ⟨members, hmembers, hstarts⟩ := exists_members_inclusion g p.name m x
    exact .member (hmem hp hsymbols) hmembers ((hstarts t).2 hx)
  | last hp hsymbols _ ih => exact .step (hmem hp hsymbols) rfl ih

theorem mem_follow_iff :
    (∃ terminals, (g.follow g.first).get? n = some terminals ∧ t ∈ terminals) ↔ g.Follows n t := by
  have hincluded : Included (Follow.inclusions g.first g.productions) n t ↔ g.Follows n t :=
    ⟨follows_of_included, included_of_follows⟩
  rw [follow, TerminalSets.mem_get?_ofSolution_solve, hincluded]
  exact and_iff_right_of_imp Follows.mem_nonTerminals

end Grammar

end CanonicalLR
