import CanonicalLR.Proofs.Automaton.Collection
import CanonicalLR.Proofs.Automaton.ViablePrefix
import CanonicalLR.Proofs.Grammar.Follow
import CanonicalLR.Proofs.Parser.LeftBehind

/-!
# Lookaheads and FOLLOW

The lookahead of an item is the end of input, or it is in the FOLLOW set of the item's nonterminal, provided that no FIRST set is empty: then the lookahead of an expanding item is never taken for want of a better one, and the remaining ways in which an expansion comes by a lookahead are the two rules of FOLLOW (`Places.follows`). The end of input is a lookahead only of what can end the sentential forms of the root. So a reduction stands under the end of input or under a terminal of the FOLLOW set, and never elsewhere.
-/

namespace CanonicalLR

namespace Grammar

variable {g : Grammar} {path : List Symbol} {i j : Item}

theorem FirstInhabited.followersStart (h : g.FirstInhabited) : g.FollowersStart :=
  fun _ hp _ _ _ _ hx => h.exists_starts hp (List.mem_of_getElem? hx)

/-- What an item lets start has the item's own lookahead, if the item's production ends there, or a lookahead that can follow. -/
theorem FirstInhabited.follows_of_expansion (h : g.FirstInhabited) (hi : i.production ∈ g.productions)
    (hj : j ∈ i.expansion g g.first)
    (hlookahead : i.lookahead = .endMarker ∨ g.Follows i.production.name i.lookahead) :
    j.lookahead = .endMarker ∨ g.Follows j.production.name j.lookahead := by
  obtain ⟨n, p, t, hcurrent, hof, ht, rfl⟩ := Item.mem_expansion.1 hj
  obtain ⟨-, rfl⟩ := mem_productionsOf.1 hof
  have hsymbols := Item.symbols_eq hcurrent
  have hfollowing := i.following?_eq
  cases hlater : i.later with
  | nil =>
    rw [hlater] at hsymbols hfollowing
    rw [Item.expansionLookaheads_of_last hfollowing, List.mem_singleton] at ht
    subst ht
    exact hlookahead.imp_right fun hfollows => .last hi hsymbols hfollows
  | cons x rest =>
    rw [hlater] at hsymbols hfollowing
    have hstarts := h.exists_starts hi (List.mem_of_getElem? hfollowing)
    exact .inr (.next hi hsymbols ((Item.mem_expansionLookaheads_iff_starts hstarts hfollowing).1 ht))

theorem Places.follows (hfirst : g.FirstInhabited) (h : g.Places path i) :
    i.lookahead = .endMarker ∨ g.Follows i.production.name i.lookahead := by
  induction h with
  | start => exact .inl rfl
  | advance _ hj ih =>
    obtain ⟨-, rfl⟩ := Item.advance?_eq_some_iff.1 hj
    exact ih
  | expand hi hj ih => exact hfirst.follows_of_expansion hi.mem_productions hj ih

end Grammar

namespace Table

variable {g : Grammar} {source : String}

/-- Every lookahead in the automaton is the end of input or in a FOLLOW set, reductions stand under no other terminals, and the end of input is a lookahead only of what the root can end in. -/
theorem lookaheads_follow (hg : Grammar.ofSource source = .ok g) (hfirst : g.FirstInhabited) :
    (∀ state s, (Automaton.ofGrammar g).itemSet? state = some s → ∀ i ∈ s,
      (i.lookahead = .endMarker ∨
        ∃ terminals, (g.follow g.first).get? i.production.name = some terminals ∧ i.lookahead ∈ terminals) ∧
      (i.lookahead = .endMarker → ∃ before,
        g.Derives [.nonterminal .root] (before ++ [.nonterminal i.production.name]))) ∧
    ∀ policy t, ofGrammar policy g = .ok t → ∀ state x name count, t.action? state x = some (.reduce name count) →
      x = .endMarker ∨ ∃ terminals, (g.follow g.first).get? name = some terminals ∧ x ∈ terminals := by
  have hwell := Grammar.wellFormed_of_ofSource hg
  simp only [Grammar.mem_follow_iff]
  have hplaces {state : Nat} {s : ItemSet} (hs : (Automaton.ofGrammar g).itemSet? state = some s) {i : Item}
      (hi : i ∈ s) : ∃ path, g.Places path i := by
    obtain ⟨path, hwalk⟩ := Automaton.exists_walk?_of_itemSet? hs
    exact ⟨path, (Automaton.mem_itemSet_iff hwalk hs).1 hi⟩
  constructor
  · intro state s hs i hi
    obtain ⟨path, hpath⟩ := hplaces hs hi
    refine ⟨hpath.follows hfirst, fun hend => ?_⟩
    obtain ⟨before, -, hderives⟩ := hpath.derives_of_endMarker hwell hfirst.followersStart hend
    exact ⟨before, hderives⟩
  · intro policy t ht state x name count h
    obtain ⟨s, i, hs, hi, ⟨-, _, -, hentry⟩ | ⟨-, rfl, hentry⟩⟩ := exists_item_of_action? ht h
    · cases hentry
    · obtain ⟨path, hpath⟩ := hplaces hs hi
      rw [Item.completion_eq] at hentry
      split at hentry
      · cases hentry
      · injection hentry with hname
        exact hname ▸ hpath.follows hfirst

/-- Lists of `x` with `c` in between: behind the first `x` a reduction stands under `c`, which can follow a list. -/
theorem lookaheads_follow_list : ∃ g s t,
    Grammar.ofSource "__root : @l ; l : @l c x ; l : x ;" = .ok g ∧ g.FirstInhabited
      ∧ (Automaton.ofGrammar g).itemSet? 0 = some s ∧ ofGrammar .reject g = .ok t
      ∧ ⟨⟨⟨"l"⟩, [.terminal ⟨"x"⟩]⟩, 0, .endMarker⟩ ∈ s
      ∧ (∃ before, g.Derives [.nonterminal .root] (before ++ [.nonterminal ⟨"l"⟩]))
      ∧ t.action? 1 ⟨"c"⟩ = some (.reduce ⟨"l"⟩ 1)
      ∧ ∃ terminals, (g.follow g.first).get? ⟨"l"⟩ = some terminals ∧ ⟨"c"⟩ ∈ terminals := by
  obtain ⟨g, t, hg, ht, hproductions, hfirst, haction⟩ := exists_table_of_within .reject 20
    "__root : @l ; l : @l c x ; l : x ;"
    (P := fun g t => g.productions = [⟨.root, [.nonterminal ⟨"l"⟩]⟩,
        ⟨⟨"l"⟩, [.nonterminal ⟨"l"⟩, .terminal ⟨"c"⟩, .terminal ⟨"x"⟩]⟩, ⟨⟨"l"⟩, [.terminal ⟨"x"⟩]⟩]
      ∧ g.FirstInhabited ∧ t.action? 1 ⟨"c"⟩ = some (.reduce ⟨"l"⟩ 1))
    (by decide +kernel)
  have hroot : ⟨.root, [.nonterminal ⟨"l"⟩]⟩ = g.root := g.root_unique _ (by simp [hproductions]) rfl
  have hx : ⟨⟨"l"⟩, [.terminal ⟨"x"⟩]⟩ ∈ g.productionsOf ⟨"l"⟩ :=
    Grammar.mem_productionsOf.2 ⟨by simp [hproductions], rfl⟩
  have hitem : g.Places [] ⟨⟨⟨"l"⟩, [.terminal ⟨"x"⟩]⟩, 0, .endMarker⟩ :=
    .expand .start (Item.mem_expansion.2 ⟨⟨"l"⟩, _, .endMarker, by rw [← hroot]; rfl, hx, by
      rw [← hroot]; exact List.mem_singleton_self _, rfl⟩)
  obtain ⟨state, s, hwalk, hs, hmem⟩ := Automaton.exists_itemSet_of_places hitem
  obtain rfl := Option.some.inj hwalk
  obtain ⟨hitems, hreductions⟩ := lookaheads_follow hg hfirst
  exact ⟨g, s, t, hg, hfirst, hs, ht, hmem, (hitems 0 s hs _ hmem).2 rfl, haction,
    (hreductions .reject t ht 1 _ _ _ haction).resolve_left (by decide)⟩

end Table

end CanonicalLR
