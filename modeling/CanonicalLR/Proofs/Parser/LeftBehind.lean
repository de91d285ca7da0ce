import CanonicalLR.Proofs.Parser.Completeness

/-!
# Trees left behind

Acceptance does not look below the root's children. Where productions refer to the root it can leave trees behind there, and the accepted tree then has not all of the input for its leaves. Which symbols can be left behind is a matter of the grammar (`Grammar.LeftBehind`): no other ones ever are, and a table without conflicts leaves behind each of these paths on some input. Whether the input is a sentence all the same depends on whether the root derives the path with the root behind it. It does where every symbol behind a nonterminal starts with some terminal; where one does not, the lookahead of an item falls back on one that cannot follow, and the end of input is taken for granted in the middle of a phrase.
-/

namespace CanonicalLR

open Relation

namespace Grammar

variable {g : Grammar} {path : List Symbol} {i : Item}

/-! ### Symbols that are left behind -/

/-- The root's children can be accepted with the path below them. -/
structure LeftBehind (g : Grammar) (path : List Symbol) : Prop where
  starts : g.RootStartsBehind path
  generates : ∀ x ∈ path, g.Generates x
  root_generates : g.Generates (.nonterminal .root)

theorem Acceptance.leftBehind {tokens : List Token} {below : List Tree} {tree : Tree}
    (h : g.Acceptance tokens below tree) : g.LeftBehind (below.map Tree.symbol) where
  starts := h.starts
  generates := by
    intro x hx
    obtain ⟨u, hu, rfl⟩ := List.mem_map.1 hx
    exact (h.admits u hu).generates
  root_generates := by
    obtain ⟨hsymbol, hadmits⟩ := isDerivation_iff.1 h.derivation
    exact hsymbol ▸ hadmits.generates

/-- What is left behind and accepted is a sentence if the root derives the path with the root behind it. -/
theorem Acceptance.derives {tokens : List Token} {below : List Tree} {tree : Tree}
    (h : g.Acceptance tokens below tree)
    (hderives : g.Derives [.nonterminal .root] (below.map Tree.symbol ++ [.nonterminal .root])) :
    g.Derives [.nonterminal .root] ((Table.untilEnd tokens).map Token.symbol) := by
  obtain ⟨hsymbol, hadmits⟩ := isDerivation_iff.1 h.derivation
  rw [← h.leaves, List.map_append]
  exact hderives.trans ((Admits.derives_all h.admits).append (hsymbol ▸ hadmits.derives))

/-! ### The lookahead of an item -/

theorem Places.endMarker_not_mem (hg : g.WellFormed) (h : g.Places path i) :
    Symbol.terminal .endMarker ∉ path := by
  induction h with
  | start => exact List.not_mem_nil
  | advance hi hj ih =>
    obtain ⟨hcurrent, -⟩ := Item.advance?_eq_some_iff.1 hj
    rw [List.mem_append, List.mem_singleton, not_or]
    refine ⟨ih, fun heq => ?_⟩
    exact (hg _ hi.mem_productions).endMarker_not_mem (heq ▸ List.mem_of_getElem? hcurrent)
  | expand _ _ ih => exact ih

/-- Behind a nonterminal there is no symbol in which nothing stands first. -/
def FollowersStart (g : Grammar) : Prop := ∀ p ∈ g.productions, ∀ (place : Nat) (n : NonTerminal) (x : Symbol),
  p.symbols[place]? = some (.nonterminal n) → p.symbols[place + 1]? = some x → ∃ t, g.Starts x t

/-- Where the end of input may follow a production, the production ends what the root derives. -/
theorem Places.derives_of_endMarker (hg : g.WellFormed) (hfollowers : g.FollowersStart) (h : g.Places path i)
    (hend : i.lookahead = .endMarker) : ∃ before, path = before ++ i.production.symbols.take i.dot
      ∧ g.Derives [.nonterminal .root] (before ++ [.nonterminal i.production.name]) := by
  induction h with
  | start =>
    refine ⟨[], rfl, ?_⟩
    rw [Item.initial, g.root_name]
    exact .refl
  | @advance path i j x _ hj ih =>
    obtain ⟨hcurrent, rfl⟩ := Item.advance?_eq_some_iff.1 hj
    obtain ⟨before, rfl, hderives⟩ := ih hend
    refine ⟨before, ?_, hderives⟩
    have hsymbol : i.production.symbols[i.dot]? = some x := hcurrent
    rw [List.take_add_one, hsymbol, List.append_assoc]
    rfl
  | @expand path i j hi hj ih =>
    obtain ⟨n, p, s, hcurrent, hp, hs, rfl⟩ := Item.mem_expansion.1 hj
    obtain ⟨-, hname⟩ := mem_productionsOf.1 hp
    obtain rfl : s = .endMarker := hend
    have hsymbol : i.production.symbols[i.dot]? = some (.nonterminal n) := hcurrent
    refine ⟨path, by simp [Item.initial], ?_⟩
    cases hfollowing : i.following? with
    | none =>
      rw [Item.expansionLookaheads_of_last hfollowing, List.mem_singleton] at hs
      obtain ⟨before, hpath, hderives⟩ := ih hs.symm
      have hsymbols : i.production.symbols = i.production.symbols.take i.dot ++ [.nonterminal n] := by
        have hall : i.production.symbols.take (i.dot + 1) = i.production.symbols :=
          List.take_of_length_le (List.getElem?_eq_none_iff.1 hfollowing)
        rw [List.take_add_one, hsymbol] at hall
        exact hall.symm
      have hproduction := (derives_symbols hi.mem_productions).within before []
      rw [List.append_nil, List.append_nil, hsymbols, ← List.append_assoc, ← hpath] at hproduction
      rw [Item.initial, hname]
      exact hderives.trans hproduction
    | some x =>
      obtain ⟨t, ht⟩ := hfollowers _ hi.mem_productions i.dot n x hsymbol hfollowing
      rcases (Item.mem_expansionLookaheads_iff hfollowing).1 hs with hstarts | ⟨hnone, -⟩
      · refine absurd rfl (hstarts.ne_endMarker hg fun heq => ?_)
        exact (hg _ hi.mem_productions).endMarker_not_mem (heq ▸ List.mem_of_getElem? hfollowing)
      · exact absurd ht (hnone t)

theorem RootStartsBehind.derives (hg : g.WellFormed) (hfollowers : g.FollowersStart)
    (h : g.RootStartsBehind path) : g.Derives [.nonterminal .root] (path ++ [.nonterminal .root]) := by
  obtain ⟨before, hpath, hderives⟩ := Places.derives_of_endMarker hg hfollowers h rfl
  rw [Item.initial, List.take_zero, List.append_nil] at hpath
  rw [hpath, ← g.root_name]
  exact g.root_name ▸ hderives

/-! ### The innermost root -/

/-- A tree that ends in the root, unfolded along its right edge down to the children of the last node of the root. -/
structure Unfolds (g : Grammar) (u : Tree) (left children : List Tree) : Prop where
  admits : ∀ v ∈ left ++ children, g.Admits v
  symbols : children.map Tree.symbol = g.root.symbols
  ends : ¬ Tree.EndInRoot children
  leaves : (left ++ children).flatMap Tree.leaves = u.leaves
  derives : g.Derives [u.symbol] (left.map Tree.symbol ++ [.nonterminal .root])
  starts : ∀ name kids path, u = .node name kids →
    g.Places path (.initial ⟨name, kids.map Tree.symbol⟩ .endMarker) →
    g.RootStartsBehind (path ++ left.map Tree.symbol)

theorem Places.expand_last {name m : NonTerminal} {front kids : List Tree} {t : Terminal}
    (h : g.Places path (.initial ⟨name, (front ++ [Tree.node m kids]).map Tree.symbol⟩ t))
    (hkids : ⟨m, kids.map Tree.symbol⟩ ∈ g.productions) :
    g.Places (path ++ front.map Tree.symbol) (.initial ⟨m, kids.map Tree.symbol⟩ t) := by
  have hle : front.length ≤ Production.size ⟨name, (front ++ [Tree.node m kids]).map Tree.symbol⟩ := by
    simp [Production.size]
  have hadvanced := h.advance_by hle
  have htake : ((front ++ [Tree.node m kids]).map Tree.symbol).take front.length = front.map Tree.symbol := by
    rw [List.map_append]
    exact List.take_left' (List.length_map _)
  rw [htake] at hadvanced
  refine hadvanced.expand (Item.mem_expansion.2 ⟨m, _, t, ?_, mem_productionsOf.2 ⟨hkids, rfl⟩, ?_, rfl⟩)
  · simp [Item.current?, Tree.symbol]
  · rw [Item.expansionLookaheads_of_last (by simp [Item.following?])]
    exact List.mem_singleton_self t

theorem Admits.exists_unfolds {u : Tree} (hu : g.Admits u) (hends : u.EndsInRoot) :
    ∃ left children, g.Unfolds u left children := by
  induction hu with
  | leaf token => cases hends
  | @node name kids hp hkids ih =>
    by_cases hlast : Tree.EndInRoot kids
    · obtain ⟨c, hc, hcends⟩ := hlast
      obtain ⟨front, rfl⟩ := List.getLast?_eq_some_iff.1 hc
      obtain ⟨left, children, hunfolds⟩ := ih c (by simp) hcends
      refine ⟨front ++ left, children, ?_, hunfolds.symbols, hunfolds.ends, ?_, ?_, ?_⟩
      · intro v hv
        rw [List.append_assoc] at hv
        rcases List.mem_append.1 hv with hv | hv
        · exact hkids v (List.mem_append_left _ hv)
        · exact hunfolds.admits v hv
      · rw [List.append_assoc, List.flatMap_append, hunfolds.leaves]
        simp
      · have hproduction := derives_symbols hp
        have hinner := hunfolds.derives.within (front.map Tree.symbol) []
        rw [List.append_nil, List.append_nil] at hinner
        rw [List.map_append, List.append_assoc]
        apply hproduction.trans
        rw [List.map_append]
        exact hinner
      · intro name' kids' path hnode hstart
        injection hnode with hname hkids'
        subst hname hkids'
        rw [List.map_append, ← List.append_assoc]
        cases hkids c (by simp) with
        | leaf token => cases hcends
        | node hchild _ => exact hunfolds.starts _ _ _ rfl (hstart.expand_last hchild)
    · obtain rfl : name = .root := (Tree.endsInRoot_node_iff.1 hends).resolve_right hlast
      have hsymbols := eq_root_symbols hp
      refine ⟨[], kids, hkids, hsymbols, hlast, by simp, .refl, ?_⟩
      intro name' kids' path hnode hstart
      injection hnode with hname hkids'
      subst hname hkids'
      rw [hsymbols, ← root_eq] at hstart
      rw [List.map_nil, List.append_nil]
      exact hstart

theorem IsDerivation.exists_unfolds {u : Tree} (hu : g.IsDerivation u) : ∃ left children,
    g.Unfolds u left children ∧ g.RootStartsBehind (left.map Tree.symbol)
      ∧ g.Derives [.nonterminal .root] (left.map Tree.symbol ++ [.nonterminal .root]) := by
  obtain ⟨hsymbol, hadmits⟩ := isDerivation_iff.1 hu
  obtain ⟨kids, rfl, hsymbols, -⟩ := hu
  obtain ⟨left, children, hunfolds⟩ := hadmits.exists_unfolds (.here kids)
  refine ⟨left, children, hunfolds, ?_, hunfolds.derives⟩
  have hstart : g.Places [] (.initial ⟨.root, kids.map Tree.symbol⟩ .endMarker) := by
    rw [hsymbols, ← root_eq]
    exact .start
  exact hunfolds.starts _ _ _ rfl hstart

end Grammar

end CanonicalLR
