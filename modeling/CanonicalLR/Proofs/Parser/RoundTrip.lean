import CanonicalLR.Proofs.Parser.LeftBehind

/-!
# When the leaves are the input

The leaves of an accepted tree are the input exactly when nothing is left behind below the root's children, and for tables without conflicts this holds on every input exactly when the grammar lets nothing but the empty path be left behind. What an accepted input is worth otherwise is decided by the path: for a table without conflicts the input is a sentence exactly when the root derives the path with the root behind it. Both properties can fail only where a production refers to the root.
-/

namespace CanonicalLR

/-- The symbols below the children of an accepted tree. -/
def Run.leftBehind (r : Run) (tree : Tree) : List Symbol :=
  stackSymbols (r.last.stack.drop tree.children.length)

theorem Run.leftBehind_eq {r : Run} {tree : Tree} {below : List Tree}
    (h : stackTrees r.last.stack = below ++ tree.children) : r.leftBehind tree = below.map Tree.symbol := by
  rw [leftBehind, ← map_symbol_stackTrees, (topTrees_of_stackTrees h rfl).1]

namespace Table

variable {policy : ConflictPolicy} {g columns : Grammar} {t : Table} {tokens : List Token} {tree : Tree}
  {source : String}

theorem exists_accepted_of_leftBehind (hg : g.WellFormed) (ht : build policy (.ofGrammar g) columns = .ok t)
    (hconflicts : t.conflicts = []) {path : List Symbol} (h : g.LeftBehind path) : ∃ tokens tree below,
      (t.parse tokens).outcome = some (.accepted tree)
        ∧ stackTrees (t.parse tokens).last.stack = below ++ tree.children ∧ below.map Tree.symbol = path := by
  obtain ⟨below, rfl, hbelow⟩ := Grammar.exists_trees_of_generates h.generates
  obtain ⟨u, hsymbol, hu⟩ := h.root_generates.exists_tree
  obtain ⟨left, children, hunfolds, -, -⟩ := (Grammar.isDerivation_iff.2 ⟨hsymbol, hu⟩).exists_unfolds
  have hadmits : ∀ v ∈ below ++ children, g.Admits v := by
    intro v hv
    rcases List.mem_append.1 hv with hv | hv
    · exact hbelow v hv
    · exact hunfolds.admits v (List.mem_append_right _ hv)
  have hpath := (Grammar.Places.complete h.starts).endMarker_not_mem hg
  rw [← hunfolds.symbols, ← List.map_append] at hpath
  have hkinds : ∀ token ∈ (below ++ children).flatMap Tree.leaves, token.kind ≠ "" := by
    intro token htoken
    obtain ⟨v, hv, htoken⟩ := List.mem_flatMap.1 htoken
    exact (hadmits v hv).kind_ne_empty hg (fun heq => hpath (heq ▸ List.mem_map_of_mem hv)) token htoken
  have hleaves : untilEnd ((below ++ children).flatMap Tree.leaves ++ []) = (below ++ children).flatMap Tree.leaves :=
    untilEnd_append hkinds rfl
  obtain ⟨houtcome, hlast⟩ := parse_of_rootStartsBehind hg ht hconflicts h.starts hunfolds.symbols hadmits
    hunfolds.ends hleaves.symm
  exact ⟨_, _, below, houtcome, hlast, rfl⟩

/-- A sentence is accepted with the innermost root of its derivation tree. -/
theorem exists_accepted_of_isDerivation (hg : g.WellFormed) (ht : build policy (.ofGrammar g) columns = .ok t)
    (hconflicts : t.conflicts = []) {u : Tree} (hu : g.IsDerivation u) (hleaves : u.leaves = untilEnd tokens) :
    ∃ left children, (t.parse tokens).outcome = some (.accepted (.node .root children))
      ∧ stackTrees (t.parse tokens).last.stack = left ++ children
      ∧ g.Derives [.nonterminal .root] (left.map Tree.symbol ++ [.nonterminal .root]) := by
  obtain ⟨left, children, hunfolds, hstarts, hderives⟩ := hu.exists_unfolds
  obtain ⟨houtcome, hlast⟩ := parse_of_rootStartsBehind hg ht hconflicts hstarts hunfolds.symbols hunfolds.admits
    hunfolds.ends (hunfolds.leaves.trans hleaves)
  exact ⟨left, children, houtcome, hlast, hderives⟩

theorem derives_iff_of_accepted (hg : g.WellFormed) (ht : build policy (.ofGrammar g) columns = .ok t)
    (hconflicts : t.conflicts = []) (h : (t.parse tokens).outcome = some (.accepted tree)) :
    g.Derives [.nonterminal .root] ((untilEnd tokens).map Token.symbol)
      ↔ g.Derives [.nonterminal .root] ((t.parse tokens).leftBehind tree ++ [.nonterminal .root]) := by
  constructor
  · intro hderives
    obtain ⟨u, hu, hleaves⟩ := Grammar.derives_root_iff.1 hderives
    obtain ⟨left, children, houtcome, hlast, hleft⟩ :=
      exists_accepted_of_isDerivation hg ht hconflicts hu hleaves
    injection Option.some.inj (houtcome.symm.trans h) with htree
    subst htree
    rw [Run.leftBehind_eq hlast]
    exact hleft
  · intro hderives
    obtain ⟨below, hlast, hacceptance⟩ := acceptance_of_parse hg ht h
    rw [Run.leftBehind_eq hlast] at hderives
    exact hacceptance.derives hderives

theorem leaves_eq_iff_of_accepted (hg : g.WellFormed) (ht : build policy (.ofGrammar g) columns = .ok t)
    (h : (t.parse tokens).outcome = some (.accepted tree)) :
    tree.leaves = untilEnd tokens ↔ (t.parse tokens).leftBehind tree = [] := by
  obtain ⟨below, hlast, hacceptance⟩ := acceptance_of_parse hg ht h
  rw [Run.leftBehind_eq hlast, List.map_eq_nil_iff]
  constructor
  · intro hleaves
    have hnil : below.flatMap Tree.leaves = [] := by
      have happend := hacceptance.leaves
      rw [← hleaves] at happend
      exact List.append_left_eq_self.1 happend
    cases below with
    | nil => rfl
    | cons u rest =>
      have hu := hacceptance.admits u List.mem_cons_self
      rw [List.flatMap_cons] at hnil
      exact absurd (List.append_eq_nil_iff.1 hnil).1 (hu.leaves_ne_nil hg)
  · intro hbelow
    subst hbelow
    exact hacceptance.leaves_eq

/-- The leaves of an accepted tree are the input exactly when nothing was left behind. -/
theorem round_trip_iff (hg : Grammar.ofSource source = .ok g) (ht : ofGrammar policy g = .ok t) :
    (∀ tokens tree, (t.parse tokens).outcome = some (.accepted tree) →
      (tree.leaves = untilEnd tokens ↔ (t.parse tokens).leftBehind tree = [])) ∧
    ((∀ path, g.LeftBehind path → path = []) → ∀ tokens tree,
      (t.parse tokens).outcome = some (.accepted tree) → tree.leaves = untilEnd tokens) ∧
    (t.conflicts = [] → (∀ tokens tree, (t.parse tokens).outcome = some (.accepted tree) →
      tree.leaves = untilEnd tokens) → ∀ path, g.LeftBehind path → path = []) ∧
    (g.RootUnreferenced → ∀ path, g.LeftBehind path → path = []) := by
  have hwell := Grammar.wellFormed_of_ofSource hg
  refine ⟨fun tokens tree h => leaves_eq_iff_of_accepted hwell ht h, ?_, ?_, ?_⟩
  · intro hleft tokens tree h
    obtain ⟨below, hlast, hacceptance⟩ := acceptance_of_parse hwell ht h
    rw [leaves_eq_iff_of_accepted hwell ht h, Run.leftBehind_eq hlast]
    exact hleft _ hacceptance.leftBehind
  · intro hconflicts hleaves path hpath
    obtain ⟨tokens, tree, below, houtcome, hlast, rfl⟩ := exists_accepted_of_leftBehind hwell ht hconflicts hpath
    rw [← Run.leftBehind_eq hlast]
    exact (leaves_eq_iff_of_accepted hwell ht houtcome).1 (hleaves tokens tree houtcome)
  · intro hroot path hpath
    exact hroot.eq_nil hpath.starts

/-- The productions of a grammar in which the root stands behind `x`. -/
def recursiveProductions : List Production :=
  [⟨.root, [.nonterminal ⟨"a"⟩]⟩, ⟨⟨"a"⟩, [.terminal ⟨"x"⟩, .nonterminal .root]⟩, ⟨⟨"a"⟩, [.terminal ⟨"y"⟩]⟩]

/-- The parser stops at the inner root. -/
theorem exists_recursive_table : ∃ g t, Grammar.ofSource "__root : @a ; a : x @__root ; a : y ;" = .ok g
    ∧ ofGrammar .reject g = .ok t
    ∧ g.productions = recursiveProductions
    ∧ (t.parse [.plain "x", .plain "y"]).outcome = some (.accepted (.node .root [.node ⟨"a"⟩ [.leaf (.plain "y")]]))
    ∧ (t.parse [.plain "x", .plain "y"]).leftBehind (.node .root [.node ⟨"a"⟩ [.leaf (.plain "y")]])
      = [.terminal ⟨"x"⟩] :=
  exists_table_of_within .reject 20 "__root : @a ; a : x @__root ; a : y ;" (by decide +kernel)

theorem round_trip_iff_of_recursive : ∃ g t tree,
    Grammar.ofSource "__root : @a ; a : x @__root ; a : y ;" = .ok g ∧ ofGrammar .reject g = .ok t
      ∧ (t.parse [.plain "x", .plain "y"]).outcome = some (.accepted tree)
      ∧ ¬ tree.leaves = untilEnd [.plain "x", .plain "y"] := by
  obtain ⟨g, t, hg, ht, -, houtcome, hleft⟩ := exists_recursive_table
  refine ⟨g, t, _, hg, ht, houtcome, ?_⟩
  rw [(round_trip_iff hg ht).1 _ _ houtcome, hleft]
  exact List.cons_ne_nil _ _

/-- Where a production refers to the root, the leaves of an accepted tree need not be the input. -/
theorem exists_accepted_of_recursive : ¬ ∀ (source : String) (policy : ConflictPolicy) (g : Grammar) (t : Table)
    (tokens : List Token) (tree : Tree), Grammar.ofSource source = .ok g → ofGrammar policy g = .ok t →
    (t.parse tokens).outcome = some (.accepted tree) → tree.leaves = untilEnd tokens := by
  intro h
  obtain ⟨g, t, hg, ht, -, houtcome, hleft⟩ := exists_recursive_table
  have hleaves := h _ _ g t _ _ hg ht houtcome
  rw [leaves_eq_iff_of_accepted (Grammar.wellFormed_of_ofSource hg) ht houtcome, hleft] at hleaves
  exact List.cons_ne_nil _ _ hleaves

/-- An accepted input is a sentence as far as the root derives what was left behind, with the root behind it. -/
theorem sentence_iff (hg : Grammar.ofSource source = .ok g) (ht : ofGrammar policy g = .ok t) :
    (∀ tokens tree, (t.parse tokens).outcome = some (.accepted tree) →
      g.Derives [.nonterminal .root] ((t.parse tokens).leftBehind tree ++ [.nonterminal .root]) →
      g.Derives [.nonterminal .root] ((untilEnd tokens).map Token.symbol)) ∧
    (t.conflicts = [] → ∀ tokens tree, (t.parse tokens).outcome = some (.accepted tree) →
      (g.Derives [.nonterminal .root] ((untilEnd tokens).map Token.symbol) ↔
        g.Derives [.nonterminal .root] ((t.parse tokens).leftBehind tree ++ [.nonterminal .root]))) ∧
    ((∀ path, g.LeftBehind path → g.Derives [.nonterminal .root] (path ++ [.nonterminal .root])) →
      ∀ tokens tree, (t.parse tokens).outcome = some (.accepted tree) →
        g.Derives [.nonterminal .root] ((untilEnd tokens).map Token.symbol)) ∧
    (t.conflicts = [] → (∀ tokens tree, (t.parse tokens).outcome = some (.accepted tree) →
        g.Derives [.nonterminal .root] ((untilEnd tokens).map Token.symbol)) →
      ∀ path, g.LeftBehind path → g.Derives [.nonterminal .root] (path ++ [.nonterminal .root])) ∧
    (g.RootUnreferenced ∨ g.FollowersStart →
      ∀ path, g.LeftBehind path → g.Derives [.nonterminal .root] (path ++ [.nonterminal .root])) := by
  have hwell := Grammar.wellFormed_of_ofSource hg
  refine ⟨?_, fun hconflicts tokens tree h => derives_iff_of_accepted hwell ht hconflicts h, ?_, ?_, ?_⟩
  · intro tokens tree h hderives
    obtain ⟨below, hlast, hacceptance⟩ := acceptance_of_parse hwell ht h
    rw [Run.leftBehind_eq hlast] at hderives
    exact hacceptance.derives hderives
  · intro hleft tokens tree h
    obtain ⟨below, -, hacceptance⟩ := acceptance_of_parse hwell ht h
    exact hacceptance.derives (hleft _ hacceptance.leftBehind)
  · intro hconflicts hsentence path hpath
    obtain ⟨tokens, tree, below, houtcome, hlast, rfl⟩ := exists_accepted_of_leftBehind hwell ht hconflicts hpath
    rw [← Run.leftBehind_eq hlast]
    exact (derives_iff_of_accepted hwell ht hconflicts houtcome).1 (hsentence tokens tree houtcome)
  · intro hgrammar path hpath
    rcases hgrammar with hroot | hfollowers
    · rw [hroot.eq_nil hpath.starts]
      exact .refl
    · exact hpath.starts.derives hwell hfollowers

theorem sentence_iff_of_recursive : ∃ g t tree,
    Grammar.ofSource "__root : @a ; a : x @__root ; a : y ;" = .ok g ∧ ofGrammar .reject g = .ok t
      ∧ (t.parse [.plain "x", .plain "y"]).outcome = some (.accepted tree)
      ∧ (t.parse [.plain "x", .plain "y"]).leftBehind tree = [.terminal ⟨"x"⟩]
      ∧ g.Derives [.nonterminal .root] [.terminal ⟨"x"⟩, .terminal ⟨"y"⟩] := by
  obtain ⟨g, t, hg, ht, hproductions, houtcome, hleft⟩ := exists_recursive_table
  refine ⟨g, t, _, hg, ht, houtcome, hleft, (sentence_iff hg ht).1 _ _ houtcome ?_⟩
  rw [hleft]
  -- the root derives `@a`, and `@a` derives what was left behind with the root behind it
  have hroot : (⟨.root, [.nonterminal ⟨"a"⟩]⟩ : Production) ∈ g.productions := by
    simp [hproductions, recursiveProductions]
  have hbehind : (⟨⟨"a"⟩, [.terminal ⟨"x"⟩, .nonterminal .root]⟩ : Production) ∈ g.productions := by
    simp [hproductions, recursiveProductions]
  exact (Grammar.derives_symbols hroot).trans (Grammar.derives_symbols hbehind)

/-- The productions of a grammar in which `m` derives no tokens. -/
def starvedProductions : List Production :=
  [⟨.root, [.nonterminal ⟨"a"⟩]⟩, ⟨⟨"a"⟩, [.terminal ⟨"x"⟩, .nonterminal .root, .nonterminal ⟨"m"⟩]⟩,
    ⟨⟨"a"⟩, [.terminal ⟨"y"⟩]⟩, ⟨⟨"m"⟩, [.nonterminal ⟨"m"⟩, .nonterminal ⟨"m"⟩]⟩]

/-- With nothing known to stand first in `m`, the root behind `x` seems to end the input. -/
theorem exists_starved_table : ∃ g t,
    Grammar.ofSource "__root : @a ; a : x @__root @m ; a : y ; m : @m @m ;" = .ok g ∧ ofGrammar .reject g = .ok t
    ∧ g.productions = starvedProductions
    ∧ (t.parse [.plain "x", .plain "y"]).outcome
      = some (.accepted (.node .root [.node ⟨"a"⟩ [.leaf (.plain "y")]])) :=
  exists_table_of_within .reject 20 "__root : @a ; a : x @__root @m ; a : y ; m : @m @m ;" (by decide +kernel)

/-- A tree in that grammar has one leaf, since none has the symbol `m`. -/
theorem length_leaves_of_starved {u : Tree} (hg : g.productions = starvedProductions) (hu : g.Admits u) :
    u.symbol ≠ .nonterminal ⟨"m"⟩ ∧ u.leaves.length = 1 := by
  induction hu with
  | leaf token =>
    rw [Tree.leaves_leaf]
    exact ⟨Symbol.noConfusion, rfl⟩
  | @node name kids hp _ ih =>
    have hnone : Symbol.nonterminal ⟨"m"⟩ ∉ kids.map Tree.symbol := by
      intro hmem
      obtain ⟨c, hc, hsymbol⟩ := List.mem_map.1 hmem
      exact (ih c hc).1 hsymbol
    have hone (x : Symbol) (hkids : kids.map Tree.symbol = [x]) : (Tree.node name kids).leaves.length = 1 := by
      obtain ⟨c, rfl, -⟩ := List.map_eq_singleton_iff.1 hkids
      rw [Tree.leaves_node, List.flatMap_singleton]
      exact (ih c (List.mem_singleton_self c)).2
    rw [hg, starvedProductions] at hp
    simp only [List.mem_cons, List.not_mem_nil, or_false, Production.mk.injEq] at hp
    rcases hp with ⟨rfl, hkids⟩ | ⟨-, hkids⟩ | ⟨rfl, hkids⟩ | ⟨-, hkids⟩
    · exact ⟨by simp [Tree.symbol, NonTerminal.root], hone _ hkids⟩
    · rw [hkids] at hnone
      simp at hnone
    · exact ⟨by simp [Tree.symbol], hone _ hkids⟩
    · rw [hkids] at hnone
      simp at hnone

/-- Where nothing stands first in a symbol, what is accepted need not be a sentence. -/
theorem exists_accepted_of_starved : ¬ ∀ (source : String) (policy : ConflictPolicy) (g : Grammar) (t : Table)
    (tokens : List Token) (tree : Tree), Grammar.ofSource source = .ok g → ofGrammar policy g = .ok t →
    (t.parse tokens).outcome = some (.accepted tree) →
    g.Derives [.nonterminal .root] ((untilEnd tokens).map Token.symbol) := by
  intro h
  obtain ⟨g, t, hg, ht, hproductions, houtcome⟩ := exists_starved_table
  obtain ⟨u, hu, hleaves⟩ := Grammar.derives_root_iff.1 (h _ _ g t _ _ hg ht houtcome)
  have hlength := (length_leaves_of_starved hproductions (Grammar.isDerivation_iff.1 hu).2).2
  rw [hleaves] at hlength
  exact absurd hlength (by decide)

end Table

end CanonicalLR
