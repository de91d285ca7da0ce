import CanonicalLR.Proofs.Parser.Moves
import CanonicalLR.Proofs.Table.Evaluation

/-!
# Accepted trees

Acceptance takes the children of the root off the stack and does not look below them. What lies there is left behind: a row of admitted trees whose symbols are a path behind which the root's production starts with the end of input for its lookahead (`Grammar.Acceptance`). The accepted tree is a derivation tree whatever the policy, and its leaves are the end of the input. They are the whole input as soon as no production refers to the root, since the root's production starts then behind the empty path only.
-/

namespace CanonicalLR

namespace Grammar

/-- Behind the path the root's production starts, and the input may end behind it. -/
def RootStartsBehind (g : Grammar) (path : List Symbol) : Prop := g.Places path (.initial g.root .endMarker)

theorem rootStartsBehind_nil (g : Grammar) : g.RootStartsBehind [] := .start

theorem RootUnreferenced.eq_nil {g : Grammar} (hg : g.RootUnreferenced) {path : List Symbol}
    (h : g.RootStartsBehind path) : path = [] :=
  h.path_eq_of_root hg g.root_name

/-- A derivation tree for the end of an input, with the trees that were left behind below it. -/
structure Acceptance (g : Grammar) (tokens : List Token) (below : List Tree) (tree : Tree) : Prop where
  derivation : g.IsDerivation tree
  admits : ∀ u ∈ below, g.Admits u
  starts : g.RootStartsBehind (below.map Tree.symbol)
  leaves : below.flatMap Tree.leaves ++ tree.leaves = Table.untilEnd tokens

theorem Acceptance.leaves_eq {g : Grammar} {tokens : List Token} {tree : Tree}
    (h : g.Acceptance tokens [] tree) : tree.leaves = Table.untilEnd tokens := by
  rw [← h.leaves, List.flatMap_nil, List.nil_append]

end Grammar

namespace Table

variable {policy : ConflictPolicy} {g columns : Grammar} {t : Table} {tokens : List Token} {tree : Tree}
  {source : String}

theorem acceptance_of_step {c : Configuration} (ht : build policy (.ofGrammar g) columns = .ok t)
    (hc : c.Sound g tokens) (h : t.step c = .halt (.accepted tree)) :
    ∃ below, stackTrees c.stack = below ++ tree.children ∧ g.Acceptance tokens below tree := by
  obtain ⟨hend, hplaces, rfl⟩ := step_accepted ht hc.supports h
  obtain ⟨hchildren, -, hbelow⟩ := children_of_final hplaces
  have hsplit := stackTrees_eq_append c.stack g.root.size
  have hadmits : ∀ u ∈ stackTrees (c.stack.drop g.root.size) ++ topTrees c.stack g.root.size, g.Admits u := by
    rw [← hsplit]
    exact hc.admits
  have hleaves := hc.leaves
  rw [untilEnd_eq_nil_iff.2 hend, List.append_nil, hsplit, List.flatMap_append] at hleaves
  refine ⟨stackTrees (c.stack.drop g.root.size), hsplit, ⟨?_, ?_, ?_, ?_⟩⟩
  · exact ⟨_, rfl, hchildren, fun u hu => hadmits u (List.mem_append_right _ hu)⟩
  · exact fun u hu => hadmits u (List.mem_append_left _ hu)
  · rw [map_symbol_stackTrees]
    exact hbelow
  · rw [Tree.leaves_node]
    exact hleaves

theorem acceptance_of_parse (hg : g.WellFormed) (ht : build policy (.ofGrammar g) columns = .ok t)
    (h : (t.parse tokens).outcome = some (.accepted tree)) :
    ∃ below, stackTrees (t.parse tokens).last.stack = below ++ tree.children
      ∧ g.Acceptance tokens below tree := by
  have hsound := sound_of_reaches hg ht (reaches_run t (t.stepBound tokens) (.start tokens))
  exact acceptance_of_step ht hsound (step_of_run h)

/-- An accepted tree is a derivation tree for the end of the input, and for all of it where nothing refers to the root. -/
theorem derivation_of_accepted (hg : Grammar.ofSource source = .ok g) (ht : ofGrammar policy g = .ok t)
    (h : (t.parse tokens).outcome = some (.accepted tree)) :
    (∃ children, tree = .node .root children ∧ children.map Tree.symbol = g.root.symbols) ∧ g.Admits tree
      ∧ tree.leaves <:+ untilEnd tokens ∧ (g.RootUnreferenced → tree.leaves = untilEnd tokens) := by
  have hwell := Grammar.wellFormed_of_ofSource hg
  obtain ⟨below, -, hacceptance⟩ := acceptance_of_parse hwell ht h
  obtain ⟨children, htree, hsymbols, -⟩ := hacceptance.derivation
  refine ⟨⟨children, htree, hsymbols⟩, (Grammar.isDerivation_iff.1 hacceptance.derivation).2, ?_, ?_⟩
  · exact ⟨_, hacceptance.leaves⟩
  · intro hroot
    obtain rfl : below = [] := List.map_eq_nil_iff.1 (hroot.eq_nil hacceptance.starts)
    exact hacceptance.leaves_eq

theorem derivation_of_accepted_sum : ∃ g t tree,
    Grammar.ofSource "__root : @sum ; sum : @sum plus @sum ; sum : id ;" = .ok g
      ∧ ofGrammar .overwrite g = .ok t ∧ t.conflicts ≠ []
      ∧ (t.parse [.plain "id", .plain "plus", .plain "id"]).outcome = some (.accepted tree)
      ∧ g.Admits tree ∧ tree.leaves = [.plain "id", .plain "plus", .plain "id"] := by
  let sum : NonTerminal := ⟨"sum"⟩
  let tree : Tree := .node .root [.node sum
    [.node sum [.leaf (.plain "id")], .leaf (.plain "plus"), .node sum [.leaf (.plain "id")]]]
  obtain ⟨g, t, hg, ht, hroot, hconflicts, houtcome⟩ := exists_table_of_within .overwrite 20
    "__root : @sum ; sum : @sum plus @sum ; sum : id ;"
    (P := fun g t => g.RootUnreferenced ∧ t.conflicts ≠ []
      ∧ (t.parse [.plain "id", .plain "plus", .plain "id"]).outcome = some (.accepted tree))
    (by decide +kernel)
  obtain ⟨-, hadmits, -, hleaves⟩ := derivation_of_accepted hg ht houtcome
  exact ⟨g, t, tree, hg, ht, hconflicts, houtcome, hadmits, hleaves hroot⟩

end Table

end CanonicalLR
