import CanonicalLR.Proofs.Parser.Acceptance
import CanonicalLR.Proofs.Parser.Termination

/-!
# What a table without conflicts accepts

Trees whose symbols are a path come to stand on the stack when their leaves are read, provided that the next terminal is permitted by an item behind the path (`reaches_of_places`). The induction takes the last tree apart: a token was shifted, a node was reduced when its children stood in its place. Only the end of input can keep a node from being reduced, when the node is the root's, for the parser accepts there. So the derivation trees of a grammar that never refers to its root are accepted as they are, and with soundness this decides what is accepted at all.
-/

namespace CanonicalLR

open Relation

/-! ### Trees that end in the root -/

namespace Tree

/-- The tree is a node of the root, or its last child ends in one. -/
inductive EndsInRoot : Tree → Prop where
  | here (children : List Tree) : EndsInRoot (.node .root children)
  | last {name : NonTerminal} {children : List Tree} {c : Tree} : children.getLast? = some c →
    EndsInRoot c → EndsInRoot (.node name children)

/-- The last of the trees ends in the root. -/
def EndInRoot (ts : List Tree) : Prop := ∃ c, ts.getLast? = some c ∧ c.EndsInRoot

theorem endsInRoot_node_iff {name : NonTerminal} {children : List Tree} :
    (node name children).EndsInRoot ↔ name = .root ∨ EndInRoot children := by
  constructor
  · intro h
    cases h with
    | here => exact .inl rfl
    | last hlast hends => exact .inr ⟨_, hlast, hends⟩
  · intro h
    rcases h with rfl | ⟨c, hlast, hends⟩
    · exact .here children
    · exact .last hlast hends

theorem endInRoot_concat_iff {ts : List Tree} {t : Tree} : EndInRoot (ts ++ [t]) ↔ t.EndsInRoot := by
  simp [EndInRoot]

theorem endInRoot_append_iff {ts us : List Tree} (hus : us ≠ []) : EndInRoot (ts ++ us) ↔ EndInRoot us := by
  rw [EndInRoot, EndInRoot, List.getLast?_append_of_ne_nil _ hus]

end Tree

namespace Grammar

variable {g : Grammar} {path : List Symbol} {i : Item} {x : Symbol} {t : Terminal}

/-! ### The next terminal -/

/-- The terminal can come next where the item stands. -/
def Permits (g : Grammar) (i : Item) (t : Terminal) : Prop :=
  match i.current? with
  | some x => g.Starts x t
  | none => t = i.lookahead

theorem permits_final (p : Production) (t : Terminal) : g.Permits (.final p t) t := by
  rw [Permits, Item.current?_final]
  rfl

theorem Permits.of_expansion (hg : g.WellFormed) {j : Item} (hj : j ∈ i.expansion g g.first)
    (h : g.Permits j t) : g.Permits i t := by
  obtain ⟨n, p, s, hcurrent, hof, -, rfl⟩ := Item.mem_expansion.1 hj
  obtain ⟨hp, rfl⟩ := mem_productionsOf.1 hof
  obtain ⟨y, hy⟩ : ∃ y, p.symbols.head? = some y := by
    cases hsymbols : p.symbols with
    | nil => exact absurd hsymbols (hg p hp).symbols_ne_nil
    | cons y rest => exact ⟨y, rfl⟩
  have hfirst : (Item.initial p s).current? = some y := by
    rw [← hy, List.head?_eq_getElem?]
    rfl
  rw [Permits, hfirst] at h
  rw [Permits, hcurrent]
  exact .production hp hy h

/-- What may come behind the last symbol of a path may follow that symbol. -/
theorem Places.exists_expecting (hg : g.WellFormed) (h : g.Places (path ++ [x]) i) (ht : g.Permits i t) :
    ∃ j, g.Places path j ∧ j.current? = some x ∧ t ∈ j.expansionLookaheads g.first := by
  generalize hfull : path ++ [x] = full at h
  induction h with
  | start => simp at hfull
  | @advance path' j i y hj hadvance _ =>
    obtain ⟨rfl, hxy⟩ := List.append_inj' hfull rfl
    obtain rfl := List.singleton_inj.1 hxy
    obtain ⟨hcurrent, rfl⟩ := Item.advance?_eq_some_iff.1 hadvance
    refine ⟨j, hj, hcurrent, ?_⟩
    rw [Permits, Item.current?_advanced] at ht
    cases hfollowing : j.following? with
    | none =>
      rw [hfollowing] at ht
      rw [Item.expansionLookaheads_of_last hfollowing]
      exact List.mem_singleton.2 ht
    | some y =>
      rw [hfollowing] at ht
      exact Item.mem_expansionLookaheads_of_starts hfollowing ht
  | expand _ hj ih => exact ih (ht.of_expansion hg hj) hfull

theorem RootUnreferenced.symbol_of_endsInRoot {g : Grammar} (hg : g.RootUnreferenced) {u : Tree}
    (hu : g.Admits u) (hends : u.EndsInRoot) : u.symbol = .nonterminal .root := by
  induction hends with
  | here children => rfl
  | @last name children c hlast _ ih =>
    cases hu with
    | node hp hchildren =>
      have hmem := List.mem_of_getLast? hlast
      have hsymbol := ih (hchildren c hmem)
      exact absurd (hsymbol ▸ List.mem_map_of_mem hmem) (hg _ hp)

theorem IsDerivation.untilEnd_leaves {g : Grammar} (hg : g.WellFormed) {u : Tree} (hu : g.IsDerivation u) :
    Table.untilEnd u.leaves = u.leaves := by
  obtain ⟨hsymbol, hadmits⟩ := isDerivation_iff.1 hu
  have hkinds := hadmits.kind_ne_empty hg (by rw [hsymbol]; exact Symbol.noConfusion)
  have happend : Table.untilEnd (u.leaves ++ []) = u.leaves := Table.untilEnd_append hkinds rfl
  rwa [List.append_nil] at happend

end Grammar

namespace Table

variable {policy : ConflictPolicy} {g columns : Grammar} {t : Table} {tokens : List Token} {tree : Tree}
  {source : String}

/-! ### Reading trees -/

theorem walk?_of_stackTrees {c : Configuration} (hc : c.Sound g tokens) :
    (Automaton.ofGrammar g).walk? ((stackTrees c.stack).map Tree.symbol) = some c.state := by
  rw [map_symbol_stackTrees]
  exact hc.supports.walk?

theorem moves_shift (ht : build policy (.ofGrammar g) columns = .ok t) (hconflicts : t.conflicts = [])
    {c : Configuration} (hc : c.Sound g tokens) {j : Item}
    (hj : g.Places ((stackTrees c.stack).map Tree.symbol) j) {token : Token} {more : List Token}
    (hcurrent : j.current? = some token.symbol) (hrest : c.rest = token :: more) :
    ∃ c', t.Moves c c' ∧ stackTrees c'.stack = stackTrees c.stack ++ [.leaf token] ∧ c'.rest = more := by
  obtain ⟨target, -, haction⟩ := shift_of_places ht hconflicts (walk?_of_stackTrees hc) hj hcurrent
  have hlookahead : c.lookahead = ⟨token.kind⟩ := by
    rw [Configuration.lookahead_eq, hrest, nextTerminal_cons]
  rw [← hlookahead] at haction
  refine ⟨_, moves_iff.2 (.inl ⟨target, token, more, haction, hrest, rfl⟩), ?_, rfl⟩
  rw [stackTrees_cons]

/-- The children of an expected nonterminal are reduced, unless the parser accepts. -/
theorem moves_reduce (ht : build policy (.ofGrammar g) columns = .ok t) (hconflicts : t.conflicts = [])
    {c : Configuration} (hc : c.Sound g tokens) {front children : List Tree} {name : NonTerminal}
    (htrees : stackTrees c.stack = front ++ children) {j : Item} (hj : g.Places (front.map Tree.symbol) j)
    (hcurrent : j.current? = some (.nonterminal name))
    (hfinal : g.Places ((front ++ children).map Tree.symbol)
      (.final ⟨name, children.map Tree.symbol⟩ c.lookahead))
    (hroot : c.lookahead = .endMarker → name ≠ .root) :
    ∃ c', t.Moves c c' ∧ stackTrees c'.stack = front ++ [.node name children] ∧ c'.rest = c.rest := by
  have haction := completion_of_places ht hconflicts (htrees ▸ walk?_of_stackTrees hc) hfinal
  rw [Item.completion_final, if_neg (not_and.2 hroot)] at haction
  have hsize : Production.size ⟨name, children.map Tree.symbol⟩ = children.length := List.length_map _
  rw [hsize] at haction
  obtain ⟨hbelow, htop⟩ := topTrees_of_stackTrees htrees rfl
  have hwalk : (Automaton.ofGrammar g).walk? (front.map Tree.symbol)
      = some (topState (c.stack.drop children.length)) := by
    rw [← hbelow, map_symbol_stackTrees]
    exact (hc.supports.drop _).walk?
  obtain ⟨target, hgoto⟩ := Automaton.exists_goto_of_places hwalk hj hcurrent
  rw [← goto?_eq ht] at hgoto
  have hcount : children.length ≤ c.stack.length := by
    rw [← length_stackTrees, htrees, List.length_append]
    omega
  refine ⟨_, moves_iff.2 (.inr ⟨name, children.length, target, haction, hcount, hgoto, rfl⟩), ?_, rfl⟩
  rw [stackTrees_cons, hbelow, htop]

/-- Trees are on the stack when their leaves have been read. -/
theorem reaches_of_places (hg : g.WellFormed) (ht : build policy (.ofGrammar g) columns = .ok t)
    (hconflicts : t.conflicts = []) {ts : List Tree} {i : Item} {more : List Token}
    (hts : ∀ u ∈ ts, g.Admits u) (hi : g.Places (ts.map Tree.symbol) i)
    (hnext : g.Permits i (nextTerminal more)) (hend : nextTerminal more = .endMarker → ¬ Tree.EndInRoot ts) :
    ∃ c, t.Reaches (.start (ts.flatMap Tree.leaves ++ more)) c ∧ stackTrees c.stack = ts ∧ c.rest = more := by
  induction hsize : Tree.sizeAll ts using Nat.strong_induction_on generalizing ts i more with | _ size ih
  rcases List.eq_nil_or_concat ts with rfl | ⟨front, last, rfl⟩
  · exact ⟨_, .refl, rfl, rfl⟩
  rw [List.concat_eq_append] at hts hi hend hsize ⊢
  rw [List.map_append] at hi
  rw [Tree.sizeAll_append, Tree.sizeAll, Tree.sizeAll, Nat.add_zero] at hsize
  obtain ⟨j, hj, hcurrent, hfollow⟩ := Grammar.Places.exists_expecting hg hi hnext
  have hfront : ∀ u ∈ front, g.Admits u := fun u hu => hts u (List.mem_append_left _ hu)
  have hlast : g.Admits last := hts last (by simp)
  cases hlast with
  | leaf token =>
    -- the token was shifted behind the trees before it
    have hkind : nextTerminal (token :: more) ≠ .endMarker := by
      intro hkind
      apply (hg _ hj.mem_productions).endMarker_not_mem
      rw [← hkind]
      exact List.mem_of_getElem? hcurrent
    have hpermits : g.Permits j (nextTerminal (token :: more)) := by
      rw [Grammar.Permits, hcurrent]
      exact .terminal _
    have hsmaller : Tree.sizeAll front < size := by
      rw [Tree.size] at hsize
      omega
    obtain ⟨c, hreaches, htrees, hrest⟩ :=
      ih _ hsmaller hfront hj hpermits (fun hmarker => absurd hmarker hkind) rfl
    obtain ⟨c', hmoves, htrees', hrest'⟩ :=
      moves_shift ht hconflicts (sound_of_reaches hg ht hreaches) (htrees ▸ hj) hcurrent hrest
    rw [List.flatMap_append, List.flatMap_singleton, Tree.leaves_leaf, List.append_assoc]
    exact ⟨c', hreaches.tail hmoves, by rw [htrees', htrees], hrest'⟩
  | @node name children hp hchildren =>
    -- the children stood in place of the node
    have hne : children ≠ [] := fun hnil => (hg _ hp).symbols_ne_nil (List.map_eq_nil_iff.2 hnil)
    have hroot : nextTerminal more = .endMarker → name ≠ .root ∧ ¬ Tree.EndInRoot children := by
      intro hmarker
      have hnot := hend hmarker
      rw [Tree.endInRoot_concat_iff, Tree.endsInRoot_node_iff, not_or] at hnot
      exact hnot
    have hstart := hj.expand (Item.mem_expansion.2
      ⟨name, _, _, hcurrent, Grammar.mem_productionsOf.2 ⟨hp, rfl⟩, hfollow, rfl⟩)
    have hfinal := hstart.complete
    rw [← List.map_append] at hfinal
    have hall : ∀ u ∈ front ++ children, g.Admits u := by
      intro u hu
      exact (List.mem_append.1 hu).elim (hfront u) (hchildren u)
    have hend' : nextTerminal more = .endMarker → ¬ Tree.EndInRoot (front ++ children) := by
      intro hmarker
      rw [Tree.endInRoot_append_iff hne]
      exact (hroot hmarker).2
    have hsmaller : Tree.sizeAll (front ++ children) < size := by
      rw [Tree.size] at hsize
      rw [Tree.sizeAll_append]
      omega
    obtain ⟨c, hreaches, htrees, hrest⟩ := ih _ hsmaller hall hfinal (Grammar.permits_final _ _) hend' rfl
    have hlookahead : c.lookahead = nextTerminal more := congrArg nextTerminal hrest
    rw [← hlookahead] at hfinal hroot
    obtain ⟨c', hmoves, htrees', hrest'⟩ := moves_reduce ht hconflicts (sound_of_reaches hg ht hreaches)
      htrees hj hcurrent hfinal fun hmarker => (hroot hmarker).1
    have hleaves : (front ++ children).flatMap Tree.leaves
        = (front ++ [Tree.node name children]).flatMap Tree.leaves := by
      simp
    rw [hleaves] at hreaches
    exact ⟨c', hreaches.tail hmoves, htrees', hrest'.trans hrest⟩

/-! ### Acceptance -/

/-- The root's children are accepted wherever its production may start before the end of input. -/
theorem parse_of_rootStartsBehind (hg : g.WellFormed) (ht : build policy (.ofGrammar g) columns = .ok t)
    (hconflicts : t.conflicts = []) {below children : List Tree}
    (hstart : g.RootStartsBehind (below.map Tree.symbol)) (hsymbols : children.map Tree.symbol = g.root.symbols)
    (hadmits : ∀ u ∈ below ++ children, g.Admits u) (hends : ¬ Tree.EndInRoot children)
    (hleaves : (below ++ children).flatMap Tree.leaves = untilEnd tokens) :
    (t.parse tokens).outcome = some (.accepted (.node .root children))
      ∧ stackTrees (t.parse tokens).last.stack = below ++ children := by
  have hfinal := Grammar.Places.complete hstart
  rw [← hsymbols, ← List.map_append] at hfinal
  have hne : children ≠ [] := by
    intro hnil
    rw [hnil] at hsymbols
    exact (hg _ g.root_mem).symbols_ne_nil hsymbols.symm
  obtain ⟨more, hmore, hmarker⟩ := exists_eq_untilEnd_append tokens
  have hnext : g.Permits (.final g.root .endMarker) (nextTerminal more) := by
    rw [hmarker]
    exact Grammar.permits_final _ _
  obtain ⟨c, hreaches, htrees, hrest⟩ := reaches_of_places hg ht hconflicts hadmits hfinal hnext fun _ => by
    rw [Tree.endInRoot_append_iff hne]
    exact hends
  rw [hleaves, ← hmore] at hreaches
  have hsound := sound_of_reaches hg ht hreaches
  have haction := completion_of_places ht hconflicts (htrees ▸ walk?_of_stackTrees hsound) hfinal
  rw [Item.completion_final, if_pos ⟨rfl, g.root_name⟩] at haction
  have hsize : children.length = g.root.size := by
    rw [Production.size, ← hsymbols, List.length_map]
  obtain ⟨-, htop⟩ := topTrees_of_stackTrees htrees hsize
  have hlookahead : c.lookahead = .endMarker := by
    rw [Configuration.lookahead_eq, hrest, hmarker]
  have hshort : ¬ isShort c.stack g.root.size = true := by
    rw [isShort_iff, ← length_stackTrees, htrees, List.length_append]
    omega
  have hhalt : t.step c = .halt (.accepted (.node .root children)) := by
    rw [step, hlookahead, haction]
    change c.accept g.root.size = _
    rw [Configuration.accept, if_neg hshort, htop]
  refine ⟨(outcome_parse_iff hg ht).2 ⟨c, hreaches, hhalt⟩, ?_⟩
  rw [last_parse hg ht hreaches hhalt, htrees]

theorem parse_of_isDerivation (hg : g.WellFormed) (ht : build policy (.ofGrammar g) columns = .ok t)
    (hconflicts : t.conflicts = []) (hroot : g.RootUnreferenced) (htree : g.IsDerivation tree)
    (hleaves : tree.leaves = untilEnd tokens) : (t.parse tokens).outcome = some (.accepted tree) := by
  obtain ⟨children, rfl, hsymbols, hadmits⟩ := htree
  have hends : ¬ Tree.EndInRoot children := by
    intro h
    obtain ⟨c, hlast, hc⟩ := h
    have hmem := List.mem_of_getLast? hlast
    have hsymbol := hroot.symbol_of_endsInRoot (hadmits c hmem) hc
    apply hroot _ g.root_mem
    rw [← hsymbols, ← hsymbol]
    exact List.mem_map_of_mem hmem
  rw [Tree.leaves_node] at hleaves
  have hstart : g.RootStartsBehind (([] : List Tree).map Tree.symbol) := g.rootStartsBehind_nil
  exact (parse_of_rootStartsBehind hg ht hconflicts hstart hsymbols hadmits hends hleaves).1

theorem isDerivation_of_parse (hg : g.WellFormed) (ht : build policy (.ofGrammar g) columns = .ok t)
    (hroot : g.RootUnreferenced) (h : (t.parse tokens).outcome = some (.accepted tree)) :
    g.IsDerivation tree ∧ tree.leaves = untilEnd tokens := by
  obtain ⟨below, -, hacceptance⟩ := acceptance_of_parse hg ht h
  obtain rfl : below = [] := List.map_eq_nil_iff.1 (hroot.eq_nil hacceptance.starts)
  exact ⟨hacceptance.derivation, hacceptance.leaves_eq⟩

/-- Where nothing refers to the root, a table without conflicts accepts the sentences, each with its one derivation tree. -/
theorem accepted_iff_isDerivation (hg : Grammar.ofSource source = .ok g) (ht : ofGrammar policy g = .ok t)
    (hroot : g.RootUnreferenced) (hconflicts : t.conflicts = []) :
    (∀ tokens tree, (t.parse tokens).outcome = some (.accepted tree)
      ↔ g.IsDerivation tree ∧ tree.leaves = untilEnd tokens) ∧
    (∀ tokens, (∃ tree, (t.parse tokens).outcome = some (.accepted tree))
      ↔ g.Derives [.nonterminal .root] ((untilEnd tokens).map Token.symbol)) ∧
    ∀ tree tree', g.IsDerivation tree → g.IsDerivation tree' → tree.leaves = tree'.leaves → tree = tree' := by
  have hwell := Grammar.wellFormed_of_ofSource hg
  have haccepted (tokens : List Token) (tree : Tree) : (t.parse tokens).outcome = some (.accepted tree)
      ↔ g.IsDerivation tree ∧ tree.leaves = untilEnd tokens := by
    constructor
    · exact isDerivation_of_parse hwell ht hroot
    · intro h
      exact parse_of_isDerivation hwell ht hconflicts hroot h.1 h.2
  refine ⟨haccepted, fun tokens => ?_, fun tree tree' htree htree' hleaves => ?_⟩
  · rw [Grammar.derives_root_iff]
    exact exists_congr (haccepted tokens)
  · have hparse := (haccepted tree.leaves tree).2 ⟨htree, (htree.untilEnd_leaves hwell).symm⟩
    have hparse' := (haccepted tree.leaves tree').2 ⟨htree', hleaves ▸ (htree.untilEnd_leaves hwell).symm⟩
    injection Option.some.inj (hparse.symm.trans hparse')

theorem accepted_iff_isDerivation_list : ∃ g t tree,
    Grammar.ofSource "__root : @list ; list : @list comma id ; list : id ;" = .ok g
      ∧ ofGrammar .reject g = .ok t ∧ g.RootUnreferenced ∧ t.conflicts = []
      ∧ g.IsDerivation tree ∧ tree.leaves = [.plain "id", .plain "comma", .plain "id"]
      ∧ ∀ tree', g.IsDerivation tree' → tree.leaves = tree'.leaves → tree = tree' := by
  let list : NonTerminal := ⟨"list"⟩
  let tree : Tree := .node .root [.node list
    [.node list [.leaf (.plain "id")], .leaf (.plain "comma"), .leaf (.plain "id")]]
  obtain ⟨g, t, hg, ht, hroot, hconflicts, houtcome⟩ := exists_table_of_within .reject 20
    "__root : @list ; list : @list comma id ; list : id ;"
    (P := fun g t => g.RootUnreferenced ∧ t.conflicts = []
      ∧ (t.parse [.plain "id", .plain "comma", .plain "id"]).outcome = some (.accepted tree))
    (by decide +kernel)
  obtain ⟨haccepted, -, hunique⟩ := accepted_iff_isDerivation hg ht hroot hconflicts
  obtain ⟨htree, hleaves⟩ := (haccepted _ tree).1 houtcome
  exact ⟨g, t, tree, hg, ht, hroot, hconflicts, htree, hleaves, fun tree' => hunique tree tree' htree⟩

end Table

end CanonicalLR
