import CanonicalLR.Proofs.Grammar.WellFormed
import CanonicalLR.Tree
import Mathlib.Logic.Relation

/-!
# Derivations and derivation trees

Two readings of what a grammar generates. `Derives` rewrites lists of symbols, one nonterminal at a time and in any order. `Admits` says of a tree that each of its nodes, read with the symbols of its children, is a production. The two agree: an admitted tree derives its leaves from its symbol (`Admits.derives`), and every derivation of tokens is read off a row of admitted trees (`exists_trees_of_derives`). A sentence is what the root derives, a derivation tree is an admitted tree of the root.
-/

namespace CanonicalLR

open Relation

/-- The symbol that a token counts as. -/
def Token.symbol (token : Token) : Symbol := .terminal ⟨token.kind⟩

namespace Tree

def symbol : Tree → Symbol
  | leaf token => token.symbol
  | node name _ => .nonterminal name

theorem leavesOf_append (ts us : List Tree) : leavesOf (ts ++ us) = leavesOf ts ++ leavesOf us := by
  fun_induction leavesOf ts with
  | case1 => rfl
  | case2 token rest ih => rw [List.cons_append, leavesOf, ih, List.cons_append]
  | case3 name children rest ih => rw [List.cons_append, leavesOf, ← List.append_assoc, ih]

theorem leavesOf_eq_flatMap (ts : List Tree) : leavesOf ts = ts.flatMap leaves := by
  induction ts with
  | nil => rw [leavesOf, List.flatMap_nil]
  | cons t rest ih => rw [List.flatMap_cons, ← ih, leaves, ← leavesOf_append, List.singleton_append]

@[simp] theorem leaves_leaf (token : Token) : (leaf token).leaves = [token] := by
  rw [leaves, leavesOf, leavesOf]

@[simp] theorem leaves_node (name : NonTerminal) (children : List Tree) :
    (node name children).leaves = children.flatMap leaves := by
  rw [leaves, leavesOf, List.append_nil, leavesOf_eq_flatMap]

end Tree

namespace Grammar

/-! ### Rewriting -/

/-- One nonterminal gives way to the symbols of one of its productions. -/
inductive Rewrites (g : Grammar) : List Symbol → List Symbol → Prop where
  | apply (before after : List Symbol) {p : Production} : p ∈ g.productions →
    Rewrites g (before ++ .nonterminal p.name :: after) (before ++ p.symbols ++ after)

/-- Any number of rewritings. -/
def Derives (g : Grammar) : List Symbol → List Symbol → Prop := ReflTransGen g.Rewrites

variable {g : Grammar}

theorem Rewrites.within {xs ys : List Symbol} (h : g.Rewrites xs ys) (before after : List Symbol) :
    g.Rewrites (before ++ xs ++ after) (before ++ ys ++ after) := by
  obtain ⟨left, right, hp⟩ := h
  simpa only [List.append_assoc, List.cons_append] using Rewrites.apply (before ++ left) (right ++ after) hp

theorem Derives.within {xs ys : List Symbol} (h : g.Derives xs ys) (before after : List Symbol) :
    g.Derives (before ++ xs ++ after) (before ++ ys ++ after) := by
  induction h with
  | refl => exact .refl
  | tail _ hstep ih => exact ih.tail (hstep.within before after)

theorem Derives.append {xs xs' ys ys' : List Symbol} (hxs : g.Derives xs xs') (hys : g.Derives ys ys') :
    g.Derives (xs ++ ys) (xs' ++ ys') := by
  have hleft : g.Derives (xs ++ ys) (xs' ++ ys) := by simpa using hxs.within [] ys
  have hright : g.Derives (xs' ++ ys) (xs' ++ ys') := by simpa using hys.within xs' []
  exact hleft.trans hright

theorem derives_symbols {p : Production} (hp : p ∈ g.productions) :
    g.Derives [.nonterminal p.name] p.symbols := by
  have hstep : g.Rewrites [.nonterminal p.name] ([] ++ p.symbols ++ []) := .apply [] [] hp
  rw [List.nil_append, List.append_nil] at hstep
  exact .single hstep

theorem Derives.mem_cases {xs ys : List Symbol} (h : g.Derives xs ys) {y : Symbol} (hy : y ∈ ys) :
    y ∈ xs ∨ ∃ p ∈ g.productions, y ∈ p.symbols := by
  induction h generalizing y with
  | refl => exact .inl hy
  | tail _ hstep ih =>
    obtain ⟨before, after, hp⟩ := hstep
    rcases List.mem_append.1 hy with hy | hy
    · rcases List.mem_append.1 hy with hy | hy
      · exact ih (List.mem_append_left _ hy)
      · exact .inr ⟨_, hp, hy⟩
    · exact ih (List.mem_append_right _ (List.mem_cons_of_mem _ hy))

/-! ### Trees -/

/-- Every node, read with the symbols of its children, is a production. -/
inductive Admits (g : Grammar) : Tree → Prop where
  | leaf (token : Token) : Admits g (.leaf token)
  | node {name : NonTerminal} {children : List Tree} : ⟨name, children.map Tree.symbol⟩ ∈ g.productions →
    (∀ c ∈ children, Admits g c) → Admits g (.node name children)

/-- An admitted tree of the root. -/
def IsDerivation (g : Grammar) (t : Tree) : Prop :=
  ∃ children, t = .node .root children ∧ children.map Tree.symbol = g.root.symbols
    ∧ ∀ c ∈ children, g.Admits c

theorem root_eq : g.root = ⟨.root, g.root.symbols⟩ := by
  rw [← g.root_name]

theorem eq_root_symbols {symbols : List Symbol} (h : ⟨.root, symbols⟩ ∈ g.productions) :
    symbols = g.root.symbols :=
  congrArg Production.symbols (g.root_unique _ h rfl)

theorem isDerivation_iff {t : Tree} :
    g.IsDerivation t ↔ t.symbol = .nonterminal .root ∧ g.Admits t := by
  constructor
  · intro h
    obtain ⟨children, rfl, hsymbols, hchildren⟩ := h
    refine ⟨rfl, .node ?_ hchildren⟩
    rw [hsymbols, ← root_eq]
    exact g.root_mem
  · intro h
    obtain ⟨hsymbol, hadmits⟩ := h
    cases hadmits with
    | leaf token => simp [Tree.symbol, Token.symbol] at hsymbol
    | node hp hchildren =>
      obtain rfl := Symbol.nonterminal.inj hsymbol
      exact ⟨_, rfl, eq_root_symbols hp, hchildren⟩

theorem derives_of_trees {ts : List Tree}
    (h : ∀ t ∈ ts, g.Derives [t.symbol] (t.leaves.map Token.symbol)) :
    g.Derives (ts.map Tree.symbol) ((ts.flatMap Tree.leaves).map Token.symbol) := by
  induction ts with
  | nil => exact .refl
  | cons t rest ih =>
    have ht := h t List.mem_cons_self
    have hrest := ih fun u hu => h u (List.mem_cons_of_mem _ hu)
    rw [List.flatMap_cons, List.map_append]
    exact ht.append hrest

theorem Admits.derives {t : Tree} (h : g.Admits t) : g.Derives [t.symbol] (t.leaves.map Token.symbol) := by
  induction h with
  | leaf token =>
    rw [Tree.leaves_leaf]
    exact .refl
  | node hp _ ih =>
    rw [Tree.leaves_node]
    exact (derives_symbols hp).trans (derives_of_trees ih)

theorem Admits.derives_all {ts : List Tree} (h : ∀ t ∈ ts, g.Admits t) :
    g.Derives (ts.map Tree.symbol) ((ts.flatMap Tree.leaves).map Token.symbol) :=
  derives_of_trees fun t ht => (h t ht).derives

theorem exists_trees_of_rewrites {xs ys : List Symbol} (h : g.Rewrites xs ys) {ts : List Tree}
    (hsymbols : ts.map Tree.symbol = ys) (hts : ∀ t ∈ ts, g.Admits t) :
    ∃ us : List Tree, us.map Tree.symbol = xs ∧ (∀ u ∈ us, g.Admits u)
      ∧ us.flatMap Tree.leaves = ts.flatMap Tree.leaves := by
  obtain ⟨before, after, hp⟩ := h
  rename_i p
  obtain ⟨front, right, rfl, hfront, hright⟩ := List.map_eq_append_iff.1 hsymbols
  obtain ⟨left, children, rfl, hleft, hchildren⟩ := List.map_eq_append_iff.1 hfront
  refine ⟨left ++ .node p.name children :: right, ?_, ?_, ?_⟩
  · rw [List.map_append, List.map_cons, hleft, hright]
    rfl
  · intro u hu
    rcases List.mem_append.1 hu with hu | hu
    · exact hts u (by simp [hu])
    · rcases List.mem_cons.1 hu with rfl | hu
      · refine .node ?_ fun c hc => hts c (by simp [hc])
        rw [hchildren]
        exact hp
      · exact hts u (by simp [hu])
  · simp

/-- Every derivation of tokens is read off a row of trees. -/
theorem exists_trees_of_derives {xs : List Symbol} {tokens : List Token}
    (h : g.Derives xs (tokens.map Token.symbol)) :
    ∃ ts : List Tree, ts.map Tree.symbol = xs ∧ (∀ t ∈ ts, g.Admits t)
      ∧ ts.flatMap Tree.leaves = tokens := by
  induction h using ReflTransGen.head_induction_on with
  | refl =>
    refine ⟨tokens.map Tree.leaf, ?_, ?_, ?_⟩
    · rw [List.map_map]
      rfl
    · intro t ht
      obtain ⟨token, -, rfl⟩ := List.mem_map.1 ht
      exact .leaf token
    · simp [List.flatMap_map]
  | head hstep _ ih =>
    obtain ⟨ts, hsymbols, hts, hleaves⟩ := ih
    obtain ⟨us, husymbols, hus, huleaves⟩ := exists_trees_of_rewrites hstep hsymbols hts
    exact ⟨us, husymbols, hus, huleaves.trans hleaves⟩

theorem derives_root_iff {tokens : List Token} :
    g.Derives [.nonterminal .root] (tokens.map Token.symbol) ↔
      ∃ t, g.IsDerivation t ∧ t.leaves = tokens := by
  constructor
  · intro h
    obtain ⟨ts, hsymbols, hts, hleaves⟩ := exists_trees_of_derives h
    obtain ⟨t, rest, rfl, hsymbol, hrest⟩ := List.map_eq_cons_iff.1 hsymbols
    obtain rfl := List.map_eq_nil_iff.1 hrest
    refine ⟨t, isDerivation_iff.2 ⟨hsymbol, hts t (List.mem_singleton_self t)⟩, ?_⟩
    simpa using hleaves
  · intro h
    obtain ⟨t, ht, rfl⟩ := h
    obtain ⟨hsymbol, hadmits⟩ := isDerivation_iff.1 ht
    rw [← hsymbol]
    exact hadmits.derives

/-! ### Leaves of trees -/

/-- No production is empty, so no tree is. -/
theorem Admits.leaves_ne_nil (hg : g.WellFormed) {t : Tree} (h : g.Admits t) : t.leaves ≠ [] := by
  induction h with
  | leaf token => simp
  | @node name children hp _ ih =>
    have hne := (hg _ hp).symbols_ne_nil
    cases children with
    | nil => exact absurd rfl hne
    | cons c rest =>
      rw [Tree.leaves_node, List.flatMap_cons]
      exact fun hnil => ih c List.mem_cons_self (List.append_eq_nil_iff.1 hnil).1

theorem Admits.kind_ne_empty (hg : g.WellFormed) {t : Tree} (h : g.Admits t)
    (hsymbol : t.symbol ≠ .terminal .endMarker) : ∀ token ∈ t.leaves, token.kind ≠ "" := by
  induction h with
  | leaf leaf =>
    intro token htoken
    rw [Tree.leaves_leaf, List.mem_singleton] at htoken
    subst htoken
    intro hkind
    apply hsymbol
    rw [Tree.symbol, Token.symbol, hkind]
    rfl
  | @node name children hp _ ih =>
    intro token htoken
    rw [Tree.leaves_node] at htoken
    obtain ⟨c, hc, htoken⟩ := List.mem_flatMap.1 htoken
    refine ih c hc (fun heq => ?_) token htoken
    exact (hg _ hp).endMarker_not_mem (heq ▸ List.mem_map_of_mem hc)

/-! ### Symbols that derive tokens -/

/-- The symbol derives some tokens. -/
def Generates (g : Grammar) (x : Symbol) : Prop := ∃ tokens : List Token, g.Derives [x] (tokens.map Token.symbol)

theorem Admits.generates {u : Tree} (hu : g.Admits u) : g.Generates u.symbol := ⟨u.leaves, hu.derives⟩

theorem Generates.exists_tree {x : Symbol} (h : g.Generates x) : ∃ u, u.symbol = x ∧ g.Admits u := by
  obtain ⟨tokens, htokens⟩ := h
  obtain ⟨us, hsymbols, hadmits, -⟩ := exists_trees_of_derives htokens
  obtain ⟨u, rest, rfl, hsymbol, -⟩ := List.map_eq_cons_iff.1 hsymbols
  exact ⟨u, hsymbol, hadmits u List.mem_cons_self⟩

theorem exists_trees_of_generates {xs : List Symbol} (h : ∀ x ∈ xs, g.Generates x) :
    ∃ us : List Tree, us.map Tree.symbol = xs ∧ ∀ u ∈ us, g.Admits u := by
  induction xs with
  | nil => exact ⟨[], rfl, fun u hu => by cases hu⟩
  | cons x rest ih =>
    obtain ⟨u, hsymbol, hu⟩ := (h x List.mem_cons_self).exists_tree
    obtain ⟨us, hsymbols, hus⟩ := ih fun y hy => h y (List.mem_cons_of_mem _ hy)
    refine ⟨u :: us, by rw [List.map_cons, hsymbol, hsymbols], fun v hv => ?_⟩
    rcases List.mem_cons.1 hv with rfl | hv
    · exact hu
    · exact hus v hv

/-! ### References to the root -/

/-- No production refers to the root. -/
def RootUnreferenced (g : Grammar) : Prop := ∀ p ∈ g.productions, Symbol.nonterminal .root ∉ p.symbols

instance (g : Grammar) : Decidable g.RootUnreferenced :=
  inferInstanceAs (Decidable (∀ p ∈ g.productions, Symbol.nonterminal .root ∉ p.symbols))

end Grammar

end CanonicalLR
