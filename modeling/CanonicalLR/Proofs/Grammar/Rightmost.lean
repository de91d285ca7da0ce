import CanonicalLR.Proofs.Grammar.First

/-!
# Rightmost derivations

A rightmost derivation rewrites the last nonterminal in every step, so behind the place where it goes on there are terminals only. Every derivation of tokens can be made one, because a row of trees can be unfolded from the last tree to the first (`derivesLast_of_trees`). In a productive grammar, where every nonterminal derives some tokens, nothing that stands first in a symbol is idle: the symbol derives tokens of which it is the first (`exists_derivesLast_of_leads`).
-/

namespace CanonicalLR

open Relation

/-- The terminal of which a token is one. -/
def Token.terminal (token : Token) : Terminal := ⟨token.kind⟩

theorem Token.map_symbol (tokens : List Token) :
    tokens.map Token.symbol = (tokens.map Token.terminal).map .terminal := by
  rw [List.map_map]
  rfl

theorem Token.exists_map_terminal (w : List Terminal) : ∃ tokens : List Token, tokens.map Token.terminal = w := by
  refine ⟨w.map fun t => ⟨t.name, t.name, none⟩, ?_⟩
  rw [List.map_map]
  exact List.map_id w

namespace Grammar

variable {g : Grammar} {xs ys : List Symbol}

/-- The last nonterminal gives way to the symbols of one of its productions. -/
inductive RewritesLast (g : Grammar) : List Symbol → List Symbol → Prop where
  | apply (before : List Symbol) (after : List Terminal) {p : Production} : p ∈ g.productions →
    RewritesLast g (before ++ .nonterminal p.name :: after.map .terminal)
      (before ++ p.symbols ++ after.map .terminal)

/-- Any number of rewritings of the last nonterminal. -/
def DerivesLast (g : Grammar) : List Symbol → List Symbol → Prop := ReflTransGen g.RewritesLast

theorem DerivesLast.derives (h : g.DerivesLast xs ys) : g.Derives xs ys := by
  refine ReflTransGen.mono (fun _ _ hstep => ?_) _ _ h
  obtain ⟨before, after, hp⟩ := hstep
  exact .apply before _ hp

theorem RewritesLast.within (h : g.RewritesLast xs ys) (before : List Symbol) (after : List Terminal) :
    g.RewritesLast (before ++ xs ++ after.map .terminal) (before ++ ys ++ after.map .terminal) := by
  obtain ⟨left, right, hp⟩ := h
  simpa only [List.map_append, List.append_assoc, List.cons_append] using
    RewritesLast.apply (before ++ left) (right ++ after) hp

theorem DerivesLast.within (h : g.DerivesLast xs ys) (before : List Symbol) (after : List Terminal) :
    g.DerivesLast (before ++ xs ++ after.map .terminal) (before ++ ys ++ after.map .terminal) := by
  induction h with
  | refl => exact .refl
  | tail _ hstep ih => exact ih.tail (hstep.within before after)

theorem derivesLast_symbols {p : Production} (hp : p ∈ g.productions) :
    g.DerivesLast [.nonterminal p.name] p.symbols := by
  have hstep : g.RewritesLast ([] ++ .nonterminal p.name :: ([] : List Terminal).map .terminal)
      ([] ++ p.symbols ++ ([] : List Terminal).map .terminal) := .apply [] [] hp
  rw [List.map_nil, List.append_nil, List.nil_append, List.nil_append] at hstep
  exact .single hstep

/-! ### Trees -/

/-- A row of trees is unfolded from the last tree to the first. -/
theorem derivesLast_of_trees {ts : List Tree}
    (h : ∀ t ∈ ts, g.DerivesLast [t.symbol] (t.leaves.map Token.symbol)) :
    g.DerivesLast (ts.map Tree.symbol) ((ts.flatMap Tree.leaves).map Token.symbol) := by
  induction ts with
  | nil => exact .refl
  | cons t rest ih =>
    have hrest := (ih fun u hu => h u (List.mem_cons_of_mem _ hu)).within [t.symbol] []
    have ht := (h t List.mem_cons_self).within [] ((rest.flatMap Tree.leaves).map Token.terminal)
    rw [List.map_nil, List.append_nil, List.append_nil] at hrest
    rw [← Token.map_symbol, List.nil_append, List.nil_append] at ht
    rw [List.flatMap_cons, List.map_append]
    exact hrest.trans ht

theorem Admits.derivesLast {t : Tree} (h : g.Admits t) :
    g.DerivesLast [t.symbol] (t.leaves.map Token.symbol) := by
  induction h with
  | leaf token =>
    rw [Tree.leaves_leaf]
    exact .refl
  | node hp _ ih =>
    rw [Tree.leaves_node]
    exact (derivesLast_symbols hp).trans (derivesLast_of_trees ih)

/-! ### Productive grammars -/

/-- Every nonterminal derives some tokens. -/
def Productive (g : Grammar) : Prop := ∀ n ∈ g.nonTerminals, g.Generates (.nonterminal n)

/-- What a row of symbols can start with; where there is no symbol, the input ends. -/
def Leads (g : Grammar) : List Symbol → Terminal → Prop
  | [], t => t = .endMarker
  | x :: _, t => g.Starts x t

theorem leads_map_terminal (w : List Terminal) {t : Terminal} :
    g.Leads (w.map .terminal) t ↔ t = w.headD .endMarker := by
  cases w with
  | nil => exact Iff.rfl
  | cons s rest => exact starts_terminal_iff

theorem Leads.of_symbols (hg : g.WellFormed) {p : Production} (hp : p ∈ g.productions) {t : Terminal}
    (h : g.Leads (p.symbols ++ ys) t) : g.Leads (.nonterminal p.name :: ys) t := by
  have hne := (hg p hp).symbols_ne_nil
  cases hsymbols : p.symbols with
  | nil => exact absurd hsymbols hne
  | cons x rest =>
    rw [hsymbols] at h
    exact .production hp (by rw [Production.firstSymbol?, hsymbols]; rfl) h

theorem generates_terminal (t : Terminal) : g.Generates (.terminal t) := by
  exact ⟨[⟨t.name, t.name, none⟩], .refl⟩

theorem generates_of_production {p : Production} (hp : p ∈ g.productions)
    (h : ∀ x ∈ p.symbols, g.Generates x) : g.Generates (.nonterminal p.name) := by
  obtain ⟨us, hsymbols, hus⟩ := exists_trees_of_generates h
  have hnode : g.Admits (.node p.name us) := .node (hsymbols.symm ▸ hp) hus
  exact hnode.generates

theorem Productive.generates (hproductive : g.Productive) {p : Production} (hp : p ∈ g.productions) :
    ∀ x ∈ p.symbols, g.Generates x := by
  intro x hx
  cases x with
  | terminal t => exact generates_terminal t
  | nonterminal n => exact hproductive n (mem_nonTerminals.2 (g.defined p hp n hx))

theorem Starts.exists_tree (hproductive : g.Productive) {x : Symbol} {t : Terminal} (h : g.Starts x t) :
    ∃ u, u.symbol = x ∧ g.Admits u ∧ ∃ token rest, u.leaves = token :: rest ∧ token.terminal = t := by
  induction h with
  | terminal t =>
    exact ⟨.leaf ⟨t.name, t.name, none⟩, rfl, .leaf _, _, [], Tree.leaves_leaf _, rfl⟩
  | @production p x t hp hfirst _ ih =>
    obtain ⟨u, hsymbol, hu, token, rest, hleaves, htoken⟩ := ih
    obtain ⟨more, hsymbols⟩ := List.head?_eq_some_iff.1 hfirst
    obtain ⟨us, hus, hadmits⟩ := exists_trees_of_generates fun y hy =>
      hproductive.generates hp y (hsymbols ▸ List.mem_cons_of_mem x hy)
    refine ⟨.node p.name (u :: us), rfl, .node ?_ ?_, token, rest ++ us.flatMap Tree.leaves, ?_, htoken⟩
    · rw [List.map_cons, hsymbol, hus, ← hsymbols]
      exact hp
    · intro v hv
      rcases List.mem_cons.1 hv with rfl | hv
      · exact hu
      · exact hadmits v hv
    · rw [Tree.leaves_node, List.flatMap_cons, hleaves, List.cons_append]

theorem Generates.exists_starts (hg : g.WellFormed) {x : Symbol} (h : g.Generates x) : ∃ t, g.Starts x t := by
  obtain ⟨u, rfl, hu⟩ := h.exists_tree
  obtain ⟨token, -, -, hstarts⟩ := hu.starts hg
  exact ⟨_, hstarts⟩

/-- Symbols before terminals derive terminals that begin as they are led. -/
theorem exists_derivesLast_of_leads (hproductive : g.Productive) (hxs : ∀ x ∈ xs, g.Generates x)
    (w : List Terminal) {t : Terminal} (h : g.Leads (xs ++ w.map .terminal) t) : ∃ w' : List Terminal,
      g.DerivesLast (xs ++ w.map .terminal) (w'.map .terminal) ∧ w'.headD .endMarker = t := by
  cases xs with
  | nil => exact ⟨w, .refl, ((leads_map_terminal w).1 h).symm⟩
  | cons x rest =>
    obtain ⟨u, rfl, hu, token, more, hleaves, rfl⟩ := Starts.exists_tree hproductive h
    obtain ⟨us, rfl, hus⟩ := exists_trees_of_generates fun y hy => hxs y (List.mem_cons_of_mem _ hy)
    have hall : ∀ v ∈ u :: us, g.Admits v := by
      intro v hv
      rcases List.mem_cons.1 hv with rfl | hv
      · exact hu
      · exact hus v hv
    have hderives := (derivesLast_of_trees fun v hv => (hall v hv).derivesLast).within [] w
    rw [Token.map_symbol, List.nil_append, List.nil_append, ← List.map_append] at hderives
    refine ⟨_, hderives, ?_⟩
    rw [List.flatMap_cons, hleaves]
    rfl

end Grammar

end CanonicalLR
