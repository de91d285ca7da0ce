import CanonicalLR.Proofs.Automaton.ViablePrefix
import CanonicalLR.Proofs.Parser.RoundTrip

/-!
# Beginnings of sentences

What may come behind some terminals is what comes next in the sentences that begin with them. Two things tie this to the items behind a path. In a productive grammar an item behind a path lets only such terminals come next, whatever terminals the path derives, because the rightmost derivation behind the item can be ended (`Places.awaits`). And when a sentence goes on with a token, the tokens before it can be made trees, the leftmost ones that a derivation tree of the sentence has, behind which some item expects that very token (`Sentence.expects`); here a derivation tree is cut along the way from its top to the token.
-/

namespace CanonicalLR

open Relation

namespace Grammar

variable {g : Grammar} {path : List Symbol} {i : Item} {w : List Terminal} {x : Terminal}

/-! ### Sentences -/

/-- The root derives the terminals. -/
def Sentence (g : Grammar) (w : List Terminal) : Prop := g.Derives [.nonterminal .root] (w.map .terminal)

/-- Some sentence begins with the terminals. -/
def Viable (g : Grammar) (w : List Terminal) : Prop := ∃ more, g.Sentence (w ++ more)

/-- Some sentence begins with the terminals and goes on with `x`; the end of input is what a sentence goes on with where it ends. -/
def Awaits (g : Grammar) (w : List Terminal) (x : Terminal) : Prop :=
  ∃ more, g.Sentence (w ++ more) ∧ more.headD .endMarker = x

theorem sentence_map_terminal {tokens : List Token} :
    g.Sentence (tokens.map Token.terminal) ↔ g.Derives [.nonterminal .root] (tokens.map Token.symbol) := by
  rw [Token.map_symbol]
  exact Iff.rfl

theorem Sentence.mem_terminals (h : g.Sentence w) (hx : x ∈ w) : x ∈ g.terminals := by
  rcases h.mem_cases (List.mem_map_of_mem hx) with hroot | hp
  · cases List.mem_singleton.1 hroot
  · exact Grammar.mem_terminals.2 hp

theorem Sentence.ne_endMarker (hg : g.WellFormed) (h : g.Sentence w) (hx : x ∈ w) : x ≠ .endMarker := by
  intro hend
  exact endMarker_not_mem_terminals hg (hend ▸ h.mem_terminals hx)

theorem Awaits.viable (h : g.Awaits w x) : g.Viable w := by
  obtain ⟨more, hmore, -⟩ := h
  exact ⟨more, hmore⟩

theorem awaits_endMarker_iff (hg : g.WellFormed) : g.Awaits w .endMarker ↔ g.Sentence w := by
  constructor
  · intro h
    obtain ⟨more, hmore, hhead⟩ := h
    cases more with
    | nil => rwa [List.append_nil] at hmore
    | cons y rest => exact absurd hhead (hmore.ne_endMarker hg (by simp))
  · intro h
    exact ⟨[], by rwa [List.append_nil], rfl⟩

theorem awaits_iff_viable (hx : x ≠ .endMarker) : g.Awaits w x ↔ g.Viable (w ++ [x]) := by
  constructor
  · intro h
    obtain ⟨more, hmore, hhead⟩ := h
    cases more with
    | nil => exact absurd hhead.symm hx
    | cons y rest =>
      obtain rfl : y = x := hhead
      exact ⟨rest, by rwa [List.append_assoc]⟩
  · intro h
    obtain ⟨rest, hrest⟩ := h
    exact ⟨x :: rest, by rwa [List.append_assoc] at hrest, rfl⟩

/-! ### What an item lets come next -/

theorem Valid.exists_derives (h : g.Valid path i) : ∃ v : List Terminal, i.lookahead = v.headD .endMarker ∧
    g.Derives [.nonterminal .root] (path ++ (i.production.symbols.drop i.dot ++ v.map .terminal)) := by
  obtain ⟨hp, -, before, v, hderives, rfl, hlookahead⟩ := h
  refine ⟨v, hlookahead, ?_⟩
  have hstep := (derives_symbols hp).within before (v.map .terminal)
  rw [← List.take_append_drop i.dot i.production.symbols] at hstep
  simp only [List.append_assoc, List.cons_append, List.nil_append] at hstep ⊢
  exact hderives.derives.trans hstep

theorem Permits.leads {v : List Terminal} (h : g.Permits i x) (hv : i.lookahead = v.headD .endMarker) :
    g.Leads (i.production.symbols.drop i.dot ++ v.map .terminal) x := by
  unfold Permits at h
  split at h
  · rename_i y hcurrent
    obtain ⟨hlt, hget⟩ := List.getElem?_eq_some_iff.1 hcurrent
    rw [List.drop_eq_getElem_cons hlt, hget]
    exact h
  · rename_i hcurrent
    have hdrop : i.production.symbols.drop i.dot = [] := List.drop_eq_nil_iff.2 (List.getElem?_eq_none_iff.1 hcurrent)
    rw [hdrop, List.nil_append, leads_map_terminal, h, hv]

/-- An item behind a path lets come next only what sentences go on with. -/
theorem Places.awaits (hg : g.WellFormed) (hproductive : g.Productive) (h : g.Places path i)
    (hx : g.Permits i x) (hw : g.Derives path (w.map .terminal)) : g.Awaits w x := by
  obtain ⟨v, hlookahead, hderives⟩ := (h.valid hg hproductive).exists_derives
  have hgenerates : ∀ y ∈ i.production.symbols.drop i.dot, g.Generates y :=
    fun y hy => hproductive.generates h.mem_productions y (List.mem_of_mem_drop hy)
  obtain ⟨more, hmore, hhead⟩ := exists_derivesLast_of_leads hproductive hgenerates v (hx.leads hlookahead)
  refine ⟨more, ?_, hhead⟩
  rw [Sentence, List.map_append]
  exact hderives.trans (hw.append hmore.derives)

theorem exists_permits (hstarts : ∀ y ∈ i.production.symbols, ∃ t, g.Starts y t) : ∃ x, g.Permits i x := by
  unfold Permits
  split
  · rename_i y hcurrent
    exact hstarts y (List.mem_of_getElem? hcurrent)
  · exact ⟨i.lookahead, rfl⟩

theorem exists_expansionLookahead (g : Grammar) (i : Item) : ∃ t, t ∈ i.expansionLookaheads g.first := by
  cases hfollowing : i.following? with
  | none => exact ⟨i.lookahead, by simp [Item.expansionLookaheads_of_last hfollowing]⟩
  | some y =>
    simp only [Item.mem_expansionLookaheads_iff hfollowing]
    by_cases hstarts : ∃ t, g.Starts y t
    · obtain ⟨t, ht⟩ := hstarts
      exact ⟨t, .inl ht⟩
    · exact ⟨i.lookahead, .inr ⟨not_exists.1 hstarts, rfl⟩⟩

/-- What can start with the terminal is expanded until some item expects the terminal itself. -/
theorem Places.exists_expecting_terminal (hi : g.Places path i) {y : Symbol} (hcurrent : i.current? = some y)
    (h : g.Starts y x) : ∃ j, g.Places path j ∧ j.current? = some (.terminal x) := by
  induction h generalizing i with
  | terminal x => exact ⟨i, hi, hcurrent⟩
  | @production p y x hp hfirst _ ih =>
    obtain ⟨t, ht⟩ := exists_expansionLookahead g i
    have hstart := hi.expand (Item.mem_expansion.2
      ⟨p.name, p, t, hcurrent, mem_productionsOf.2 ⟨hp, rfl⟩, ht, rfl⟩)
    refine ih hstart ?_
    rw [← hfirst, Production.firstSymbol?, List.head?_eq_getElem?]
    rfl

theorem exists_permits_iff : (∃ i, g.Places path i ∧ g.Permits i x) ↔
    ∃ i, g.Places path i ∧ (i.current? = some (.terminal x) ∨ i.current? = none ∧ i.lookahead = x) := by
  constructor
  · intro h
    obtain ⟨i, hi, hx⟩ := h
    unfold Permits at hx
    split at hx
    · rename_i y hcurrent
      obtain ⟨j, hj, hexpects⟩ := hi.exists_expecting_terminal hcurrent hx
      exact ⟨j, hj, .inl hexpects⟩
    · rename_i hcurrent
      exact ⟨i, hi, .inr ⟨hcurrent, hx.symm⟩⟩
  · intro h
    obtain ⟨i, hi, hcases⟩ := h
    refine ⟨i, hi, ?_⟩
    rcases hcases with hcurrent | ⟨hcurrent, hlookahead⟩
    · rw [Permits, hcurrent]
      exact .terminal x
    · rw [Permits, hcurrent]
      exact hlookahead.symm

/-! ### Cutting a derivation tree -/

/-- The tokens read can stand as trees behind the path, and then the token is expected. -/
def Expects (g : Grammar) (path : List Symbol) (read : List Token) (token : Token) : Prop :=
  ∃ (ts : List Tree) (i : Item), (∀ u ∈ ts, g.Admits u) ∧ ts.flatMap Tree.leaves = read
    ∧ g.Places (path ++ ts.map Tree.symbol) i ∧ i.current? = some token.symbol

theorem exists_part_of_flatMap_eq {α β : Type} {f : α → List β} {xs : List α} {before after : List β} {b : β}
    (h : xs.flatMap f = before ++ b :: after) : ∃ left c right before' after', xs = left ++ c :: right
      ∧ before = left.flatMap f ++ before' ∧ f c = before' ++ b :: after' := by
  induction xs generalizing before with
  | nil => simp at h
  | cons c rest ih =>
    rw [List.flatMap_cons] at h
    rcases List.append_eq_append_iff.1 h with ⟨middle, rfl, hrest⟩ | ⟨tail, hc, htail⟩
    · obtain ⟨left, d, right, before', after', rfl, rfl, hd⟩ := ih hrest
      exact ⟨c :: left, d, right, before', after', rfl, by simp, hd⟩
    · cases tail with
      | nil =>
        have hrest : rest.flatMap f = [] ++ b :: after := htail.symm
        rw [List.append_nil] at hc
        obtain ⟨left, d, right, before', after', rfl, hbefore, hd⟩ := ih hrest
        refine ⟨c :: left, d, right, before', after', rfl, ?_, hd⟩
        rw [List.flatMap_cons, List.append_assoc, ← hbefore, hc, List.append_nil]
      | cons y tail =>
        obtain ⟨rfl, -⟩ := List.cons.inj htail
        exact ⟨[], c, rest, before, tail, rfl, rfl, hc⟩

/-- The dot moves over the children before the one that the token is in. -/
theorem expects_of_children {p : Production} {t : Terminal} (hstart : g.Places path (.initial p t))
    {children : List Tree} (hsymbols : children.map Tree.symbol = p.symbols)
    (hchildren : ∀ c ∈ children, g.Admits c) {read more : List Token} {token : Token}
    (hleaves : children.flatMap Tree.leaves = read ++ token :: more)
    (hexpects : ∀ c ∈ children, ∀ {path : List Symbol} {i : Item} {read more : List Token},
      c.leaves = read ++ token :: more → g.Places path i → i.current? = some c.symbol → g.Expects path read token) :
    g.Expects path read token := by
  obtain ⟨left, c, right, read', more', rfl, rfl, hc⟩ := exists_part_of_flatMap_eq hleaves
  rw [List.map_append, List.map_cons] at hsymbols
  have hlength : (left.map Tree.symbol).length ≤ p.size := by
    rw [Production.size, ← hsymbols, List.length_append]
    omega
  have hplaces := hstart.advance_by hlength
  rw [← hsymbols, List.take_left' rfl] at hplaces
  have hcurrent : (⟨p, (left.map Tree.symbol).length, t⟩ : Item).current? = some c.symbol := by
    simp [Item.current?, ← hsymbols]
  obtain ⟨ts, i, hts, hread, hi, htoken⟩ := hexpects c (by simp) hc hplaces hcurrent
  refine ⟨left ++ ts, i, ?_, ?_, ?_, htoken⟩
  · intro u hu
    rcases List.mem_append.1 hu with hu | hu
    · exact hchildren u (List.mem_append_left _ hu)
    · exact hts u hu
  · rw [List.flatMap_append, hread]
  · rwa [List.map_append, ← List.append_assoc]

theorem Admits.expects {u : Tree} (hu : g.Admits u) {read more : List Token} {token : Token}
    (hleaves : u.leaves = read ++ token :: more) (hi : g.Places path i) (hcurrent : i.current? = some u.symbol) :
    g.Expects path read token := by
  induction hu generalizing read more path i with
  | leaf other =>
    rw [Tree.leaves_leaf] at hleaves
    obtain ⟨rfl, htoken⟩ | ⟨-, hnil⟩ := List.append_eq_singleton_iff.1 hleaves.symm
    · obtain ⟨rfl, -⟩ := List.cons.inj htoken
      refine ⟨[], i, fun u hu => absurd hu List.not_mem_nil, rfl, ?_, hcurrent⟩
      rwa [List.map_nil, List.append_nil]
    · exact absurd hnil (List.cons_ne_nil _ _)
  | @node name children hp hchildren ih =>
    obtain ⟨t, ht⟩ := exists_expansionLookahead g i
    have hstart : g.Places path (.initial ⟨name, children.map Tree.symbol⟩ t) :=
      hi.expand (Item.mem_expansion.2 ⟨name, _, t, hcurrent, mem_productionsOf.2 ⟨hp, rfl⟩, ht, rfl⟩)
    rw [Tree.leaves_node] at hleaves
    exact expects_of_children hstart rfl hchildren hleaves ih

/-- The beginning of a sentence can stand as trees with the next token expected behind them. -/
theorem Sentence.expects {read more : List Token} {token : Token}
    (h : g.Sentence ((read ++ token :: more).map Token.terminal)) : g.Expects [] read token := by
  obtain ⟨u, ⟨children, rfl, hsymbols, hchildren⟩, hleaves⟩ := derives_root_iff.1 (sentence_map_terminal.1 h)
  rw [Tree.leaves_node] at hleaves
  exact expects_of_children .start hsymbols hchildren hleaves fun c hc => (hchildren c hc).expects

end Grammar

end CanonicalLR
