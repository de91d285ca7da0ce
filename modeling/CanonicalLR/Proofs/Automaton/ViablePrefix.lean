import CanonicalLR.Proofs.Automaton.Items
import CanonicalLR.Proofs.Grammar.Rightmost
import CanonicalLR.Proofs.Table.Evaluation

/-!
# Viable prefixes

An item is valid behind a path when a rightmost derivation from the root leads to the item's nonterminal, the path ends in the symbols before the dot, and the lookahead is the terminal that comes next. Nothing in this speaks of states or closures. In a productive grammar the automaton can follow exactly the paths behind which some item is valid, and the state at the end of a path holds exactly the items that are valid behind it. One direction goes by the ways in which an item comes to stand behind a path (`Places.valid`), the other by the steps of the derivation (`places_of_derivesLast`): the nonterminal was there before the last step, or the last step brought it in.
-/

namespace CanonicalLR

namespace Item

/-- The symbols behind the current one. -/
def later (i : Item) : List Symbol := i.production.symbols.drop (i.dot + 1)

theorem following?_eq (i : Item) : i.following? = i.later.head? := by
  rw [later, List.head?_drop, following?]

theorem symbols_eq {i : Item} {x : Symbol} (h : i.current? = some x) :
    i.production.symbols = i.production.symbols.take i.dot ++ x :: i.later := by
  obtain ⟨hlt, rfl⟩ := List.getElem?_eq_some_iff.1 h
  rw [later, ← List.drop_eq_getElem_cons hlt, List.take_append_drop]

end Item

namespace Grammar

variable {g : Grammar} {path : List Symbol} {i : Item}

/-- A rightmost derivation leads to the nonterminal of the item, so that the next step can be by its production; the path is what stands before the nonterminal, with the symbols before the dot, and the lookahead is the terminal that stands behind it. -/
def Valid (g : Grammar) (path : List Symbol) (i : Item) : Prop :=
  i.production ∈ g.productions ∧ i.dot ≤ i.production.size ∧ ∃ (before : List Symbol) (w : List Terminal),
    g.DerivesLast [.nonterminal .root] (before ++ .nonterminal i.production.name :: w.map .terminal)
      ∧ path = before ++ i.production.symbols.take i.dot ∧ i.lookahead = w.headD .endMarker

/-- Where every symbol starts with some terminal, what can follow the current symbol is what leads the symbols behind it. -/
theorem mem_expansionLookaheads_iff_leads (hlater : ∀ x ∈ i.later, ∃ t, g.Starts x t) {w : List Terminal}
    (hw : i.lookahead = w.headD .endMarker) {t : Terminal} :
    t ∈ i.expansionLookaheads g.first ↔ g.Leads (i.later ++ w.map .terminal) t := by
  have hfollowing := i.following?_eq
  cases hsymbols : i.later with
  | nil =>
    rw [hsymbols] at hfollowing
    rw [Item.expansionLookaheads_of_last hfollowing, List.mem_singleton, hw, List.nil_append, leads_map_terminal]
  | cons x rest =>
    rw [hsymbols] at hfollowing hlater
    exact Item.mem_expansionLookaheads_iff_starts (hlater x List.mem_cons_self) hfollowing

theorem Productive.generates_later (hproductive : g.Productive) (hp : i.production ∈ g.productions) :
    ∀ x ∈ i.later, g.Generates x :=
  fun x hx => hproductive.generates hp x (List.mem_of_mem_drop hx)

theorem Productive.exists_starts_later (hg : g.WellFormed) (hproductive : g.Productive)
    (hp : i.production ∈ g.productions) : ∀ x ∈ i.later, ∃ t, g.Starts x t :=
  fun x hx => (hproductive.generates_later hp x hx).exists_starts hg

/-! ### Items of the automaton are valid -/

theorem Valid.advance {x : Symbol} (h : g.Valid path i) (hx : i.current? = some x) :
    g.Valid (path ++ [x]) { i with dot := i.dot + 1 } := by
  obtain ⟨hp, -, before, w, hderives, rfl, hlookahead⟩ := h
  obtain ⟨hlt, hget⟩ := List.getElem?_eq_some_iff.1 hx
  refine ⟨hp, hlt, before, w, hderives, ?_, hlookahead⟩
  rw [List.append_assoc, ← hget, ← List.take_succ_eq_append_getElem hlt]

/-- The symbols behind the expected nonterminal are derived to terminals, and the nonterminal is the last one. -/
theorem Valid.expand (hg : g.WellFormed) (hproductive : g.Productive) (h : g.Valid path i) {j : Item}
    (hj : j ∈ i.expansion g g.first) : g.Valid path j := by
  obtain ⟨n, p, t, hcurrent, hof, ht, rfl⟩ := Item.mem_expansion.1 hj
  obtain ⟨hp, rfl⟩ := mem_productionsOf.1 hof
  obtain ⟨hi, -, before, w, hderives, rfl, hlookahead⟩ := h
  have hlater := hproductive.generates_later hi
  rw [mem_expansionLookaheads_iff_leads (hproductive.exists_starts_later hg hi) hlookahead] at ht
  obtain ⟨w', hrest, hw'⟩ := exists_derivesLast_of_leads hproductive hlater w ht
  have hstep := hderives.tail (.apply before w hi)
  have hwithin := hrest.within (before ++ i.production.symbols.take i.dot ++ [.nonterminal p.name]) []
  rw [Item.symbols_eq hcurrent] at hstep
  refine ⟨hp, Nat.zero_le _, before ++ i.production.symbols.take i.dot, w', ?_, ?_, hw'.symm⟩
  · simp only [List.append_assoc, List.cons_append, List.nil_append, List.map_nil, List.append_nil] at hstep hwithin ⊢
    exact hstep.trans hwithin
  · simp [Item.initial]

theorem Places.valid (hg : g.WellFormed) (hproductive : g.Productive) (h : g.Places path i) :
    g.Valid path i := by
  induction h with
  | start =>
    refine ⟨g.root_mem, Nat.zero_le _, [], [], ?_, rfl, rfl⟩
    rw [Item.initial, g.root_name]
    exact .refl
  | advance _ hj ih =>
    obtain ⟨hcurrent, rfl⟩ := Item.advance?_eq_some_iff.1 hj
    exact ih.advance hcurrent
  | expand _ hj ih => exact ih.expand hg hproductive hj

/-! ### Valid items are in the automaton -/

theorem Places.expand_within (hg : g.WellFormed) (hproductive : g.Productive) {q p : Production}
    {w : List Terminal} {t : Terminal} (h : g.Places path (.initial q (w.headD .endMarker)))
    {front back : List Symbol} (hq : q.symbols = front ++ .nonterminal p.name :: back) (hp : p ∈ g.productions)
    (ht : g.Leads (back ++ w.map .terminal) t) : g.Places (path ++ front) (.initial p t) := by
  have hle : front.length ≤ q.size := by
    rw [Production.size, hq, List.length_append]
    omega
  have hadvanced := h.advance_by hle
  rw [hq, List.take_left' rfl] at hadvanced
  have hcurrent : (⟨q, front.length, w.headD .endMarker⟩ : Item).current? = some (.nonterminal p.name) := by
    simp [Item.current?, hq]
  have hlater : (⟨q, front.length, w.headD .endMarker⟩ : Item).later = back := by
    simp [Item.later, hq]
  refine hadvanced.expand (Item.mem_expansion.2
    ⟨_, p, t, hcurrent, mem_productionsOf.2 ⟨hp, rfl⟩, ?_, rfl⟩)
  have hstarts := hproductive.exists_starts_later hg hadvanced.mem_productions
  rw [mem_expansionLookaheads_iff_leads hstarts rfl, hlater]
  exact ht

theorem nonterminal_not_mem_map_terminal (n : NonTerminal) (w : List Terminal) :
    Symbol.nonterminal n ∉ w.map Symbol.terminal := by
  simp

theorem exists_split_of_append_eq {α : Type} {left mid right before after : List α} {x : α}
    (h : left ++ (mid ++ right) = before ++ x :: after) (hx : x ∉ right) :
    (∃ back, left = before ++ x :: back ∧ after = back ++ (mid ++ right)) ∨
      ∃ front back, mid = front ++ x :: back ∧ before = left ++ front ∧ after = back ++ right := by
  have hinner (front : List α) (hbefore : before = left ++ front) (hmid : mid ++ right = front ++ x :: after) :
      ∃ front back, mid = front ++ x :: back ∧ before = left ++ front ∧ after = back ++ right := by
    rcases List.append_eq_append_iff.1 hmid with ⟨more, -, hright⟩ | ⟨rest, rfl, hrest⟩
    · exact absurd (hright ▸ List.mem_append_right _ List.mem_cons_self) hx
    · cases rest with
      | nil =>
        rw [List.nil_append] at hrest
        exact absurd (hrest ▸ List.mem_cons_self) hx
      | cons y rest =>
        obtain ⟨rfl, rfl⟩ := List.cons.inj hrest
        exact ⟨front, rest, rfl, hbefore, rfl⟩
  rcases List.append_eq_append_iff.1 h with ⟨front, hbefore, hmid⟩ | ⟨back, hleft, hafter⟩
  · exact .inr (hinner front hbefore hmid)
  · cases back with
    | nil =>
      rw [List.append_nil] at hleft
      exact .inr (hinner [] (by rw [hleft, List.append_nil]) hafter.symm)
    | cons y back =>
      obtain ⟨rfl, rfl⟩ := List.cons.inj hafter
      exact .inl ⟨back, hleft, rfl⟩

/-- Every nonterminal of a right sentential form starts where it stands. -/
theorem places_of_derivesLast (hg : g.WellFormed) (hproductive : g.Productive) {xs : List Symbol}
    (h : g.DerivesLast [.nonterminal .root] xs) {before after : List Symbol} {p : Production} {t : Terminal}
    (hxs : xs = before ++ .nonterminal p.name :: after) (hp : p ∈ g.productions) (ht : g.Leads after t) :
    g.Places before (.initial p t) := by
  induction h generalizing before after p t with
  | refl =>
    obtain ⟨rfl, hrest⟩ | ⟨-, hnil⟩ := List.append_eq_singleton_iff.1 hxs.symm
    · injection hrest with hname hafter
      injection hname with hname
      subst hafter
      rw [g.root_unique p hp hname, show t = .endMarker from ht]
      exact .start
    · exact absurd hnil (List.cons_ne_nil _ _)
  | tail _ hstep ih =>
    obtain @⟨left, w, q, hq⟩ := hstep
    rw [List.append_assoc] at hxs
    rcases exists_split_of_append_eq hxs (nonterminal_not_mem_map_terminal _ w) with
      ⟨back, rfl, rfl⟩ | ⟨front, back, hsymbols, rfl, rfl⟩
    · -- the nonterminal was there before the last step
      have hleads : g.Leads (back ++ .nonterminal q.name :: w.map .terminal) t := by
        cases back with
        | nil => exact ht.of_symbols hg hq
        | cons y back => exact ht
      exact ih (by rw [List.append_assoc, List.cons_append]) hp hleads
    · -- the last step brought it in
      have hstart := ih rfl hq ((leads_map_terminal w).2 rfl)
      exact hstart.expand_within hg hproductive hsymbols hp ht

theorem Valid.places (hg : g.WellFormed) (hproductive : g.Productive) (h : g.Valid path i) :
    g.Places path i := by
  obtain ⟨hp, hdot, before, w, hderives, rfl, hlookahead⟩ := h
  have hstart := places_of_derivesLast hg hproductive hderives rfl hp ((leads_map_terminal w).2 hlookahead)
  exact hstart.advance_by hdot

theorem places_iff_valid (hg : g.WellFormed) (hproductive : g.Productive) : g.Places path i ↔ g.Valid path i :=
  ⟨fun h => h.valid hg hproductive, fun h => h.places hg hproductive⟩

/-- The productions of a grammar in which the root can stand behind any number of `x`. -/
def recursiveProductions : List Production :=
  [⟨.root, [.nonterminal ⟨"a"⟩]⟩, ⟨⟨"a"⟩, [.terminal ⟨"x"⟩, .nonterminal .root]⟩, ⟨⟨"a"⟩, [.terminal ⟨"y"⟩]⟩]

theorem productive_of_recursive (hg : g.productions = recursiveProductions) : g.Productive := by
  have hmem (p : Production) (hp : p ∈ recursiveProductions) : p ∈ g.productions := hg ▸ hp
  have ha : g.Generates (.nonterminal ⟨"a"⟩) :=
    generates_of_production (p := ⟨⟨"a"⟩, [.terminal ⟨"y"⟩]⟩) (hmem _ (by simp [recursiveProductions])) (by
      simp [generates_terminal])
  have hroot : g.Generates (.nonterminal .root) :=
    generates_of_production (p := ⟨.root, [.nonterminal ⟨"a"⟩]⟩) (hmem _ (by simp [recursiveProductions])) (by
      simp [ha])
  intro n hn
  obtain ⟨p, hp, rfl⟩ := mem_nonTerminals.1 hn
  rw [hg, recursiveProductions] at hp
  simp only [List.mem_cons, List.not_mem_nil, or_false] at hp
  rcases hp with rfl | rfl | rfl
  · exact hroot
  · exact ha
  · exact ha

end Grammar

namespace Automaton

variable {g : Grammar} {path : List Symbol} {state : Nat} {source : String}

theorem exists_places_of_walk? (h : (ofGrammar g).walk? path = some state) : ∃ i, g.Places path i := by
  cases path using List.reverseRecOn with
  | nil => exact ⟨_, .start⟩
  | append_singleton path x =>
    rw [walk?_concat, Option.bind_eq_some_iff] at h
    obtain ⟨before, hbefore, hgoto⟩ := h
    obtain ⟨i, hi, hcurrent⟩ := exists_places_of_goto? hbefore hgoto
    exact ⟨_, hi.advance (Item.advance?_eq_some_iff.2 ⟨hcurrent, rfl⟩)⟩

/-- The automaton follows the paths behind which some item is valid, to the state of the items that are. -/
theorem walk?_iff_valid (hg : Grammar.ofSource source = .ok g) (hproductive : g.Productive)
    (path : List Symbol) :
    ((∃ state, (ofGrammar g).walk? path = some state) ↔ ∃ i, g.Valid path i) ∧
    ∀ state, (ofGrammar g).walk? path = some state →
      ∃ s, (ofGrammar g).itemSet? state = some s ∧ ∀ i, i ∈ s ↔ g.Valid path i := by
  have hwell := Grammar.wellFormed_of_ofSource hg
  refine ⟨⟨fun h => ?_, fun h => ?_⟩, fun state hwalk => ?_⟩
  · obtain ⟨state, hwalk⟩ := h
    obtain ⟨i, hi⟩ := exists_places_of_walk? hwalk
    exact ⟨i, hi.valid hwell hproductive⟩
  · obtain ⟨i, hi⟩ := h
    obtain ⟨state, s, hwalk, -, -⟩ := exists_itemSet_of_places (hi.places hwell hproductive)
    exact ⟨state, hwalk⟩
  · obtain ⟨s, hs⟩ := exists_itemSet_of_walk? hwalk
    refine ⟨s, hs, fun i => ?_⟩
    rw [mem_itemSet_iff hwalk hs, Grammar.places_iff_valid hwell hproductive]

/-- Behind two `x`, with the root rewritten in between, the root may follow and then the end of input. -/
theorem walk?_iff_valid_recursive : ∃ g state s,
    Grammar.ofSource "__root : @a ; a : x @__root ; a : y ;" = .ok g ∧ g.Productive
      ∧ (ofGrammar g).walk? [.terminal ⟨"x"⟩, .terminal ⟨"x"⟩] = some state
      ∧ (ofGrammar g).itemSet? state = some s
      ∧ ⟨⟨⟨"a"⟩, [.terminal ⟨"x"⟩, .nonterminal .root]⟩, 1, .endMarker⟩ ∈ s := by
  obtain ⟨g, -, hg, -, hproductions⟩ := Table.exists_table_of_within .reject 20
    "__root : @a ; a : x @__root ; a : y ;" (P := fun g _ => g.productions = Grammar.recursiveProductions)
    (by decide +kernel)
  have hproductive := Grammar.productive_of_recursive hproductions
  have hroot : ⟨.root, [.nonterminal ⟨"a"⟩]⟩ ∈ g.productions := by simp [hproductions, Grammar.recursiveProductions]
  have hx : ⟨⟨"a"⟩, [.terminal ⟨"x"⟩, .nonterminal .root]⟩ ∈ g.productions := by
    simp [hproductions, Grammar.recursiveProductions]
  have hvalid : g.Valid [.terminal ⟨"x"⟩, .terminal ⟨"x"⟩]
      ⟨⟨⟨"a"⟩, [.terminal ⟨"x"⟩, .nonterminal .root]⟩, 1, .endMarker⟩ := by
    have hinner := (Grammar.derivesLast_symbols hroot).within [.terminal ⟨"x"⟩] []
    exact ⟨hx, Nat.le_succ 1, [.terminal ⟨"x"⟩], [],
      ((Grammar.derivesLast_symbols hroot).trans (Grammar.derivesLast_symbols hx)).trans hinner, rfl, rfl⟩
  obtain ⟨hwalks, hitems⟩ := walk?_iff_valid hg hproductive [.terminal ⟨"x"⟩, .terminal ⟨"x"⟩]
  obtain ⟨state, hstate⟩ := hwalks.2 ⟨_, hvalid⟩
  obtain ⟨s, hs, hmem⟩ := hitems state hstate
  exact ⟨g, state, s, hg, hproductive, hstate, hs, (hmem _).2 hvalid⟩

end Automaton

end CanonicalLR
