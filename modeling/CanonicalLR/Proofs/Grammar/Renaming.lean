import CanonicalLR.Proofs.Grammar.First
import CanonicalLR.Proofs.Grammar.Printing
import Mathlib.Data.List.Induction
import Mathlib.Data.List.Nodup

/-!
# Renamed grammars

A renaming gives different terminals different names, and different nonterminals too, and it leaves the end of input and the root what they are. Nothing else is asked of it: it need not respect the order of names, so sets of symbols and items are sorted differently afterwards, and what is true of a renamed grammar is not read off step by step. What is kept is membership. All that the renamed grammar derives, starts or expands is an image, and exactly the images of what the grammar derives, starts or expands (`starts_iff`, `mem_expansion_iff`). The one list whose order is kept is that of the terminals, because they count in the order in which the productions mention them (`terminals_eq`).
-/

namespace CanonicalLR

open Function

/-- Other names for terminals and nonterminals. The end of input and the root keep theirs. -/
structure Renaming where
  terminal : Terminal → Terminal
  nonterminal : NonTerminal → NonTerminal
  terminal_injective : Injective terminal
  nonterminal_injective : Injective nonterminal
  terminal_endMarker : terminal .endMarker = .endMarker
  nonterminal_root : nonterminal .root = .root

namespace Renaming

variable (ρ : Renaming)

def symbol : Symbol → Symbol
  | .terminal t => .terminal (ρ.terminal t)
  | .nonterminal n => .nonterminal (ρ.nonterminal n)

def production (p : Production) : Production := ⟨ρ.nonterminal p.name, p.symbols.map ρ.symbol⟩

def item (i : Item) : Item := ⟨ρ.production i.production, i.dot, ρ.terminal i.lookahead⟩

/-- The one grammar has the productions of the other, in their order and with other names. -/
def Renames (g h : Grammar) : Prop := h.productions = g.productions.map ρ.production

/-! ### Names -/

variable {ρ} {g h : Grammar} {i j : Item} {x : Symbol} {t : Terminal} {n : NonTerminal} {p : Production}

@[simp] theorem terminal_eq_endMarker_iff : ρ.terminal t = .endMarker ↔ t = .endMarker :=
  ρ.terminal_injective.eq_iff' ρ.terminal_endMarker

@[simp] theorem nonterminal_eq_root_iff : ρ.nonterminal n = .root ↔ n = .root :=
  ρ.nonterminal_injective.eq_iff' ρ.nonterminal_root

theorem symbol_injective : Injective ρ.symbol := by
  intro x y hxy
  cases x <;> cases y
  · exact congrArg Symbol.terminal (ρ.terminal_injective (Symbol.terminal.inj hxy))
  · cases hxy
  · cases hxy
  · exact congrArg Symbol.nonterminal (ρ.nonterminal_injective (Symbol.nonterminal.inj hxy))

theorem production_injective : Injective ρ.production := by
  intro p q hpq
  obtain ⟨hname, hsymbols⟩ := Production.mk.inj hpq
  cases p; cases q
  rw [Production.mk.injEq]
  exact ⟨ρ.nonterminal_injective hname, symbol_injective.list_map hsymbols⟩

theorem item_injective : Injective ρ.item := by
  intro i j hij
  obtain ⟨hproduction, hdot, hlookahead⟩ := Item.mk.inj hij
  cases i; cases j
  rw [Item.mk.injEq]
  exact ⟨production_injective hproduction, hdot, ρ.terminal_injective hlookahead⟩

theorem symbol_eq_terminal_iff {s : Terminal} : ρ.symbol x = .terminal s ↔ ∃ t, x = .terminal t ∧ ρ.terminal t = s := by
  cases x <;> simp [symbol]

theorem symbol_eq_nonterminal_iff {m : NonTerminal} :
    ρ.symbol x = .nonterminal m ↔ ∃ n, x = .nonterminal n ∧ ρ.nonterminal n = m := by
  cases x <;> simp [symbol]

/-! ### Items -/

@[simp] theorem size_production (p : Production) : (ρ.production p).size = p.size := List.length_map _

theorem current?_item (i : Item) : (ρ.item i).current? = i.current?.map ρ.symbol := List.getElem?_map

theorem following?_item (i : Item) : (ρ.item i).following? = i.following?.map ρ.symbol := List.getElem?_map

theorem item_initial (p : Production) (t : Terminal) :
    ρ.item (.initial p t) = .initial (ρ.production p) (ρ.terminal t) := rfl

theorem current?_item_eq_some_iff : (ρ.item i).current? = some (ρ.symbol x) ↔ i.current? = some x := by
  rw [current?_item, Option.map_eq_some_iff]
  constructor
  · intro hsome
    obtain ⟨y, hy, heq⟩ := hsome
    rw [hy, symbol_injective heq]
  · exact fun hx => ⟨x, hx, rfl⟩

theorem current?_item_eq_terminal_iff :
    (ρ.item i).current? = some (.terminal (ρ.terminal t)) ↔ i.current? = some (.terminal t) :=
  current?_item_eq_some_iff (x := .terminal t)

theorem current?_item_eq_none_iff : (ρ.item i).current? = none ↔ i.current? = none := by
  rw [current?_item, Option.map_eq_none_iff]

theorem lookahead_item_eq_iff : (ρ.item i).lookahead = ρ.terminal t ↔ i.lookahead = t := ρ.terminal_injective.eq_iff

/-! ### Grammars -/

theorem describable_map {productions : List Production} (h : Grammar.Describable productions)
    (hlegal : ∀ p ∈ productions, Lexeme.Legal (ρ.nonterminal p.name).name ∧
      ∀ x ∈ p.symbols, Lexeme.Legal (ρ.symbol x).name) : Grammar.Describable (productions.map ρ.production) where
  nodup := h.nodup.map production_injective
  symbols_ne_nil := List.forall_mem_map.2 fun p hp hnil => h.symbols_ne_nil p hp (List.map_eq_nil_iff.1 hnil)
  legal_name := List.forall_mem_map.2 fun p hp => (hlegal p hp).1
  legal_symbol := List.forall_mem_map.2 fun p hp => List.forall_mem_map.2 (hlegal p hp).2
  existsUnique_root := by
    obtain ⟨root, ⟨hroot, hname⟩, hunique⟩ := h.existsUnique_root
    refine ⟨ρ.production root, ⟨List.mem_map_of_mem hroot, nonterminal_eq_root_iff.2 hname⟩, ?_⟩
    intro q hq
    obtain ⟨hq, hqname⟩ := hq
    obtain ⟨p, hp, rfl⟩ := List.mem_map.1 hq
    rw [hunique p ⟨hp, nonterminal_eq_root_iff.1 hqname⟩]
  defined := by
    refine List.forall_mem_map.2 fun p hp m hm => ?_
    obtain ⟨x, hx, heq⟩ := List.mem_map.1 hm
    obtain ⟨n, rfl, rfl⟩ := symbol_eq_nonterminal_iff.1 heq
    obtain ⟨q, hq, rfl⟩ := h.defined p hp n hx
    exact ⟨ρ.production q, List.mem_map_of_mem hq, rfl⟩

namespace Renames

theorem mem_productions_iff (hgh : ρ.Renames g h) : ρ.production p ∈ h.productions ↔ p ∈ g.productions := by
  rw [hgh, List.mem_map_of_injective production_injective]

theorem exists_production (hgh : ρ.Renames g h) {q : Production} (hq : q ∈ h.productions) :
    ∃ p ∈ g.productions, ρ.production p = q := List.mem_map.1 (hgh ▸ hq)

theorem root_eq (hgh : ρ.Renames g h) : ρ.production g.root = h.root := by
  refine h.root_unique _ (hgh.mem_productions_iff.2 g.root_mem) ?_
  rw [production, g.root_name, ρ.nonterminal_root]

theorem starts (hgh : ρ.Renames g h) (hx : g.Starts x t) : h.Starts (ρ.symbol x) (ρ.terminal t) := by
  induction hx with
  | terminal t => exact .terminal _
  | production hp hfirst _ ih =>
    refine .production (p := ρ.production _) (hgh.mem_productions_iff.2 hp) ?_ ih
    rw [Production.firstSymbol?, production, List.head?_map]
    exact congrArg (Option.map ρ.symbol) hfirst

theorem exists_starts (hgh : ρ.Renames g h) {y : Symbol} {s : Terminal} (hy : h.Starts y s) (hxy : ρ.symbol x = y) :
    ∃ t, ρ.terminal t = s ∧ g.Starts x t := by
  induction hy generalizing x with
  | terminal s =>
    obtain ⟨t, rfl, rfl⟩ := symbol_eq_terminal_iff.1 hxy
    exact ⟨t, rfl, .terminal t⟩
  | production hq hfirst _ ih =>
    obtain ⟨p, hp, rfl⟩ := hgh.exists_production hq
    obtain ⟨n, rfl, hname⟩ := symbol_eq_nonterminal_iff.1 hxy
    obtain rfl := ρ.nonterminal_injective hname
    rw [Production.firstSymbol?, production, List.head?_map, Option.map_eq_some_iff] at hfirst
    obtain ⟨z, hz, hzy⟩ := hfirst
    obtain ⟨t, rfl, hstarts⟩ := ih hzy
    exact ⟨t, rfl, .production hp hz hstarts⟩

theorem starts_iff (hgh : ρ.Renames g h) {s : Terminal} :
    h.Starts (ρ.symbol x) s ↔ ∃ t, ρ.terminal t = s ∧ g.Starts x t := by
  refine ⟨fun hx => hgh.exists_starts hx rfl, ?_⟩
  intro hx
  obtain ⟨t, rfl, hx⟩ := hx
  exact hgh.starts hx

theorem mem_expansionLookaheads_iff (hgh : ρ.Renames g h) {s : Terminal} :
    s ∈ (ρ.item i).expansionLookaheads h.first ↔ ∃ t, ρ.terminal t = s ∧ t ∈ i.expansionLookaheads g.first := by
  have hfollowing := ρ.following?_item i
  cases hnext : i.following? with
  | none =>
    rw [hnext] at hfollowing
    rw [Item.expansionLookaheads_of_last hfollowing, Item.expansionLookaheads_of_last hnext]
    simp [item, eq_comm]
  | some x =>
    rw [hnext] at hfollowing
    simp only [Item.mem_expansionLookaheads_iff hfollowing, Item.mem_expansionLookaheads_iff hnext, hgh.starts_iff]
    constructor
    · intro hs
      rcases hs with ⟨t, rfl, ht⟩ | ⟨hnone, rfl⟩
      · exact ⟨t, rfl, .inl ht⟩
      · exact ⟨i.lookahead, rfl, .inr ⟨fun t ht => hnone _ ⟨t, rfl, ht⟩, rfl⟩⟩
    · intro hs
      rcases hs with ⟨t, rfl, ht | ⟨hnone, rfl⟩⟩
      · exact .inl ⟨t, rfl, ht⟩
      · exact .inr ⟨fun s ⟨t, _, ht⟩ => hnone t ht, rfl⟩

theorem mem_expansion_iff (hgh : ρ.Renames g h) :
    j ∈ (ρ.item i).expansion h h.first ↔ ∃ k ∈ i.expansion g g.first, ρ.item k = j := by
  constructor
  · intro hj
    obtain ⟨m, q, s, hcurrent, hof, hs, rfl⟩ := Item.mem_expansion.1 hj
    obtain ⟨hq, rfl⟩ := Grammar.mem_productionsOf.1 hof
    obtain ⟨p, hp, rfl⟩ := hgh.exists_production hq
    obtain ⟨t, rfl, ht⟩ := hgh.mem_expansionLookaheads_iff.1 hs
    have hname : i.current? = some (.nonterminal p.name) := current?_item_eq_some_iff.1 hcurrent
    exact ⟨.initial p t, Item.mem_expansion.2 ⟨_, p, t, hname, Grammar.mem_productionsOf.2 ⟨hp, rfl⟩, ht, rfl⟩, rfl⟩
  · intro hj
    obtain ⟨k, hk, rfl⟩ := hj
    obtain ⟨n, p, t, hcurrent, hof, ht, rfl⟩ := Item.mem_expansion.1 hk
    obtain ⟨hp, rfl⟩ := Grammar.mem_productionsOf.1 hof
    exact Item.mem_expansion.2 ⟨_, ρ.production p, ρ.terminal t, current?_item_eq_some_iff.2 hcurrent,
      Grammar.mem_productionsOf.2 ⟨hgh.mem_productions_iff.2 hp, rfl⟩, hgh.mem_expansionLookaheads_iff.2 ⟨t, rfl, ht⟩, rfl⟩

theorem wellFormed (hgh : ρ.Renames g h) (hg : g.WellFormed) : h.WellFormed := by
  intro q hq
  obtain ⟨p, hp, rfl⟩ := hgh.exists_production hq
  refine ⟨fun hnil => (hg p hp).symbols_ne_nil (List.map_eq_nil_iff.1 hnil), fun hmem => ?_⟩
  obtain ⟨x, hx, heq⟩ := List.mem_map.1 hmem
  obtain ⟨t, rfl, ht⟩ := symbol_eq_terminal_iff.1 heq
  rw [terminal_eq_endMarker_iff] at ht
  exact (hg p hp).endMarker_not_mem (ht ▸ hx)

end Renames

end Renaming

/-! ### Terminals -/

/-- Different members stay different, so each stays where it first came. -/
theorem distinct_map {α β : Type} [Ord α] [Std.TransOrd α] [Std.LawfulEqOrd α] [Ord β] [Std.TransOrd β]
    [Std.LawfulEqOrd β] {f : α → β} (hf : Injective f) (l : List α) : distinct (l.map f) = (distinct l).map f := by
  induction l using List.reverseRecOn with
  | nil => rfl
  | append_singleton l x ih =>
    rw [List.map_append, List.map_singleton]
    by_cases hx : x ∈ l
    · rw [distinct_concat_of_mem (List.mem_map_of_mem hx), distinct_concat_of_mem hx, ih]
    · rw [distinct_concat_of_not_mem (fun hmem => hx ((List.mem_map_of_injective hf).1 hmem)),
        distinct_concat_of_not_mem hx, ih, List.map_append, List.map_singleton]

theorem Renaming.Renames.terminals_eq {ρ : Renaming} {g h : Grammar} (hgh : ρ.Renames g h) :
    h.terminals = g.terminals.map ρ.terminal := by
  have hsymbols (symbols : List Symbol) : (symbols.map ρ.symbol).filterMap Symbol.terminal?
      = (symbols.filterMap Symbol.terminal?).map ρ.terminal := by
    rw [List.filterMap_map, List.map_filterMap]
    refine List.filterMap_congr fun x _ => ?_
    cases x <;> rfl
  rw [Grammar.terminals, Grammar.terminals, ← distinct_map ρ.terminal_injective, hgh, List.flatMap_map, List.map_flatMap]
  exact congrArg distinct (List.flatMap_congr fun p _ => hsymbols p.symbols)

end CanonicalLR
