import CanonicalLR.Follow
import CanonicalLR.Proofs.Grammar.WellFormed
import CanonicalLR.Proofs.Table.Evaluation
import Mathlib.Data.List.Basic
import Mathlib.Data.List.Induction

/-!
# Productions entered one by one

A grammar is its list of productions, from which everything else is computed. A registry keeps the same in structures that grow with every production that is written: the list, the number of each production, the productions under their names in the order of definition, and the terminals, which are noted before it is known whether the production is a repeat. Each entry keeps the structures in step with the list (`Holds.enter`), and a repeat leaves no trace (`Holds.enter_of_mem`), so a registry depends on the different productions only (`fill_distinct`) and says of a grammar what the grammar itself says. Equal lists of productions therefore make grammars equal in all that can be asked of them (`registry_of_ofSource`).
-/

namespace CanonicalLR

open Std

universe u

theorem pairwise_idxOf_distinct {α : Type u} [Ord α] [TransOrd α] [LawfulEqOrd α] [DecidableEq α] (l : List α) :
    (distinct l).Pairwise fun x y => l.idxOf x < l.idxOf y := by
  induction l using List.reverseRecOn with
  | nil => exact .nil
  | append_singleton l x ih =>
    have hkept : (distinct l).Pairwise fun y z => (l ++ [x]).idxOf y < (l ++ [x]).idxOf z := by
      refine ih.imp_of_mem fun {y z} hy hz hlt => ?_
      rwa [List.idxOf_append_of_mem (mem_distinct.1 hy), List.idxOf_append_of_mem (mem_distinct.1 hz)]
    by_cases hx : x ∈ l
    · rw [distinct_concat_of_mem hx]
      exact hkept
    · rw [distinct_concat_of_not_mem hx]
      refine List.pairwise_append.2 ⟨hkept, List.pairwise_singleton _ _, fun y hy z hz => ?_⟩
      obtain rfl := List.mem_singleton.1 hz
      rw [List.idxOf_append_of_mem (mem_distinct.1 hy), List.idxOf_append_of_notMem hx]
      have := List.idxOf_lt_length_of_mem (mem_distinct.1 hy)
      omega

theorem findIdx?_concat_of_not_mem {α : Type u} [DecidableEq α] {l : List α} {x : α} (hx : x ∉ l) (y : α) :
    (l ++ [x]).findIdx? (· == y) = if y = x then some l.length else l.findIdx? (· == y) := by
  rw [List.findIdx?_append]
  split
  · rename_i heq
    subst heq
    have hnone : l.findIdx? (· == y) = none :=
      List.findIdx?_eq_none_iff.2 fun z hz => beq_false_of_ne fun hzy => hx (hzy ▸ hz)
    simp [hnone]
  · rename_i hne
    simp [Ne.symm hne]

namespace Grammar

/-- The terminals of productions, in the order in which they are written. -/
def literals (productions : List Production) : List Terminal :=
  productions.flatMap fun p => p.symbols.filterMap Symbol.terminal?

/-- What is kept while productions are read. -/
structure Registry where
  productions : List Production := []
  index : OrderedMap Production Nat := .empty
  byName : OrderedMap NonTerminal (List Production) := .empty
  terminals : TerminalSet := .empty

namespace Registry

/-- The productions of one nonterminal, of which there may be none. -/
def productionsOf (r : Registry) (n : NonTerminal) : List Production := (r.byName.get? n).getD []

def nonTerminals (r : Registry) : List NonTerminal := r.byName.entries.map Prod.fst

/-- The registry with a production. The terminals are noted first, and the rest only if the production is new. -/
def enter (r : Registry) (p : Production) : Registry :=
  let terminals := r.terminals.insertAll (p.symbols.filterMap Symbol.terminal?)
  if r.index.contains p then { r with terminals }
  else {
    productions := r.productions ++ [p]
    index := r.index.insert p r.productions.length
    byName := r.byName.insert p.name (r.productionsOf p.name ++ [p])
    terminals }

def fill (written : List Production) : Registry := written.foldl enter {}

/-- The root's production, if there is one and no more, and every nonterminal referred to is defined. -/
def root (r : Registry) : Except GrammarError Production :=
  match r.productionsOf .root with
  | [] => .error .rootNotFound
  | [root] =>
    match (references r.productions).find? fun n => !r.byName.contains n with
    | some n => .error (.undefinedNonTerminal n)
    | none => .ok root
  | roots => .error (.multipleRoots roots.length)

/-- The structures are those of the list of productions. -/
structure Holds (r : Registry) (productions : List Production) : Prop where
  productions_eq : r.productions = productions
  index_eq : ∀ p, r.index.get? p = productions.findIdx? (· == p)
  productionsOf_eq : ∀ n, r.productionsOf n = productions.filter (·.name == n)
  nonTerminals_eq : r.nonTerminals = distinct (productions.map Production.name)
  terminals_eq : r.terminals = .ofList (literals productions)

variable {r : Registry} {productions written : List Production} {p : Production}

/-! ### One entry -/

theorem Holds.contains_iff (h : r.Holds productions) : r.index.contains p ↔ p ∈ productions := by
  simp [OrderedMap.contains, h.index_eq]

/-- A repeat leaves no trace. -/
theorem Holds.enter_of_mem (h : r.Holds productions) (hp : p ∈ productions) : r.enter p = r := by
  have hterminals : r.terminals.insertAll (p.symbols.filterMap Symbol.terminal?) = r.terminals := by
    apply KeyedSet.insertAll_of_mem
    intro t ht
    rw [h.terminals_eq, List.map_id]
    exact mem_distinct.2 (List.mem_flatMap.2 ⟨p, hp, ht⟩)
  rw [enter, if_pos (h.contains_iff.2 hp), hterminals]

/-- A new production comes last in every structure. -/
theorem Holds.enter_of_not_mem (h : r.Holds productions) (hp : p ∉ productions) :
    (r.enter p).Holds (productions ++ [p]) := by
  rw [enter, if_neg (mt h.contains_iff.1 hp)]
  constructor
  case productions_eq =>
    show r.productions ++ [p] = productions ++ [p]
    rw [h.productions_eq]
  case index_eq =>
    intro q
    show (r.index.insert p r.productions.length).get? q = _
    rw [OrderedMap.get?_insert, findIdx?_concat_of_not_mem hp, h.index_eq, h.productions_eq]
  case productionsOf_eq =>
    intro n
    show ((r.byName.insert p.name (r.productionsOf p.name ++ [p])).get? n).getD [] = _
    rw [OrderedMap.get?_insert, List.filter_append, ← h.productionsOf_eq]
    by_cases hn : n = p.name
    · subst hn
      simp
    · simp [hn, Ne.symm hn, productionsOf]
  case nonTerminals_eq =>
    show (r.byName.insert p.name (r.productionsOf p.name ++ [p])).entries.map Prod.fst = _
    rw [OrderedMap.keys_insert, ← nonTerminals, h.nonTerminals_eq, List.map_append, List.map_singleton,
      distinct_concat]
    simp only [mem_distinct]
  case terminals_eq =>
    show r.terminals.insertAll _ = .ofList (literals (productions ++ [p]))
    rw [h.terminals_eq, literals, literals, List.flatMap_append, List.flatMap_singleton, KeyedSet.ofList,
      KeyedSet.ofList, KeyedSet.insertAll_append]

/-! ### All entries -/

theorem fill_concat (written : List Production) (p : Production) :
    fill (written ++ [p]) = (fill written).enter p := List.foldl_concat ..

theorem holds_fill (written : List Production) : (fill written).Holds (distinct written) := by
  induction written using List.reverseRecOn with
  | nil => exact ⟨rfl, fun _ => OrderedMap.get?_empty _, fun n => by simp [fill, productionsOf], rfl, rfl⟩
  | append_singleton written p ih =>
    rw [fill_concat]
    by_cases hp : p ∈ written
    · rw [distinct_concat_of_mem hp, ih.enter_of_mem (mem_distinct.2 hp)]
      exact ih
    · rw [distinct_concat_of_not_mem hp]
      exact ih.enter_of_not_mem (mt mem_distinct.1 hp)

theorem fill_distinct (written : List Production) : fill (distinct written) = fill written := by
  induction written using List.reverseRecOn with
  | nil => rfl
  | append_singleton written p ih =>
    by_cases hp : p ∈ written
    · rw [distinct_concat_of_mem hp, fill_concat, (holds_fill written).enter_of_mem (mem_distinct.2 hp), ih]
    · rw [distinct_concat_of_not_mem hp, fill_concat, fill_concat, ih]

theorem Holds.contains_byName (h : r.Holds productions) (n : NonTerminal) :
    r.byName.contains n = productions.any (·.name == n) := by
  rw [Bool.eq_iff_iff, OrderedMap.contains_iff, ← nonTerminals, h.nonTerminals_eq, mem_distinct, List.mem_map,
    List.any_eq_true]
  simp only [beq_iff_eq]

theorem Holds.roots_eq (h : r.Holds productions) :
    r.productionsOf .root = productions.filter (·.name.isRoot) := by
  rw [h.productionsOf_eq]
  apply List.filter_congr
  intro p _
  rw [Bool.eq_iff_iff, beq_iff_eq, NonTerminal.isRoot_iff]

theorem Holds.undefined?_eq (h : r.Holds productions) :
    ((references r.productions).find? fun n => !r.byName.contains n) = undefined? productions := by
  simp only [h.contains_byName, h.productions_eq, undefined?]

theorem root_fill (written : List Production) : (fill written).root = (ofProductions written).map Grammar.root := by
  have h := holds_fill written
  rw [root, h.roots_eq, h.undefined?_eq]
  generalize hright : (ofProductions written).map Grammar.root = right
  unfold ofProductions at hright
  dsimp only at hright
  split at hright
  · rename_i hnone
    rw [hnone, ← hright]
    rfl
  · rename_i root hone
    rw [hone]
    split at hright
    · rename_i n hundefined
      rw [← hright]
      simp only [hundefined]
      rfl
    · rename_i hdefined
      rw [← hright]
      simp only [hdefined]
      rfl
  · rename_i hnone hmany
    rw [← hright]
    split
    · rename_i hnil
      exact absurd hnil hnone
    · rename_i root hone
      exact absurd hone (hmany root)
    · rfl

/-- The registry answers as the grammar does. -/
structure Describes (r : Registry) (g : Grammar) : Prop where
  root_eq : r.root = .ok g.root
  productions_eq : r.productions = g.productions
  index_eq : ∀ p, r.index.get? p = g.indexOf? p
  productionsOf_eq : ∀ n, r.productionsOf n = g.productionsOf n
  nonTerminals_eq : r.nonTerminals = g.nonTerminals
  terminals_eq : r.terminals.toList = g.terminals

theorem describes_fill {g : Grammar} (hg : ofProductions written = .ok g) : (fill written).Describes g := by
  have h := holds_fill written
  rw [← productions_of_ofProductions hg] at h
  exact {
    root_eq := by
      rw [root_fill, hg]
      rfl
    productions_eq := h.productions_eq
    index_eq := h.index_eq
    productionsOf_eq := h.productionsOf_eq
    nonTerminals_eq := h.nonTerminals_eq
    terminals_eq := congrArg KeyedSet.toList h.terminals_eq }

end Registry

/-! ### What every grammar has -/

variable {g h : Grammar} {source : String}

/-- The parts of a grammar fit its list of productions. -/
structure Consistent (g : Grammar) : Prop where
  nodup : g.productions.Nodup
  indexOf?_iff : ∀ p place, g.indexOf? p = some place ↔ g.productions[place]? = some p
  productionsOf_sublist : ∀ n, (g.productionsOf n).Sublist g.productions
  mem_productionsOf : ∀ n p, p ∈ g.productionsOf n ↔ p ∈ g.productions ∧ p.name = n
  nodup_nonTerminals : g.nonTerminals.Nodup
  mem_nonTerminals : ∀ n, n ∈ g.nonTerminals ↔ ∃ p ∈ g.productions, p.name = n
  /-- Nonterminals stand in the order of their definition. -/
  ordered_nonTerminals : g.nonTerminals.Pairwise fun m n =>
    (g.productions.map Production.name).idxOf m < (g.productions.map Production.name).idxOf n
  nodup_terminals : g.terminals.Nodup
  mem_terminals : ∀ t, t ∈ g.terminals ↔ ∃ p ∈ g.productions, .terminal t ∈ p.symbols
  /-- Terminals stand in the order of their first appearance. -/
  ordered_terminals : g.terminals.Pairwise fun s t =>
    (literals g.productions).idxOf s < (literals g.productions).idxOf t
  endMarker_not_mem : .endMarker ∉ g.terminals
  symbols_ne_nil : ∀ p ∈ g.productions, p.symbols ≠ []
  productionsOf_ne_nil : ∀ p ∈ g.productions, ∀ n, .nonterminal n ∈ p.symbols → g.productionsOf n ≠ []
  root_iff : ∀ p, p ∈ g.productions ∧ p.name = .root ↔ p = g.root

theorem indexOf?_eq_some_iff {p : Production} {place : Nat} :
    g.indexOf? p = some place ↔ g.productions[place]? = some p := by
  rw [indexOf?, List.findIdx?_eq_some_iff_getElem, List.getElem?_eq_some_iff]
  constructor
  · intro h
    obtain ⟨hlt, hp, -⟩ := h
    exact ⟨hlt, eq_of_beq hp⟩
  · intro h
    obtain ⟨hlt, hp⟩ := h
    refine ⟨hlt, beq_iff_eq.2 hp, fun j hj hq => ?_⟩
    -- two places of one production would be a repeat
    have hlt' : j < g.productions.length := Nat.lt_trans hj hlt
    have hsame : g.productions[j]? = g.productions[place]? := by
      rw [List.getElem?_eq_getElem hlt', List.getElem?_eq_getElem hlt, eq_of_beq hq, hp]
    exact absurd ((List.getElem?_inj hlt' g.nodup).1 hsame) (Nat.ne_of_lt hj)

theorem WellFormed.consistent (hwell : g.WellFormed) : g.Consistent where
  nodup := g.nodup
  indexOf?_iff _ _ := indexOf?_eq_some_iff
  productionsOf_sublist _ := List.filter_sublist
  mem_productionsOf _ _ := mem_productionsOf
  nodup_nonTerminals := nodup_distinct _
  mem_nonTerminals _ := mem_nonTerminals
  ordered_nonTerminals := pairwise_idxOf_distinct _
  nodup_terminals := nodup_distinct _
  mem_terminals _ := mem_terminals
  ordered_terminals := pairwise_idxOf_distinct _
  endMarker_not_mem := by
    intro hend
    obtain ⟨p, hp, hmem⟩ := mem_terminals.1 hend
    exact (hwell p hp).endMarker_not_mem hmem
  symbols_ne_nil p hp := (hwell p hp).symbols_ne_nil
  productionsOf_ne_nil p hp n hn := by
    obtain ⟨q, hq, hname⟩ := g.defined p hp n hn
    exact List.ne_nil_of_mem (mem_productionsOf.2 ⟨hq, hname⟩)
  root_iff p := by
    constructor
    · intro h
      exact g.root_unique p h.1 h.2
    · intro h
      rw [h]
      exact ⟨g.root_mem, g.root_name⟩

/-! ### Equal grammars -/

/-- The grammars answer alike, and so does all that is computed from them. -/
structure Alike (g h : Grammar) : Prop where
  root_eq : g.root = h.root
  indexOf?_eq : ∀ p, g.indexOf? p = h.indexOf? p
  productionsOf_eq : ∀ n, g.productionsOf n = h.productionsOf n
  nonTerminals_eq : g.nonTerminals = h.nonTerminals
  terminals_eq : g.terminals = h.terminals
  first_eq : g.first = h.first
  follow_eq : g.follow g.first = h.follow h.first
  automaton_eq : Automaton.ofGrammar g = .ofGrammar h
  table_eq : ∀ policy, Table.ofGrammar policy g = Table.ofGrammar policy h

theorem alike_of_productions (heq : g.productions = h.productions) : g.Alike h := by
  obtain rfl := ext_productions heq
  exact ⟨rfl, fun _ => rfl, fun _ => rfl, rfl, rfl, rfl, rfl, rfl, fun _ => rfl⟩

/-- Entering the productions of a text one by one gives the structures that its grammar computes, and these fit the list of productions. Grammars of two texts are equal when these lists are; then the texts fill the same registry, and the grammars answer alike. -/
theorem registry_of_ofSource (hg : ofSource source = .ok g) :
    (Registry.fill (read source).productions).Describes g ∧ g.Consistent ∧
    ∀ source' h, ofSource source' = .ok h → ((g == h) = true ↔ g.productions = h.productions) ∧
      (g.productions = h.productions →
        Registry.fill (read source).productions = Registry.fill (read source').productions ∧ g.Alike h) := by
  have hwritten := ofProductions_of_ofSource hg
  refine ⟨Registry.describes_fill hwritten, (wellFormed_of_ofSource hg).consistent, fun source' h hh => ?_⟩
  refine ⟨?_, fun heq => ⟨?_, alike_of_productions heq⟩⟩
  · rw [beq_iff_eq]
    exact ⟨congrArg productions, ext_productions⟩
  · rw [productions_of_ofProductions hwritten, productions_of_ofProductions (ofProductions_of_ofSource hh)] at heq
    rw [← Registry.fill_distinct, heq, Registry.fill_distinct]

/-- A production that is written twice counts once, and a text without the repeat describes the same grammar. -/
theorem registry_of_ofSource_repeat : ∃ g h,
    ofSource "__root : @a ; a : x ; a : x ; a : y ;" = .ok g ∧ ofSource "__root : @a ; a : x ; a : y ;" = .ok h
      ∧ (Registry.fill (read "__root : @a ; a : x ; a : x ; a : y ;").productions).Describes g ∧ g.Consistent
      ∧ g.indexOf? ⟨⟨"a"⟩, [.terminal ⟨"y"⟩]⟩ = some 2 ∧ (g == h) = true ∧ g.Alike h := by
  obtain ⟨g, -, hg, -, hproductions⟩ := Table.exists_table_of_within .reject 20
    "__root : @a ; a : x ; a : x ; a : y ;"
    (P := fun g _ => g.productions = [⟨.root, [.nonterminal ⟨"a"⟩]⟩, ⟨⟨"a"⟩, [.terminal ⟨"x"⟩]⟩, ⟨⟨"a"⟩, [.terminal ⟨"y"⟩]⟩])
    (by decide +kernel)
  obtain ⟨h, -, hh, -, hproductions'⟩ := Table.exists_table_of_within .reject 20 "__root : @a ; a : x ; a : y ;"
    (P := fun g _ => g.productions = [⟨.root, [.nonterminal ⟨"a"⟩]⟩, ⟨⟨"a"⟩, [.terminal ⟨"x"⟩]⟩, ⟨⟨"a"⟩, [.terminal ⟨"y"⟩]⟩])
    (by decide +kernel)
  obtain ⟨hdescribes, hconsistent, hother⟩ := registry_of_ofSource hg
  obtain ⟨hequal, halike⟩ := hother _ h hh
  have heq : g.productions = h.productions := hproductions.trans hproductions'.symm
  exact ⟨g, h, hg, hh, hdescribes, hconsistent, (hconsistent.indexOf?_iff _ 2).2 (by rw [hproductions]; rfl),
    hequal.2 heq, (halike heq).2⟩

end Grammar

end CanonicalLR
