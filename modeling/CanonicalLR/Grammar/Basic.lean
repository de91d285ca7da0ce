import CanonicalLR.Collection.Distinct
import CanonicalLR.Error
import CanonicalLR.Production

/-!
# Grammars

A grammar is a list of different productions in which exactly one production belongs to the root and
every nonterminal that is referred to has a production. The productions determine the rest, so grammars
are equal when their productions are (`ext_productions`). Nonterminals count in the order of their
definition and terminals in the order of their first appearance.
-/

namespace CanonicalLR

structure Grammar where
  productions : List Production
  root : Production
  nodup : productions.Nodup
  root_mem : root ∈ productions
  root_name : root.name = .root
  root_unique : ∀ p ∈ productions, p.name = .root → p = root
  defined : ∀ p ∈ productions, ∀ n, .nonterminal n ∈ p.symbols → ∃ q ∈ productions, q.name = n

namespace Grammar

/-- The nonterminals that the productions refer to, in order. -/
def references (productions : List Production) : List NonTerminal :=
  productions.flatMap fun p => p.symbols.filterMap Symbol.nonterminal?

def undefined? (productions : List Production) : Option NonTerminal :=
  (references productions).find? fun n => !productions.any (·.name == n)

theorem defined_of_undefined?_eq_none {productions : List Production} (h : undefined? productions = none) :
    ∀ p ∈ productions, ∀ n, .nonterminal n ∈ p.symbols → ∃ q ∈ productions, q.name = n := by
  intro p hp n hn
  have hmem : n ∈ references productions :=
    List.mem_flatMap.2 ⟨p, hp, List.mem_filterMap.2 ⟨_, hn, rfl⟩⟩
  have := List.find?_eq_none.1 h n hmem
  simpa using this

/-- The grammar with the given productions, of which repeats count once. The root is looked for before
the references are. -/
def ofProductions (written : List Production) : Except GrammarError Grammar :=
  let productions := distinct written
  match hroots : productions.filter (·.name.isRoot) with
  | [] => .error .rootNotFound
  | [root] =>
    match hundefined : undefined? productions with
    | some n => .error (.undefinedNonTerminal n)
    | none => .ok {
        productions, root
        nodup := nodup_distinct written
        root_mem := (List.mem_filter.1 (hroots ▸ List.mem_singleton_self root)).1
        root_name := by
          have := (List.mem_filter.1 (hroots ▸ List.mem_singleton_self root :
            root ∈ productions.filter (·.name.isRoot))).2
          simpa [NonTerminal.isRoot] using this
        root_unique := fun p hp hname => List.mem_singleton.1
          (hroots ▸ List.mem_filter.2 ⟨hp, by simp [NonTerminal.isRoot, hname]⟩)
        defined := defined_of_undefined?_eq_none hundefined }
  | roots => .error (.multipleRoots roots.length)

def indexOf? (g : Grammar) (p : Production) : Option Nat := g.productions.findIdx? (· == p)

/-- The productions of one nonterminal, in order. -/
def productionsOf (g : Grammar) (n : NonTerminal) : List Production := g.productions.filter (·.name == n)

def nonTerminals (g : Grammar) : List NonTerminal := distinct (g.productions.map Production.name)

def terminals (g : Grammar) : List Terminal :=
  distinct (g.productions.flatMap fun p => p.symbols.filterMap Symbol.terminal?)

theorem mem_productionsOf {g : Grammar} {n : NonTerminal} {p : Production} :
    p ∈ g.productionsOf n ↔ p ∈ g.productions ∧ p.name = n := by
  simp [productionsOf]

theorem mem_nonTerminals {g : Grammar} {n : NonTerminal} :
    n ∈ g.nonTerminals ↔ ∃ p ∈ g.productions, p.name = n := by
  simp [nonTerminals]

theorem mem_terminals {g : Grammar} {t : Terminal} :
    t ∈ g.terminals ↔ ∃ p ∈ g.productions, .terminal t ∈ p.symbols := by
  simp only [terminals, mem_distinct, List.mem_flatMap, List.mem_filterMap]
  refine exists_congr fun p => and_congr_right fun _ => ⟨?_, fun h => ⟨_, h, rfl⟩⟩
  rintro ⟨s, hs, ht⟩
  cases s with
  | terminal t' => exact Option.some.inj ht ▸ hs
  | nonterminal n => exact absurd ht (by simp [Symbol.terminal?])

theorem ext_productions {g h : Grammar} (heq : g.productions = h.productions) : g = h := by
  have hroot : g.root = h.root := h.root_unique _ (heq ▸ g.root_mem) g.root_name
  obtain ⟨_, _, _, _, _, _, _⟩ := g
  obtain ⟨_, _, _, _, _, _, _⟩ := h
  simp only at heq hroot
  subst heq hroot
  rfl

instance : DecidableEq Grammar := fun g h =>
  if heq : g.productions = h.productions then .isTrue (ext_productions heq)
  else .isFalse fun hgh => heq (congrArg productions hgh)

end Grammar

end CanonicalLR
