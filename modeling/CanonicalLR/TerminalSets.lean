import CanonicalLR.Collection.OrderedMap
import CanonicalLR.Fixpoint.Relaxation
import CanonicalLR.Symbol

/-!
# A set of terminals for each nonterminal

FIRST and FOLLOW both give every nonterminal of a grammar a set of terminals, and both are the least sets
of which certain inclusions are true. Sets list their terminals in the order in which they were added.
-/

namespace CanonicalLR

abbrev TerminalSet := KeyedSet (id : Terminal → Terminal)

structure TerminalSets where
  sets : OrderedMap NonTerminal TerminalSet
  /-- How many passes the relaxation took. -/
  passes : Nat

namespace TerminalSets

def get? (s : TerminalSets) (n : NonTerminal) : Option (List Terminal) :=
  (s.sets.get? n).map KeyedSet.toList

/-- The nonterminals with their terminals, in order. -/
def entries (s : TerminalSets) : List (NonTerminal × List Terminal) :=
  s.sets.entries.map fun (n, terminals) => (n, terminals.toList)

/-- The terminals of all sets. -/
def all (s : TerminalSets) : List Terminal := s.entries.flatMap Prod.snd

theorem mem_all_of_get? {s : TerminalSets} {n : NonTerminal} {terminals : List Terminal} {t : Terminal}
    (h : s.get? n = some terminals) (ht : t ∈ terminals) : t ∈ s.all := by
  obtain ⟨set, hset, rfl⟩ := Option.map_eq_some_iff.1 h
  exact List.mem_flatMap.2 ⟨_, List.mem_map_of_mem (OrderedMap.get?_eq_some_iff.1 hset), ht⟩

/-- The sets of the given nonterminals in a solution. -/
def ofSolution (names : List NonTerminal) (s : Solution NonTerminal Terminal) : TerminalSets :=
  ⟨.tabulate names s.sets.get, s.passes⟩

theorem get?_ofSolution (names : List NonTerminal) (s : Solution NonTerminal Terminal) (n : NonTerminal) :
    (ofSolution names s).get? n = if n ∈ names then some (s.sets.get n).toList else none := by
  rw [get?, ofSolution, OrderedMap.get?_tabulate]
  split <;> rfl

theorem isSome_get?_ofSolution {names : List NonTerminal} {s : Solution NonTerminal Terminal} {n : NonTerminal} :
    ((ofSolution names s).get? n).isSome ↔ n ∈ names := by
  rw [get?_ofSolution]
  split <;> simp [*]

theorem mem_get?_ofSolution_solve {names : List NonTerminal} {inclusions : List (Inclusion NonTerminal Terminal)}
    {n : NonTerminal} {t : Terminal} :
    (∃ terminals, (ofSolution names (solve inclusions)).get? n = some terminals ∧ t ∈ terminals)
      ↔ n ∈ names ∧ Included inclusions n t := by
  rw [get?_ofSolution, ← mem_solve_iff]
  split <;> simp [*]

/-- The same nonterminals with the same sets, whatever the order. -/
def agrees (a b : TerminalSets) : Bool :=
  OrderedMap.agrees (fun s t => s.size == t.size && s.toList.all (t.contains ·)) a.sets b.sets

end TerminalSets

end CanonicalLR
