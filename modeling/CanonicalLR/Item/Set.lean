import CanonicalLR.Collection.SortedSet
import CanonicalLR.Item.Basic

/-!
# Sets of items

A set of items is kept in the order of its items, so equal sets have equal lists. The items of one
nonterminal stand together in it.
-/

namespace CanonicalLR

abbrev ItemSet := SortedSet Item

namespace ItemSet

/-- The items whose production belongs to `n`. -/
def itemsOf (s : ItemSet) (n : NonTerminal) : List Item := s.toList.filter (·.production.name == n)

/-- The symbols behind the dots, in order: those on which the set has a successor. -/
def pending (s : ItemSet) : SortedSet Symbol := .ofList (s.toList.filterMap Item.current?)

def inspect (s : ItemSet) : String :=
  "ItemSet \x7b items: " ++ Text.bracket (s.toList.map Item.inspect) ++ " \x7d"

theorem mem_pending {s : ItemSet} {x : Symbol} : x ∈ s.pending ↔ ∃ i ∈ s, i.current? = some x := by
  rw [pending, SortedSet.mem_ofList, List.mem_filterMap]
  rfl

end ItemSet

end CanonicalLR
