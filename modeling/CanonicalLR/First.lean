import CanonicalLR.Grammar.Basic
import CanonicalLR.TerminalSets

/-!
# What can stand first

No production is empty, so what can stand first in a nonterminal is what can stand first in the first
symbol of one of its productions. Each production is an inclusion.
-/

namespace CanonicalLR

/-- What the first symbol brings into the set of the production's name. -/
def Production.firstInclusion? (p : Production) : Option (Inclusion NonTerminal Terminal) :=
  match p.firstSymbol? with
  | none => none
  | some (.terminal t) => some ⟨p.name, .members [t]⟩
  | some (.nonterminal n) => some ⟨p.name, .setOf n⟩

/-- The FIRST sets. -/
def Grammar.first (g : Grammar) : TerminalSets :=
  .ofSolution g.nonTerminals (solve (g.productions.filterMap Production.firstInclusion?))

end CanonicalLR
