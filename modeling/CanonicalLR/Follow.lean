import CanonicalLR.First

/-!
# What can stand behind

A nonterminal is followed by the symbol that stands behind it in a production, or by what can stand first
in that symbol, or, at the end of a production, by all that follows the production's own name. Each
occurrence of a nonterminal is an inclusion. The end of input is in no set.
-/

namespace CanonicalLR

namespace Follow

/-- What an occurrence of `n` in a production of `head` says, where `next` stands behind it. -/
def inclusion (first : TerminalSets) (head n : NonTerminal) (next : Option Symbol) :
    Inclusion NonTerminal Terminal :=
  ⟨n, match next with
    | none => .setOf head
    | some (.terminal t) => .members [t]
    | some (.nonterminal m) => .members ((first.get? m).getD [])⟩

/-- The inclusions of the occurrences in a list of symbols, in order. -/
def inclusionsOf (first : TerminalSets) (head : NonTerminal) :
    List Symbol → List (Inclusion NonTerminal Terminal)
  | [] => []
  | .terminal _ :: rest => inclusionsOf first head rest
  | .nonterminal n :: rest => inclusion first head n rest.head? :: inclusionsOf first head rest

def inclusions (first : TerminalSets) (productions : List Production) :
    List (Inclusion NonTerminal Terminal) :=
  productions.flatMap fun p => inclusionsOf first p.name p.symbols

end Follow

/-- The FOLLOW sets, from the FIRST sets. -/
def Grammar.follow (g : Grammar) (first : TerminalSets) : TerminalSets :=
  .ofSolution g.nonTerminals (solve (Follow.inclusions first g.productions))

end CanonicalLR
