import CanonicalLR.Command.Options
import CanonicalLR.Log.Stages
import CanonicalLR.Table.Markdown

/-!
# The report of the command

The report lists the productions, the FIRST and FOLLOW sets if they are asked for, the item sets with
their successors, the table with its conflicts, and the tree of an input. It stops at the first failure,
and what was written before it stays.
-/

namespace CanonicalLR

namespace Options

def policy (o : Options) : ConflictPolicy := if o.strict then .reject else .overwrite

/-- The session whose log goes with the report. -/
def session (o : Options) : Session where
  policy := o.policy
  sets := o.sets
  tokens := o.tokens.map Token.ofWords

end Options

structure Report where
  output : String
  failure : Option Failure
deriving DecidableEq

namespace Report

def line (text : String) : String := text ++ "\n"

/-- The numbers of the productions are right-aligned in four columns. -/
def numberField : Text.Field := { width := 4 }

def productions (g : Grammar) : String :=
  String.join (g.productions.zipIdx.map fun (p, index) =>
    line (numberField.padNumber index ++ " " ++ p.text)) ++ line ""

/-- One line for each nonterminal, each under the given heading. -/
def terminalSets (heading : String) (s : TerminalSets) : String :=
  String.join (s.entries.map fun (n, terminals) =>
    line (heading ++ "(" ++ n.text ++ ") = \x7b " ++ String.intercalate ", " (terminals.map Terminal.text)
      ++ " \x7d"))

def sets (g : Grammar) : String :=
  terminalSets "FIRST" g.first ++ terminalSets "FOLLOW" (g.follow g.first) ++ line ""

def state (a : Automaton) (number : Nat) (s : ItemSet) : String :=
  let gotos := (a.gotos number).map fun (x, target) => line s!"I_{number} -- {x.text} --> I_{target}"
  line s!"I_{number}:" ++ String.join (s.toList.map fun i => line i.text)
    ++ line "gotos:" ++ String.join gotos ++ line ""

def states (a : Automaton) : String :=
  String.join (a.states.toList.zipIdx.map fun (s, number) => state a number s)

def conflict (c : Conflict) : String :=
  line s!"conflict: I_{c.state} on `{c.symbol.text}`: {c.previous.text} replaced by {c.replacement.text}"

def table (t : Table) : String :=
  line "--- Table ---" ++ line t.markdown ++ String.join (t.conflicts.map conflict)

/-- What is written of an input. A run without a tree leaves its error as the failure. -/
def input (t : Table) (words : String) : Report :=
  match (t.parse (Token.ofWords words)).outcome with
  | some (.accepted tree) => ⟨line "" ++ line tree.text, none⟩
  | some (.rejected error) => ⟨line "", some (.input error)⟩
  | _ => ⟨line "", none⟩

/-- The report on a grammar. -/
def ofGrammar (o : Options) (g : Grammar) : Report :=
  let automaton := Automaton.ofGrammar g
  let before := productions g ++ (if o.sets then sets g else "") ++ states automaton
  match Table.build o.policy automaton g with
  | .error e => ⟨before, some (.grammar e)⟩
  | .ok t =>
    let after := o.tokens.elim ⟨"", none⟩ (input t)
    ⟨before ++ table t ++ after.output, after.failure⟩

/-- The report on a grammar text. -/
def ofSource (o : Options) (source : String) : Report :=
  match Grammar.ofSource source with
  | .error e => ⟨"", some (.grammar e)⟩
  | .ok g => ofGrammar o g

end Report

end CanonicalLR
