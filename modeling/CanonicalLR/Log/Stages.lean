import CanonicalLR.Follow
import CanonicalLR.Log.Event
import CanonicalLR.Parser.Run

/-!
# The log of a whole session

The events of each stage are read off the stage's result, so a result and its log cannot disagree. A
session reads a grammar, computes its sets if that is asked for, builds the automaton and the table, and
parses an input if there is one; the log stops where the session does.
-/

namespace CanonicalLR

/-- The productions of a list that were seen before they stand in it, in order. -/
def repeatsAfter (seen : KeyedSet (id : Production → Production)) : List Production → List Production
  | [] => []
  | p :: rest => if seen.contains p then p :: repeatsAfter seen rest else repeatsAfter (seen.insert p) rest

def Grammar.Reading.events (reading : Grammar.Reading) : List Event :=
  (repeatsAfter .empty reading.productions).map .repeated ++
    match reading.fault with
    | some fault => [.unexpected fault.lexeme]
    | none => []

def Grammar.events (g : Grammar) : List Event :=
  [.grammarLoaded g.productions.length g.nonTerminals.length g.terminals.length]

def Grammar.setEvents (g : Grammar) : List Event :=
  [.firstFound g.first.passes, .followFound (g.follow g.first).passes]

/-- The events of transitions when `known` states have been numbered: a transition to the next free number
found a new state. -/
def transitionEvents (known : Nat) : List Transition → List Event
  | [] => []
  | t :: rest =>
    if t.target = known then .newState t :: transitionEvents (known + 1) rest
    else .knownState t :: transitionEvents known rest

def Automaton.events (a : Automaton) : List Event :=
  transitionEvents 1 a.transitions.toList ++ [.automatonBuilt a.size a.transitions.size]

def Table.events (t : Table) : List Event :=
  t.conflicts.map .overwritten ++ [.tableBuilt t.size t.conflicts.length]

def Move.event : Move → Event
  | .shift index kind target => .shifted index kind target
  | .reduce name count exposed target => .reduced name count exposed target

/-- The event of an outcome reached in a state. -/
def Outcome.events (state : Nat) : Outcome → List Event
  | .accepted _ => [.accepted]
  | .rejected (.unexpectedToken _ _ _ expected) => [.stuck state expected]
  | .rejected (.unexpectedEnd expected) => [.stuck state expected]
  | .rejected (.missingGoto ..) => []
  | .broken _ => []

def Run.events (r : Run) : List Event :=
  r.moves.map Move.event ++ r.outcome.elim [] (Outcome.events r.last.state)

/-- What a session does beside building a table. -/
structure Session where
  policy : ConflictPolicy := .overwrite
  sets : Bool := false
  tokens : Option (List Token) := none

/-- The table of a session, with the run on its tokens. -/
structure Session.Result where
  table : Table
  run : Option Run

namespace Session

/-- Parses the tokens of the session with a table. -/
def withTable (s : Session) (t : Table) : List Event × Result :=
  match s.tokens with
  | none => ([], ⟨t, none⟩)
  | some tokens =>
    let run := t.parse tokens
    (run.events, ⟨t, some run⟩)

/-- The session from the grammar on: its log and its result. -/
def withGrammar (s : Session) (g : Grammar) : List Event × Except GrammarError Result :=
  let first := g.first
  let automaton := Automaton.build g first
  let before := (if s.sets then g.setEvents else []) ++ .firstFound first.passes :: automaton.events
  match Table.build s.policy automaton g with
  | .error e => (before, .error e)
  | .ok table =>
    let (after, result) := s.withTable table
    (before ++ table.events ++ after, .ok result)

/-- The log and the result of the session on a grammar text. -/
def ofSource (s : Session) (source : String) : List Event × Except GrammarError Result :=
  let reading := Grammar.read source
  match reading.grammar with
  | .error e => (reading.events, .error e)
  | .ok g =>
    let (events, result) := s.withGrammar g
    (reading.events ++ g.events ++ events, result)

end Session

end CanonicalLR
