import CanonicalLR.Lexeme
import CanonicalLR.Production
import CanonicalLR.Table.Build

/-!
# Events of the log

What the stages of the work tell about themselves. Each kind of event has a level and one form of message.
-/

namespace CanonicalLR

inductive Level where
  | trace
  | debug
  | warn
deriving DecidableEq

namespace Level

def text : Level → String
  | trace => "TRACE"
  | debug => "DEBUG"
  | warn => "WARN"

/-- Whether a level is logged when so much verbosity is asked for. -/
def isShown (verbosity : Nat) : Level → Bool
  | warn => true
  | debug => 1 ≤ verbosity
  | trace => 2 ≤ verbosity

end Level

inductive Event where
  | repeated (production : Production)
  | unexpected (lexeme : Lexeme)
  | grammarLoaded (productions nonTerminals terminals : Nat)
  | firstFound (passes : Nat)
  | followFound (passes : Nat)
  | newState (transition : Transition)
  | knownState (transition : Transition)
  | automatonBuilt (states transitions : Nat)
  | overwritten (conflict : Conflict)
  | tableBuilt (states conflicts : Nat)
  | shifted (index : Nat) (kind : String) (target : Nat)
  | reduced (name : NonTerminal) (count exposed target : Nat)
  | accepted
  | stuck (state : Nat) (expected : List String)
deriving DecidableEq

namespace Event

def level : Event → Level
  | repeated _ | overwritten _ => .warn
  | firstFound _ | followFound _ | knownState _ | shifted .. | reduced .. => .trace
  | unexpected _ | grammarLoaded .. | newState _ | automatonBuilt .. | tableBuilt .. => .debug
  | accepted | stuck .. => .debug

def message : Event → String
  | repeated production => s!"duplicated production ignored: {production.text}"
  | unexpected lexeme => s!"unexpected {lexeme.kind.title} `{lexeme.text}` at {lexeme.location.text}"
  | grammarLoaded productions nonTerminals terminals =>
    s!"grammar loaded: {productions} productions, {nonTerminals} non-terminals, {terminals} terminals"
  | firstFound passes => s!"first sets converged after {passes} passes"
  | followFound passes => s!"follow sets converged after {passes} passes"
  | newState t => s!"new item set I_{t.target} = GOTO(I_{t.source}, {t.label.text})"
  | knownState t => s!"GOTO(I_{t.source}, {t.label.text}) = I_{t.target}"
  | automatonBuilt states transitions => s!"family built: {states} item sets, {transitions} transitions"
  | overwritten conflict => conflict.text
  | tableBuilt states conflicts => s!"table built: {states} states, {conflicts} conflicts"
  | shifted index kind target => s!"shift #{index} `{kind}`, push I_{target}"
  | reduced name count exposed target =>
    s!"reduce {name.text} by {count} symbols, GOTO(I_{exposed}, {name.text}) = I_{target}"
  | accepted => "input accepted"
  | stuck state expected =>
    s!"no action in I_{state}, expected: {Text.bracket (expected.map Text.quote)}"

end Event

end CanonicalLR
