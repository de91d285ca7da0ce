import CanonicalLR.Command.Report

/-!
# The command

Reads a grammar from the standard input and writes the report on it. The log goes to the standard error,
down to the level that the arguments ask for. The exit code tells a failure (1) and refused arguments (2)
from success.
-/

namespace CanonicalLR

def usage : String := "usage: [--strict] [--sets] [-v | --verbose]... [-t TOKENS | --tokens TOKENS]"

/-- Runs the command and gives its exit code. -/
def runCommand (arguments : List String) : IO UInt32 := do
  match Options.ofArguments arguments with
  | none =>
    IO.eprintln usage
    return 2
  | some options =>
    let source ← (← IO.getStdin).readToEnd
    for event in (options.session.ofSource source).1 do
      if event.level.isShown options.verbosity then IO.eprintln s!"{event.level.text} {event.message}"
    let report := Report.ofSource options source
    IO.print report.output
    match report.failure with
    | none => return 0
    | some failure =>
      IO.eprintln s!"Error: {failure.inspect}"
      return 1

end CanonicalLR

def main (arguments : List String) : IO UInt32 := CanonicalLR.runCommand arguments
