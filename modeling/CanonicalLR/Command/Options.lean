/-!
# Arguments of the command

The command has two flags, `--strict` and `--sets`, an option with a value, `-t` or `--tokens`, and
`-v` or `--verbose`, which can be given many times. Short options can be joined, and the value of `-t`
can be joined to it, also behind a `=`. A value that is an argument of its own must not look like an
option. Nothing but `-v` may be repeated, and nothing else is accepted.
-/

namespace CanonicalLR

structure Options where
  strict : Bool := false
  sets : Bool := false
  tokens : Option String := none
  verbosity : Nat := 0
deriving DecidableEq

namespace Options

def setStrict (o : Options) : Option Options := if o.strict then none else some { o with strict := true }

def setSets (o : Options) : Option Options := if o.sets then none else some { o with sets := true }

def setTokens (o : Options) (value : String) : Option Options :=
  if o.tokens.isSome then none else some { o with tokens := some value }

def addVerbosity (o : Options) : Options := { o with verbosity := o.verbosity + 1 }

/-- What reading one argument comes to: options, or options that the next argument gives a value. -/
inductive Reading where
  | done (options : Options)
  | tokensNext (options : Options)

/-- The short options of one argument. -/
def readCluster (o : Options) : List Char → Option Reading
  | [] => some (.done o)
  | 'v' :: rest => readCluster o.addVerbosity rest
  | ['t'] => some (.tokensNext o)
  | 't' :: '=' :: value => (o.setTokens (String.ofList value)).map .done
  | 't' :: value => (o.setTokens (String.ofList value)).map .done
  | _ => none

/-- The long option with a name, and the value behind its `=` if there is one. -/
def readLong (o : Options) (name : String) (value : Option String) : Option Reading :=
  match name, value with
  | "strict", none => o.setStrict.map .done
  | "sets", none => o.setSets.map .done
  | "verbose", none => some (.done o.addVerbosity)
  | "tokens", none => some (.tokensNext o)
  | "tokens", some text => (o.setTokens text).map .done
  | _, _ => none

/-- One argument; a lone hyphen is no option. -/
def readArgument (o : Options) (argument : String) : Option Reading :=
  match argument.toList with
  | '-' :: '-' :: long =>
    let name := String.ofList (long.takeWhile (· != '='))
    match long.dropWhile (· != '=') with
    | [] => readLong o name none
    | _ :: value => readLong o name (some (String.ofList value))
  | '-' :: c :: rest => readCluster o (c :: rest)
  | _ => none

/-- Whether an argument can be the value of the option before it. -/
def isValue (argument : String) : Bool := argument == "-" || argument.toList.head? != some '-'

/-- Reads the arguments on top of options that are set already; a last `--` is allowed and says nothing. -/
def readFrom (o : Options) : List String → Option Options
  | [] => some o
  | ["--"] => some o
  | argument :: rest =>
    match readArgument o argument with
    | none => none
    | some (.done o) => readFrom o rest
    | some (.tokensNext o) =>
      match rest with
      | [] => none
      | value :: rest => if isValue value then (o.setTokens value).bind (readFrom · rest) else none

/-- The options that the arguments stand for, unless they are refused. -/
def ofArguments (arguments : List String) : Option Options := readFrom {} arguments

end Options

end CanonicalLR
