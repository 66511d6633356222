/-!
# Command line arguments

The program is started with the name of an input and with options. A long option has its value in
the next argument or behind an equals sign. Short options can share one argument; the first of them
that has a value takes the rest of the argument, with or without an equals sign, or else the next
argument. A value in an argument of its own does not start with a dash, unless it is the dash
alone. Behind an argument that is two dashes there are inputs only.

Only the request for more detail may be repeated. Names of files are not empty.
-/

namespace IrRecords.Command

/-- What the arguments ask for. -/
structure Arguments where
  input? : Option String
  output? : Option String
  function? : Option String
  pretty : Bool
  pass? : Option String
  listPasses : Bool
  /-- How often more detail is asked for. -/
  verbosity : Nat
  deriving Repr, DecidableEq

namespace Arguments

/-- Nothing is asked for. -/
def none : Arguments := ⟨.none, .none, .none, false, .none, false, 0⟩

end Arguments

/-- Options without a value. -/
inductive Flag where
  | pretty | listPasses | verbose
  deriving Repr, DecidableEq

/-- Options with a value. -/
inductive Setting where
  | output | function | pass
  deriving Repr, DecidableEq

/-- An option of either kind. -/
inductive Switch where
  | flag (f : Flag)
  | setting (s : Setting)
  deriving Repr, DecidableEq

/-- The option that a word behind two dashes names. -/
def longSwitch? : String → Option Switch
  | "pretty" => some (.flag .pretty)
  | "list-passes" => some (.flag .listPasses)
  | "verbose" => some (.flag .verbose)
  | "output" => some (.setting .output)
  | "function" => some (.setting .function)
  | "pass" => some (.setting .pass)
  | _ => none

/-- The option that a character behind one dash names. -/
def shortSwitch? : Char → Option Switch
  | 'v' => some (.flag .verbose)
  | 'o' => some (.setting .output)
  | 'f' => some (.setting .function)
  | _ => none

namespace Arguments

/-- Takes a flag; `none` if it must not be repeated and is. -/
def setFlag (a : Arguments) : Flag → Option Arguments
  | .pretty => if a.pretty then .none else some { a with pretty := true }
  | .listPasses => if a.listPasses then .none else some { a with listPasses := true }
  | .verbose => some { a with verbosity := a.verbosity + 1 }

/-- Takes the value of an option; `none` if the option is repeated or the value is not allowed. -/
def setValue (a : Arguments) (value : String) : Setting → Option Arguments
  | .output =>
    if a.output?.isSome || value.isEmpty then .none else some { a with output? := some value }
  | .function => if a.function?.isSome then .none else some { a with function? := some value }
  | .pass => if a.pass?.isSome then .none else some { a with pass? := some value }

/-- Takes the name of the input; `none` if there is one already or the name is empty. -/
def setInput (a : Arguments) (value : String) : Option Arguments :=
  if a.input?.isSome || value.isEmpty then .none else some { a with input? := some value }

end Arguments

/-- The forms of an argument. -/
inductive Form where
  /-- Two dashes. -/
  | separator
  /-- A long option, and the value behind its equals sign. -/
  | long (name : String) (value? : Option String)
  /-- Short options. -/
  | short (cluster : List Char)
  | plain (value : String)
  deriving Repr, DecidableEq

/-- The parts of a long option. -/
def splitLong (cs : List Char) : Form :=
  let name := String.ofList (cs.takeWhile (· != '='))
  match cs.dropWhile (· != '=') with
  | [] => .long name none
  | _ :: value => .long name (some (String.ofList value))

/-- The form of an argument. -/
def formOf (argument : String) : Form :=
  match argument.toList with
  | ['-', '-'] => .separator
  | '-' :: '-' :: cs => splitLong cs
  | '-' :: c :: cs => .short (c :: cs)
  | _ => .plain argument

/-- Takes a cluster of short options. Answers the option that still needs the next argument. -/
def takeCluster (a : Arguments) : List Char → Option (Arguments × Option Setting)
  | [] => some (a, none)
  | c :: cs =>
    match shortSwitch? c with
    | none => none
    | some (.flag f) => a.setFlag f >>= (takeCluster · cs)
    | some (.setting s) =>
      match cs with
      | [] => some (a, some s)
      -- One equals sign in front of the value is no part of it.
      | '=' :: value => (a.setValue (String.ofList value) s).map (·, none)
      | value => (a.setValue (String.ofList value) s).map (·, none)

/-- Takes one argument, in front of two dashes. Answers the option that still needs the next
argument. -/
def takeForm (a : Arguments) : Form → Option (Arguments × Option Setting)
  | .separator => none
  | .plain value => (a.setInput value).map (·, none)
  | .short cluster => takeCluster a cluster
  | .long name value? =>
    match longSwitch? name, value? with
    | some (.flag f), none => (a.setFlag f).map (·, none)
    | some (.setting s), some value => (a.setValue value s).map (·, none)
    | some (.setting s), none => some (a, some s)
    | _, _ => none

/-- Takes the arguments one after the other; `pending?` is the option whose value comes next. -/
def takeAll (a : Arguments) (pending? : Option Setting) : List String → Option Arguments
  | [] => if pending?.isSome then none else some a
  | argument :: rest =>
    match pending?, formOf argument with
    | some s, .plain value => a.setValue value s >>= (takeAll · none rest)
    | some _, _ => none
    -- Behind two dashes arguments are inputs, also those that start with a dash.
    | none, .separator => rest.foldlM Arguments.setInput a
    | none, form =>
      match takeForm a form with
      | none => none
      | some (a, pending?) => takeAll a pending? rest

/-- What a row of arguments asks for; `none` if it cannot be understood. An input is needed unless
only the passes are to be listed. -/
def parseArguments (arguments : List String) : Option Arguments :=
  match takeAll .none none arguments with
  | none => none
  | some a => if a.input?.isNone && !a.listPasses then none else some a

end IrRecords.Command
