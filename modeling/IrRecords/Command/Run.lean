import IrRecords.Command.Arguments
import IrRecords.Command.Directory
import IrRecords.Extract
import IrRecords.Pass.Registry
import IrRecords.Text.ControlSequence

/-!
# The command

The command reads one source text and runs one registered pass on it. Nothing is created before
the text has been read without a fault, so a command that fails leaves the files as they are. The
documents go to the output file or, if none is given, to the error stream, where they stand among
the entries that are shown there.

What the command asks of the files around it are two questions, the text at a path and whether a
file can be created there (`Files`). From the answers and the arguments follows everything that it
leaves behind: an exit code, the file it creates, and what it wrote to both streams (`report`).
-/

namespace IrRecords.Command

/-- Why the command fails. -/
inductive CommandFault where
  | unknownPass (name : String)
  | unreadable (path : String) (cause : FileFault)
  | unparsable (path : String) (cause : Diagnostic)
  | uncreatable (path : String) (cause : FileFault)
  | failed (cause : PassFault)
  deriving Repr, DecidableEq

/-- The fault and its causes in words, the fault first. -/
def CommandFault.chain : CommandFault → List String
  | unknownPass name => [s!"unknown pass '{name}'"]
  | unreadable path cause => [s!"failed to read {path}", cause.message]
  | unparsable path cause => [s!"failed to parse {path}", cause.message]
  | uncreatable path cause => [s!"failed to create {path}", cause.message]
  | failed cause => "extraction failed" :: cause.chain

/-! ## What is shown -/

/-- A text with blanks behind each of its line breaks. -/
def indentLines (blanks : Nat) (text : String) : String :=
  String.ofList (text.toList.flatMap fun c =>
    if c = '\n' then '\n' :: List.replicate blanks ' ' else [c])

/-- A text filled up with blanks on the right. -/
def padRight (width : Nat) (text : String) : String :=
  String.ofList (text.toList ++ List.replicate (width - text.length) ' ')

/-- A text filled up with blanks on the left. -/
def padLeft (width : Nat) (text : String) : String :=
  String.ofList (List.replicate (width - text.length) ' ' ++ text.toList)

/-- The causes of a failure, one below the other; several of them are numbered. -/
def causeText : List String → String
  | [] => ""
  | [cause] => "\n\nCaused by:\n    " ++ indentLines 4 cause
  | causes =>
    "\n\nCaused by:" ++ String.join (causes.mapIdx fun i cause =>
      "\n" ++ padLeft 5 (toString i) ++ ": " ++ indentLines 7 cause)

/-- A failure with its causes. -/
def failureText : List String → String
  | [] => ""
  | first :: causes => "Error: " ++ first ++ causeText causes ++ "\n"

/-- An entry on the error stream. Without a request for more detail the continuation lines of a
message are indented. -/
def entryText (verbosity : Nat) (e : Entry) : String :=
  let level := padRight 5 e.level.name
  if verbosity = 0 then s!"[{level} {e.part.name}] " ++ indentLines 4 e.message ++ "\n"
  else s!"[{level}] {e.part.name} - {e.message}\n"

/-- What an event leaves on the error stream; `echo` tells whether documents go there. Entries are
stripped of control sequences, each by itself, so that a sequence without an end takes no more than
the rest of its own entry. Documents are written as they are. -/
def eventBytes (verbosity : Nat) (echo : Bool) : Event → List UInt8
  | .told e =>
    if e.level.shownAt (.ofVerbosity verbosity) then
      Utf8.encode (Text.shown (entryText verbosity e).toList)
    else []
  | .wrote bytes => if echo then bytes else []

/-- One line of the list of passes. -/
def registrationLine (r : Registration) : String :=
  padRight 16 r.arg ++ " " ++ r.description ++ "\n"

/-! ## Running -/

/-- What the command asks of the files around it. -/
structure Files where
  /-- The text at a path. -/
  read : String → Except FileFault String
  /-- Whether a file can be created or replaced at a path. -/
  create : String → Except FileFault Unit

/-- What happens between the arguments and the end of the command. -/
structure Course where
  events : List Event
  /-- The path and the bytes of the file that is created. -/
  created? : Option (String × List UInt8)
  result : Except CommandFault Unit

/-- The course of a command that fails before it creates anything. -/
def Course.failed (events : List Event) (fault : CommandFault) : Course :=
  ⟨events, none, .error fault⟩

/-- The same course after other events. -/
def Course.behind (events : List Event) (c : Course) : Course :=
  { c with events := events ++ c.events }

/-- An entry of the command itself. -/
def note (message : String) : Event := .told ⟨.info, .command, message⟩

/-- The run of a registered pass on a module, and what it writes. -/
def runPass (a : Arguments) (r : Registration) (mod : Module) : IrRecords.Run Sink × List UInt8 :=
  let sink := Sink.unbounded
  let run := ((Manager.empty.withFilter a.function?).add (r.create a.pretty sink)).run mod
  (run, ((run.manager.passes.head?.map Pass.state).getD sink).content)

/-- Runs a registered pass on a module and creates the output. -/
def process (files : Files) (a : Arguments) (r : Registration) (mod : Module) : Course :=
  let (run, content) := runPass a r mod
  match a.output? with
  | none =>
    match run.result with
    | .error fault => .failed run.events (.failed fault)
    | .ok _ => ⟨run.events, none, .ok ()⟩
  | some path =>
    -- The output is created before the pass is run, so without it nothing is told of a run.
    match files.create path with
    | .error fault => .failed [] (.uncreatable path fault)
    | .ok () =>
      match run.result with
      -- What the pass wrote before it failed stays in the output.
      | .error fault => ⟨run.events, some (path, content), .error (.failed fault)⟩
      | .ok _ => ⟨run.events ++ [note s!"wrote {path}"], some (path, content), .ok ()⟩

/-- Reads the source text at a path and runs a registered pass on it. -/
def load (files : Files) (a : Arguments) (r : Registration) (path : String) : Course :=
  let reading := [note s!"reading {path}"]
  match files.read path with
  | .error fault => .failed reading (.unreadable path fault)
  | .ok source =>
    let parsing := Module.read source
    let told := reading ++ parsing.log.map .told
    match parsing.result with
    | .error diagnostic => .failed told (.unparsable path diagnostic)
    | .ok mod => (process files a r mod).behind told

/-- What the command does with an input. -/
def course (files : Files) (a : Arguments) (path : String) : Course :=
  let name := a.pass?.getD Extractor.name
  match Registration.find? name with
  | none => .failed [] (.unknownPass name)
  | some r => load files a r path

/-- What can be seen of the command from outside. -/
structure Report where
  exit : Nat
  /-- The path and the bytes of the file that is created. -/
  created? : Option (String × List UInt8)
  out : List UInt8
  err : List UInt8
  deriving Repr, DecidableEq

/-- The report of a command that has run its course. -/
def Course.report (c : Course) (a : Arguments) : Report :=
  let shown := c.events.flatMap (eventBytes a.verbosity a.output?.isNone)
  match c.result with
  | .ok () => ⟨0, c.created?, [], shown⟩
  | .error fault =>
    ⟨1, c.created?, [], shown ++ Utf8.encode (failureText fault.chain).toList⟩

/-- The list of the registered passes. -/
def passList : String := String.join (Registration.all.map registrationLine)

/-- Runs the command. Arguments that cannot be understood have the exit code 2. -/
def report (files : Files) (arguments : List String) : Report :=
  match parseArguments arguments with
  | none => ⟨2, none, [], []⟩
  | some a =>
    if a.listPasses then ⟨0, none, Utf8.encode passList.toList, []⟩
    else
      match a.input? with
      | none => ⟨2, none, [], []⟩
      | some path => (course files a path).report a

/-! ## In a directory -/

/-- The files of a directory, as the command sees them. -/
def Directory.access (d : Directory) : Files :=
  ⟨d.readText, fun path => (d.target path).map fun _ => ()⟩

/-- Everything that the command leaves behind. -/
structure Outcome where
  exit : Nat
  directory : Directory
  out : List UInt8
  err : List UInt8
  deriving Repr, DecidableEq

/-- Runs the command in a directory. -/
def run (arguments : List String) (d : Directory) : Outcome :=
  let r := report d.access arguments
  let directory :=
    match r.created? with
    | none => d
    | some (path, bytes) => d.write path bytes
  ⟨r.exit, directory, r.out, r.err⟩

end IrRecords.Command
