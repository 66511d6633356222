import IrRecords.Module.Reader
import IrRecords.Pass.Extractor
import IrRecords.Pass.Manager

/-!
# From source texts to documents

The two ways to use the library. `extract` answers the records of a source text, `write` writes
their documents to a sink by running the extractor. Both read the whole text before anything else
happens, so that a text with a fault has no records and writes nothing.
-/

namespace IrRecords

/-- What is extracted and how it is written. -/
structure ExtractOptions where
  /-- The name of the one function to extract; `none` for all of them. -/
  function? : Option String
  /-- Whether documents are indented. -/
  pretty : Bool
  deriving Repr, DecidableEq

/-- Why an extraction fails. -/
inductive ExtractFault where
  /-- The source text has a fault. -/
  | unreadable (d : Diagnostic)
  /-- A pass failed. -/
  | pass (fault : PassFault)
  deriving Repr, DecidableEq

/-- The fault and its causes in words, the fault first. -/
def ExtractFault.chain : ExtractFault → List String
  | unreadable d => ["failed to parse IR module", d.message]
  | pass fault => fault.chain

/-- Whether the options ask for a function of this name. -/
def ExtractOptions.selects (o : ExtractOptions) (name : String) : Bool :=
  match o.function? with
  | none => true
  | some wanted => wanted == name

/-- The record of a function that is known to have no dangling places. -/
def recordOf (f : Function) : Except ExtractFault Record.Function :=
  match f.record? with
  | some record => .ok record
  | none => .error (.pass (.dangling f.name))

/-- The records of the definitions in a source text, in the order of the text. -/
def extract (source : String) (o : ExtractOptions) : Except ExtractFault (List Record.Function) :=
  match (Module.read source).result with
  | .error d => .error (.unreadable d)
  | .ok mod => (mod.definitions.filter fun f => o.selects f.name).mapM recordOf

/-- What comes of writing documents. -/
structure Written where
  events : List Event
  /-- The sink behind the last document. -/
  sink : Sink
  /-- Whether a function was modified. -/
  result : Except ExtractFault Bool

/-- Writes the documents of the definitions in a source text to a sink. -/
def write (source : String) (sink : Sink) (o : ExtractOptions) : Written :=
  let reading := Module.read source
  match reading.result with
  | .error d => ⟨reading.log.map .told, sink, .error (.unreadable d)⟩
  | .ok mod =>
    let manager := (Manager.empty.withFilter o.function?).add (Extractor.pass o.pretty sink)
    let run := manager.run mod
    { events := reading.log.map .told ++ run.events
      sink := (run.manager.passes.head?.map Pass.state).getD sink
      result :=
        match run.result with
        | .error fault => .error (.pass fault)
        | .ok modified => .ok modified }

end IrRecords
