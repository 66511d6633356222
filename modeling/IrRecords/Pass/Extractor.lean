import IrRecords.Pass.Basic
import IrRecords.Record.Encode

/-!
# The extractor

The pass that writes documents: one for each function it visits, with a line break behind it, and
a flush behind that. It never modifies a function.
-/

namespace IrRecords.Extractor

/-- The name of the pass. -/
def name : String := "IRExtractor"

/-- What is told of a function whose document is written. -/
def extracted (function : String) (blocks : Nat) : Entry :=
  ⟨.debug, .extractor, s!"extracted @{function} ({blocks} blocks)"⟩

/-- Writes the document of a function, with indentation if `pretty`. -/
def visit (pretty : Bool) (f : Function) (sink : Sink) : Visit Sink :=
  match f.record? with
  | none => ⟨[], sink, .error (.dangling f.name)⟩
  | some record =>
    let bytes := Utf8.encode (record.line pretty).toList
    let before := f.encodingLog.map .told ++ [.wrote (sink.accepted bytes)]
    -- A sink that took only a part is not flushed.
    let (sink, fault?) := sink.write bytes
    match fault?.or sink.flush with
    | some fault => ⟨before, sink, .error (.unwritable f.name fault)⟩
    | none => ⟨before ++ [.told (extracted f.name record.blocks.length)], sink, .ok false⟩

/-- The extractor on a sink. It looks at nothing but the function. -/
def pass (pretty : Bool) (sink : Sink) : Pass Sink := ⟨name, sink, fun _ => visit pretty⟩

end IrRecords.Extractor
