import IrRecords.Pass.Extractor

/-!
# Registered passes

The passes that can be asked for by name.
-/

namespace IrRecords

/-- An entry of the registry. -/
structure Registration where
  /-- The name to ask for. -/
  arg : String
  description : String
  /-- Builds the pass, whose documents are indented or not, on a sink. -/
  create : (pretty : Bool) → Sink → Pass Sink

namespace Registration

/-- All registered passes. -/
def all : List Registration := [⟨Extractor.name, "Convert IR to JSON", Extractor.pass⟩]

/-- The pass that is registered under a name. -/
def find? (arg : String) : Option Registration := all.find? (·.arg == arg)

end Registration

end IrRecords
