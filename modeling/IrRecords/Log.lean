/-!
# Log entries

What the program does is told in entries, each with a level and the part of the program that
speaks. Entries are values that a computation hands back beside its result (`Traced`), in the order
in which they arose; a computation that fails hands back the entries up to its failure. Which of
them are shown, and how, is decided where they are shown.
-/

namespace IrRecords

/-- How important an entry is, most important first. -/
inductive Level where
  | warn | info | debug | trace
  deriving Repr, DecidableEq

namespace Level

/-- The name of a level. -/
def name : Level → String
  | warn => "WARN"
  | info => "INFO"
  | debug => "DEBUG"
  | trace => "TRACE"

/-- Levels by decreasing importance. -/
def rank : Level → Nat
  | warn => 0
  | info => 1
  | debug => 2
  | trace => 3

/-- Whether entries of level `l` are shown at `threshold`. -/
def shownAt (l threshold : Level) : Bool := l.rank ≤ threshold.rank

/-- The threshold that a number of requests for more detail selects. -/
def ofVerbosity : Nat → Level
  | 0 => warn
  | 1 => debug
  | _ => trace

end Level

/-- The parts of the program that tell something. -/
inductive Part where
  /-- The command line. -/
  | command
  /-- The reader of whole modules. -/
  | moduleReader
  /-- The reader of functions. -/
  | functionReader
  /-- The manager of passes. -/
  | passes
  /-- The pass that writes documents. -/
  | extractor
  /-- The encoder of functions. -/
  | encoder
  deriving Repr, DecidableEq

/-- The name of a part where entries are shown. -/
def Part.name : Part → String
  | command => "irextract"
  | moduleReader => "irextract::parser"
  | functionReader => "irextract::parser::function"
  | passes => "irextract::pass"
  | extractor => "irextract::pass::extractor"
  | encoder => "irextract::encode::function"

/-- One thing that the program tells. -/
structure Entry where
  level : Level
  /-- The part that tells it. -/
  part : Part
  message : String
  deriving Repr, DecidableEq

/-- A result together with what was told on the way to it. -/
structure Traced (ε α : Type) where
  log : List Entry
  result : Except ε α

namespace Traced

variable {ε ε' α β : Type}

/-- A result about which nothing is told. -/
def ofExcept (result : Except ε α) : Traced ε α := ⟨[], result⟩

/-- Tells one entry. -/
def tell (e : Entry) : Traced ε Unit := ⟨[e], .ok ()⟩

/-- Goes on with the result of `t`, unless that is a failure. -/
def bind (t : Traced ε α) (f : α → Traced ε β) : Traced ε β :=
  match t.result with
  | .error e => ⟨t.log, .error e⟩
  | .ok a => ⟨t.log ++ (f a).log, (f a).result⟩

instance : Monad (Traced ε) where
  pure a := ⟨[], .ok a⟩
  bind := bind

/-- Sees the failures of `t` as failures of another kind. -/
def mapError (f : ε → ε') (t : Traced ε α) : Traced ε' α :=
  ⟨t.log, match t.result with
    | .error e => .error (f e)
    | .ok a => .ok a⟩

end Traced

end IrRecords
