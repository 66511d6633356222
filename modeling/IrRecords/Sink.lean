import IrRecords.Text.Utf8

/-!
# Sinks

A sink takes bytes. It may be bounded, and then it keeps every byte that fits and fails at the
first that does not; it may refuse to flush. A failure never takes back what is kept.
-/

namespace IrRecords

/-- Why a sink fails. -/
inductive SinkFault where
  /-- A byte does not fit. -/
  | closed
  /-- The sink does not flush. -/
  | flushRefused
  deriving Repr, DecidableEq

/-- The fault in words. -/
def SinkFault.message : SinkFault → String
  | closed => "closed"
  | flushRefused => "flush refused"

/-- A place that bytes are written to. -/
structure Sink where
  /-- The bytes kept so far. -/
  content : List UInt8
  /-- How many bytes fit in all; `none` if there is no bound. -/
  limit? : Option Nat
  refusesFlush : Bool
  deriving Repr, DecidableEq

namespace Sink

/-- An empty sink that takes everything. -/
def unbounded : Sink := ⟨[], none, false⟩

/-- How many of `n` further bytes fit. -/
def room (s : Sink) (n : Nat) : Nat :=
  match s.limit? with
  | none => n
  -- A sink that holds more than its limit has room for nothing.
  | some limit => min n (limit - s.content.length)

/-- Those of the bytes that the sink keeps when they are written to it. -/
def accepted (s : Sink) (bytes : List UInt8) : List UInt8 := bytes.take (s.room bytes.length)

/-- Writes bytes: the sink behind it, and the fault if not all of them fit. -/
def write (s : Sink) (bytes : List UInt8) : Sink × Option SinkFault :=
  ({ s with content := s.content ++ s.accepted bytes },
    if s.room bytes.length < bytes.length then some .closed else none)

/-- Asks the sink to pass on what it keeps: the fault if it refuses. -/
def flush (s : Sink) : Option SinkFault := if s.refusesFlush then some .flushRefused else none

end Sink

end IrRecords
