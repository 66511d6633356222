import IrRecords.Function.Basic
import IrRecords.Log
import IrRecords.Sink

/-!
# Passes

A pass visits one function at a time, with the module around it in view, and has a state that it
keeps from one visit to the next; the state of a pass that writes is its sink. A visit answers
whether the function was modified, or why it failed, and hands back everything that could be
observed on the way, entries and bytes, in one row of events: where both go to one stream, their
order shows. Passes that run together have states of one type, which may be a sum of types.
-/

namespace IrRecords

/-- Something that can be observed. -/
inductive Event where
  /-- An entry was told. -/
  | told (entry : Entry)
  /-- A sink took bytes. -/
  | wrote (bytes : List UInt8)
  deriving Repr, DecidableEq

/-- The entries among events. -/
def Event.log (events : List Event) : List Entry :=
  events.filterMap fun
    | told entry => some entry
    | wrote _ => none

/-- Why a visit fails. -/
inductive PassFault where
  /-- The document of a function could not be written. -/
  | unwritable (function : String) (cause : SinkFault)
  /-- A function refers to a place that does not exist. -/
  | dangling (function : String)
  /-- The pass has a reason of its own. -/
  | refused (reason : String)
  deriving Repr, DecidableEq

/-- The fault and its causes in words, the fault first. -/
def PassFault.chain : PassFault → List String
  | unwritable function cause => [s!"failed to write JSON for @{function}", cause.message]
  | dangling function => [s!"@{function} refers to a place that does not exist"]
  | refused reason => [reason]

/-- What comes of a visit. -/
structure Visit (σ : Type) where
  events : List Event
  /-- The state behind the visit. -/
  state : σ
  /-- Whether the function was modified. -/
  result : Except PassFault Bool

/-- A pass. -/
structure Pass (σ : Type) where
  name : String
  state : σ
  visit : Module → Function → σ → Visit σ

end IrRecords
