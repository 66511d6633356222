import IrRecords.Ident
import IrRecords.Ty.Basic

/-!
# Values

Whatever an instruction can refer to is a value: arguments, blocks, results, constants and
globals. A value is written as an operand in one of three ways. A constant is its own text. A
global has the sigil `@` and every other value the sigil `%`, followed by the name or, if there is
none, by the slot. A value with neither cannot be referred to.
-/

namespace IrRecords

/-- The place of a value among the values of its function. -/
abbrev ValueId := Nat

/-- The place of an instruction among the instructions of its function. -/
abbrev InstrId := Nat

/-- The place of a block among the blocks of its function. -/
abbrev BlockId := Nat

/-- What a value stands for. -/
inductive Origin where
  /-- The argument at a position. -/
  | argument (index : Nat)
  /-- The result of an instruction, used or not. -/
  | instruction (id : InstrId)
  /-- A block, as branches name it. -/
  | block (id : BlockId)
  /-- A constant or metadata, with its text. -/
  | constant (text : String)
  /-- A global variable or a function. -/
  | global
  deriving Repr, DecidableEq

/-- A value of a function. -/
structure Value where
  /-- The declared name, empty if there is none. -/
  name : String
  /-- The number of a value without a name. -/
  slot? : Option Nat
  ty : Ty
  origin : Origin
  deriving Repr, DecidableEq

namespace Value

/-- The constant `text` of type `ty`. -/
def constant (ty : Ty) (text : String) : Value := ⟨"", none, ty, .constant text⟩

/-- The global `id`, seen as a value of type `ty`. -/
def global (ty : Ty) (id : Ident) : Value := ⟨id.name, id.slot?, ty, .global⟩

/-- The text of a value with neither name nor slot. -/
def badReference : String := "<badref>"

/-- Name or slot of a value behind a sigil. -/
def reference (v : Value) (sigil : Char) : String :=
  if v.name ≠ "" then sigil.toString ++ Text.quoteName v.name
  else
    match v.slot? with
    | some number => sigil.toString ++ toString number
    | none => badReference

/-- The value as operands show it. -/
def rendering (v : Value) : String :=
  match v.origin with
  | .constant text => text
  | .global => v.reference '@'
  | .argument _ | .instruction _ | .block _ => v.reference '%'

end Value

end IrRecords
