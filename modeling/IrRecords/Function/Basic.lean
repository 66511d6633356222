import IrRecords.Opcode
import IrRecords.Predicate
import IrRecords.Ty.Table
import IrRecords.Value

/-!
# Functions

A function owns its values, its instructions and its blocks, each in an array, and refers to them
by their places. A function that is put together by hand can hold places that do not exist; all
access is therefore by `?`, and what a reader of a source text builds is free of such places.
-/

namespace IrRecords

/-- What an instruction holds beside its operands. -/
inductive Detail where
  | plain
  /-- The predicate of a comparison. -/
  | compare (p : Predicate)
  /-- The type of what is allocated; how many is the first operand. -/
  | alloca (allocated : Ty)
  /-- The blocks that the operands flow in from, in the order of the operands. -/
  | phi (incoming : List BlockId)
  deriving Repr, DecidableEq

/-- An instruction. -/
structure Instr where
  /-- The value that the instruction defines. Instructions without a result define a void one. -/
  result : ValueId
  opcode : Opcode
  operands : List ValueId
  detail : Detail
  deriving Repr, DecidableEq

namespace Instr

/-- The block that operand `index` of a phi flows in from. -/
def incoming? (i : Instr) (index : Nat) : Option BlockId :=
  match i.detail with
  | .phi blocks => blocks[index]?
  | _ => none

/-- The operand that says how many elements are allocated. -/
def count? (i : Instr) : Option ValueId :=
  match i.detail with
  | .alloca _ => i.operands.head?
  | _ => none

end Instr

/-- A basic block. -/
structure Block where
  /-- The declared name, empty if there is none. -/
  name : String
  /-- The value that branches name the block by. -/
  label : ValueId
  /-- The instructions in the order of execution. -/
  instrs : List InstrId
  deriving Repr, DecidableEq

/-- A function. -/
structure Function where
  /-- The declared name, empty if there is none. -/
  name : String
  ret : Ty
  vararg : Bool
  args : List ValueId
  blocks : Array Block
  values : Array Value
  instrs : Array Instr
  deriving Repr, DecidableEq

/-- Whether the function has no body. -/
def Function.isDeclaration (f : Function) : Bool := f.blocks.isEmpty

/-- A source text as a whole. -/
structure Module where
  types : TypeTable
  /-- Declarations and definitions in source order. -/
  functions : List Function
  /-- Whether pointers do not know what they point to. -/
  opaquePointers : Bool
  deriving Repr, DecidableEq

namespace Module

/-- The first function of the name `name`. -/
def function? (m : Module) (name : String) : Option Function :=
  m.functions.find? (·.name == name)

/-- The functions with a body, in source order. -/
def definitions (m : Module) : List Function := m.functions.filter (!·.isDeclaration)

end Module

end IrRecords
