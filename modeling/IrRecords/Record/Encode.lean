import IrRecords.Function.Basic
import IrRecords.Log
import IrRecords.Record.Basic
import IrRecords.Ty.CanonicalName

/-!
# Encoding functions

Encoding follows places: from the function to its blocks, from a block to its instructions, from an
instruction to its result and its operands. A place that does not exist has no record, and then
neither has the function, so every encoder answers an option. Only what is followed matters: labels
of blocks, instructions in no block and surplus edges of a phi are never looked at.
-/

namespace IrRecords

/-- A rendering without its sigil. -/
def stripSigil (rendering : String) : String :=
  match rendering.toList with
  | '%' :: rest => String.ofList rest
  | '@' :: rest => String.ofList rest
  | _ => rendering

/-- The record of a value. -/
def Value.record (v : Value) : Record.Argument :=
  ⟨v.name, v.ty.canonicalName, stripSigil v.rendering⟩

namespace Function

/-- The arguments, if all of their places exist. -/
def arguments? (f : Function) : Option (List Value) := f.args.mapM (f.values[·]?)

/-- The name of the block that operand `index` of `i` flows in from, if `i` says so. -/
def prevBlock? (f : Function) (i : Instr) (index : Nat) : Option (Option String) :=
  match i.incoming? index with
  | none => some none
  | some block => (f.blocks[block]?).map fun b => some b.name

/-- The record of the operand `id` of `i`, which stands at `index`. -/
def operandRecord? (f : Function) (i : Instr) (index : Nat) (id : ValueId) :
    Option Record.Operand := do
  let value := (← f.values[id]?).record
  let prevBlock? ← f.prevBlock? i index
  return ⟨value.name, prevBlock?, value.ty, value.value⟩

/-- The records of the operands `ids` of `i`, the first of which stands at `index`. -/
def operandRecords? (f : Function) (i : Instr) (index : Nat) :
    List ValueId → Option (List Record.Operand)
  | [] => some []
  | id :: rest => do
    let operand ← f.operandRecord? i index id
    let operands ← f.operandRecords? i (index + 1) rest
    return operand :: operands

/-- How many elements are allocated, as a text; `none` within if nothing is said about it. -/
def allocaSize? (f : Function) (i : Instr) : Option (Option String) :=
  match i.count? with
  | none => some none
  | some id => (f.values[id]?).map fun v => some v.rendering

/-- The record of an instruction. -/
def instrRecord? (f : Function) (i : Instr) : Option Record.Instr := do
  let result ← f.values[i.result]?
  let allocaSize? ← f.allocaSize? i
  let allocaType? :=
    match i.detail with
    | .alloca allocated => some allocated.canonicalName
    | _ => none
  let predicate? :=
    match i.detail with
    | .compare p => some p.name
    | _ => none
  let operands ← f.operandRecords? i 0 i.operands
  return {
    allocaSize? := allocaSize?
    allocaType? := allocaType?
    name := result.name
    opcode := i.opcode.mnemonic
    operands := operands
    predicate? := predicate?
    ty := result.ty.canonicalName }

/-- The record of a block. -/
def blockRecord? (f : Function) (b : Block) : Option Record.Block := do
  let instrs ← b.instrs.mapM fun id => f.instrs[id]? >>= f.instrRecord?
  return ⟨instrs, b.name⟩

/-- The record of the function; `none` if a place on the way does not exist. -/
def record? (f : Function) : Option Record.Function := do
  let args ← f.arguments?
  let blocks ← f.blocks.toList.mapM f.blockRecord?
  return ⟨args.map Value.record, blocks, f.name, f.ret.canonicalName⟩

/-- What is told while the function is encoded: one entry for each block. -/
def encodingLog (f : Function) : List Entry :=
  f.blocks.toList.map fun b =>
    ⟨.trace, .encoder, s!"encoding block '{b.name}' of @{f.name}"⟩

end Function

end IrRecords
