import IrRecords.Draft.Context
import IrRecords.Draft.Operand

/-!
# Reading instructions on memory

Allocations, loads, stores, address computations and atomic accesses. Alignment, ordering and
address space follow the operands and are looked for one or two tokens ahead, so that a metadata
attachment behind a comma is never taken for one of them.
-/

namespace IrRecords.Draft

open Reader

/-- The words that may follow `load` and `store`. -/
def memoryFlags : List String := ["atomic", "volatile"]

/-- The orderings of atomic accesses. -/
def orderings : List String :=
  ["unordered", "monotonic", "acquire", "release", "acq_rel", "seq_cst"]

/-- The operations of `atomicrmw`. -/
def atomicOperations : List String :=
  ["xchg", "add", "sub", "and", "nand", "or", "xor", "max", "min", "umax", "umin", "fadd",
    "fsub", "fmax", "fmin", "fmaximum", "fminimum", "uinc_wrap", "udec_wrap", "usub_cond",
    "usub_sat"]

/-- What may follow the allocated type and the count: alignments and address spaces, the last of
which counts. -/
def readAllocaTrailer (space : Nat) : Reader (Round Nat Nat) := do
  if ← isAt .comma then
    match ← nextKind with
    | .word "addrspace" =>
      advance
      return .again (← Ty.readSpace)
    | .word "align" =>
      -- The comma, and the word behind it.
      advance
      advance
      let _ ← expectNumber Text.bound64 "an alignment"
      return .again space
    | _ => return .done space
  else return .done space

/-- An allocation. Without a count there is one element, and the operand is the constant 1. -/
def readAlloca (ctx : Context) : Reader Instr := do
  skipWords ["inalloca", "swifterror"]
  let allocated ← Ty.read
  let counted ← isAt .comma
  let count ←
    -- The comma may also belong to a trailer or to an attachment.
    if counted && startsType (← nextKind) then
      advance
      let (_, count) ← readTypedOperand
      pure count
    else pure (Operand.known (.constant (.int 32) "1"))
  let space ← iterate readAllocaTrailer 0
  return ⟨.alloca, ctx.pointerTo allocated space, [count], .alloca allocated⟩

/-- A load. -/
def readLoad : Reader Instr := do
  skipWords memoryFlags
  let ty ← Ty.read
  expectComma
  let (_, address) ← readTypedOperand
  return .plain .load ty [address]

/-- A store. -/
def readStore : Reader Instr := do
  skipWords memoryFlags
  let (_, value) ← readTypedOperand
  expectComma
  let (_, address) ← readTypedOperand
  return .plain .store .void [value, address]

/-- Passes a synchronization scope and orderings. -/
def skipOrdering : Reader Unit := do
  if ← acceptWord "syncscope" then
    if ← isAt (.opener .round) then skipGroup
  skipWords orderings

/-- A compare-and-exchange; it answers the old value and whether it was replaced. -/
def readCmpxchg : Reader Instr := do
  skipWords ["weak", "volatile"]
  let (_, address) ← readTypedOperand
  expectComma
  let (ty, expected) ← readTypedOperand
  expectComma
  let (_, replacement) ← readTypedOperand
  skipOrdering
  return .plain .cmpxchg (.literal [ty, .int 1] false) [address, expected, replacement]

/-- An atomic read, change and write; it answers the old value. -/
def readAtomicrmw : Reader Instr := do
  let _ ← acceptWord "volatile"
  if isWordOf atomicOperations (← current) then advance
  else unexpected "an atomicrmw operation"
  let (_, address) ← readTypedOperand
  expectComma
  let (ty, value) ← readTypedOperand
  skipOrdering
  return .plain .atomicrmw ty [address, value]

/-! ## Address computations -/

/-- Passes the mark of an index that stays in range. -/
def skipInrange : Reader Unit := do
  if ← acceptWord "inrange" then
    if ← isAt (.opener .round) then skipGroup

/-- Whether an index can start with a token of this kind. -/
def startsIndex (k : TokenKind) : Bool := startsType k || k == .word "inrange"

/-- The indices of an address computation with their types. -/
def readIndices : Reader (List (Ty × Operand)) := do
  let indices ← iterate (fun (indices : Array (Ty × Operand)) => do
    let more ← isAt .comma
    if more && startsIndex (← nextKind) then
      advance
      skipInrange
      return .again (indices.push (← readTypedOperand))
    else return .done indices) #[]
  return indices.toList

/-- The shape of the result of an address computation: that of the first vector among the types of
the base and the indices. -/
def addressShape (types : List Ty) : Ty := (types.find? Ty.isVector).getD .void

/-- The type of one address. A typed pointer leads to what the indices behind the first reach from
`source`; any other type stays as it is. -/
def addressType (types : TypeTable) (source base : Ty) (indices : List Operand) :
    Except IndexFault Ty :=
  match base with
  | .pointer _ space =>
    -- The first index moves the address by whole sources and does not step into them.
    match types.indexed source (indices.tail.map (·.constantIndex?)) with
    | .ok pointee => .ok (.pointer pointee space)
    | .error fault => .error fault
  | other => .ok other

/-- An address computation. A vector among base and indices makes the result a vector. -/
def readGetelementptr (ctx : Context) : Reader Instr := do
  let position ← position
  skipWords ["inbounds", "nuw", "nusw"]
  skipInrange
  let source ← Ty.read
  expectComma
  let (baseTy, base) ← readTypedOperand
  let indices ← readIndices
  match addressType ctx.types source baseTy.scalar (indices.map (·.2)) with
  | .error fault => failAt position (.index fault)
  | .ok ty =>
    let shape := addressShape (baseTy :: indices.map (·.1))
    return .plain .getelementptr (shape.reshape ty) (base :: indices.map (·.2))

end IrRecords.Draft
