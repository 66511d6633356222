import IrRecords.Draft.Control
import IrRecords.Draft.Memory

/-!
# Reading instructions

An instruction starts with its opcode, and the opcode says what follows. The type of the result is
known as soon as the operands are read, because operands come with their types: nothing waits for
the definitions that they refer to.
-/

namespace IrRecords.Draft

open Reader

/-- The marks in front of `call`. -/
def callMarkers : List String := ["tail", "musttail", "notail"]

/-- The flags of arithmetic operations, casts and comparisons. -/
def arithmeticFlags : List String :=
  ["nuw", "nsw", "exact", "disjoint"] ++ fastMathFlags ++ ["nneg", "samesign"]

/-- A negation of a floating-point number. -/
def readFneg : Reader Instr := do
  skipWords fastMathFlags
  let (ty, operand) ← readTypedOperand
  return .plain .fneg ty [operand]

/-- An operation on two operands of the type that is given once. -/
def readBinary (op : BinaryOp) : Reader Instr := do
  skipWords arithmeticFlags
  let ty ← Ty.read
  let lhs ← readOperand ty
  expectComma
  let rhs ← readOperand ty
  return .plain (.binary op) ty [lhs, rhs]

/-- A conversion. -/
def readCast (op : CastOp) : Reader Instr := do
  skipWords arithmeticFlags
  let (_, operand) ← readTypedOperand
  expectWord "to"
  let ty ← Ty.read
  return .plain (.cast op) ty [operand]

/-- A comparison; `predicate?` tells the predicates. The result is a truth value, or a vector of
them where vectors are compared. -/
def readCompare (opcode : Opcode) (predicate? : String → Option Predicate) : Reader Instr := do
  skipWords arithmeticFlags
  let predicate :=
    match ← kind with
    | .word w => predicate? w
    | _ => none
  match predicate with
  | none => unexpected s!"{opcode.mnemonic} predicate"
  | some p =>
    advance
    let ty ← Ty.read
    let lhs ← readOperand ty
    expectComma
    let rhs ← readOperand ty
    return ⟨opcode, ty.reshape (.int 1), [lhs, rhs], .compare p⟩

/-- A choice between two values. -/
def readSelect : Reader Instr := do
  skipWords fastMathFlags
  let (_, condition) ← readTypedOperand
  expectComma
  let (ty, onTrue) ← readTypedOperand
  expectComma
  let (_, onFalse) ← readTypedOperand
  return .plain .select ty [condition, onTrue, onFalse]

/-- The next of a list of variable arguments. -/
def readVaArg : Reader Instr := do
  let (_, list) ← readTypedOperand
  expectComma
  let ty ← Ty.read
  return .plain .vaArg ty [list]

/-- The same value, without its undefined parts. -/
def readFreeze : Reader Instr := do
  let (ty, operand) ← readTypedOperand
  return .plain .freeze ty [operand]

/-! ## Vectors -/

/-- An element of a vector. Faults are told at `position`. -/
def readExtractelement (position : Position) : Reader Instr := do
  let (ty, vector) ← readTypedOperand
  expectComma
  let (_, index) ← readTypedOperand
  match ty.element? with
  | some elem => return .plain .extractelement elem [vector, index]
  | none => failAt position (.notVector ty)

/-- A vector with one element replaced. -/
def readInsertelement : Reader Instr := do
  let (ty, vector) ← readTypedOperand
  expectComma
  let (_, elem) ← readTypedOperand
  expectComma
  let (_, index) ← readTypedOperand
  return .plain .insertelement ty [vector, elem, index]

/-- Elements of two vectors, as a mask selects them. The mask is no operand; its shape is the
shape of the result. Faults are told at `position`. -/
def readShufflevector (position : Position) : Reader Instr := do
  let (ty, lhs) ← readTypedOperand
  expectComma
  let (_, rhs) ← readTypedOperand
  expectComma
  let (mask, _) ← readTypedOperand
  match ty.element? with
  | some elem => return .plain .shufflevector (mask.reshape elem) [lhs, rhs]
  | none => failAt position (.notVector ty)

/-! ## Aggregates -/

/-- Whether a numeral is a token of this kind. -/
def isNumeral : TokenKind → Bool
  | .int _ => true
  | _ => false

/-- One or more indices, each behind a comma. -/
def readAggregateIndices : Reader (List Nat) := do
  let indices ← iterate (fun (indices : Array Nat) => do
    let more ← isAt .comma
    -- A comma in front of anything else begins an attachment.
    if more && isNumeral (← nextKind) then
      advance
      return .again (indices.push (← expectNumber Text.bound64 "an index"))
    else return .done indices) #[]
  if indices.isEmpty then unexpected "',' followed by an index" else return indices.toList

/-- A part of an aggregate. Faults are told at `position`. -/
def readExtractvalue (ctx : Context) (position : Position) : Reader Instr := do
  let (ty, aggregate) ← readTypedOperand
  let indices ← readAggregateIndices
  match ctx.types.indexed ty (indices.map some) with
  | .ok part => return .plain .extractvalue part [aggregate]
  | .error fault => failAt position (.index fault)

/-- An aggregate with one part replaced. -/
def readInsertvalue : Reader Instr := do
  let (ty, aggregate) ← readTypedOperand
  expectComma
  let (_, value) ← readTypedOperand
  -- The aggregate keeps its type, so it is not asked where the indices lead.
  let _ ← readAggregateIndices
  return .plain .insertvalue ty [aggregate, value]

/-! ## All instructions -/

/-- What follows an opcode that stands at `position`. -/
def readOperation (ctx : Context) (position : Position) : Opcode → Reader Instr
  | .ret => readRet
  | .br => readBr
  | .switch => readSwitch
  | .indirectbr => readIndirectbr
  | .unreachable => return .plain .unreachable .void []
  | .fneg => readFneg
  | .binary op => readBinary op
  | .alloca => readAlloca ctx
  | .load => readLoad
  | .store => readStore
  | .getelementptr => readGetelementptr ctx
  | .fence => return .plain .fence .void []
  | .cmpxchg => readCmpxchg
  | .atomicrmw => readAtomicrmw
  | .cast op => readCast op
  | .icmp => readCompare .icmp fun w => (IntPredicate.ofName? w).map .int
  | .fcmp => readCompare .fcmp fun w => (FloatPredicate.ofName? w).map .float
  | .phi => readPhi
  | .call => readCall ctx
  | .select => readSelect
  | .vaArg => readVaArg
  | .extractelement => readExtractelement position
  | .insertelement => readInsertelement
  | .shufflevector => readShufflevector position
  | .extractvalue => readExtractvalue ctx position
  | .insertvalue => readInsertvalue
  | .freeze => readFreeze

/-- What was expected where a word is no opcode. -/
def missingInstruction (word : String) : String :=
  if word == "invoke" || word == "callbr" then
    "an instruction (exception handling is not supported)"
  else "an instruction"

/-- The instruction ahead. -/
def readInstr (ctx : Context) : Reader Instr := do
  skipWords callMarkers
  match ← kind with
  | .word w =>
    match Opcode.ofMnemonic? w with
    | some opcode =>
      -- Markers in front of the opcode are not counted to it.
      let position ← position
      advance
      readOperation ctx position opcode
    | none => unexpected (missingInstruction w)
  | _ => unexpected "an instruction"

end IrRecords.Draft
