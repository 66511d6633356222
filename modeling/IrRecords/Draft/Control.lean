import IrRecords.Draft.Context
import IrRecords.Draft.Operand

/-!
# Reading instructions that direct control

Terminators, phis and calls. Two of them order their operands differently from the text: a
conditional branch has the condition first, then the target for false, then the target for true,
and a call has its arguments first and what is called last.
-/

namespace IrRecords.Draft

open Reader

/-- The flags of floating-point operations. -/
def fastMathFlags : List String :=
  ["nnan", "ninf", "nsz", "arcp", "contract", "afn", "reassoc", "fast"]

/-- A return, with or without a value. -/
def readRet : Reader Instr := do
  if ← acceptWord "void" then return .plain .ret .void []
  let (_, value) ← readTypedOperand
  return .plain .ret .void [value]

/-- A branch to one block, or to one of two. -/
def readBr : Reader Instr := do
  let (ty, first) ← readTypedOperand
  if ty = .label then return .plain .br .void [first]
  expectComma
  let (_, onTrue) ← readTypedOperand
  expectComma
  let (_, onFalse) ← readTypedOperand
  -- The targets change places.
  return .plain .br .void [first, onFalse, onTrue]

/-- A branch by the value of an integer: condition, default target, then pairs of a value and a
target. -/
def readSwitch : Reader Instr := do
  let (_, condition) ← readTypedOperand
  expectComma
  let (_, otherwise) ← readTypedOperand
  expect (.opener .square) "'['"
  let cases ← iterate (fun (cases : Array Operand) => do
    if ← accept (.closer .square) then return .done cases
    let (_, value) ← readTypedOperand
    expectComma
    let (_, target) ← readTypedOperand
    return .again ((cases.push value).push target)) #[]
  return .plain .switch .void (condition :: otherwise :: cases.toList)

/-- A branch to a computed address, with the possible targets. -/
def readIndirectbr : Reader Instr := do
  let (_, address) ← readTypedOperand
  expectComma
  expect (.opener .square) "'['"
  if ← accept (.closer .square) then return .plain .indirectbr .void [address]
  let targets ← commaSeparated readTypedOperand
  expect (.closer .square) "']'"
  return .plain .indirectbr .void (address :: targets.map (·.2))

/-- One edge of a phi of type `ty`: the operand, and the block it flows in from. -/
def readEdge (ty : Ty) : Reader (Operand × Ident × Position) := do
  expect (.opener .square) "'['"
  let operand ← readOperand ty
  expectComma
  let position ← position
  match ← kind with
  | .localRef id =>
    advance
    expect (.closer .square) "']'"
    return (operand, id, position)
  | _ => unexpected "an incoming block"

/-- A phi. -/
def readPhi : Reader Instr := do
  skipWords fastMathFlags
  let ty ← Ty.read
  let edges ← iterate (fun (edges : Array (Operand × Ident × Position)) => do
    let edges := edges.push (← readEdge ty)
    let more ← isAt .comma
    -- Behind the last edge a comma begins an attachment.
    if more && (← nextKind) == .opener .square then
      advance
      return .again edges
    else return .done edges) #[]
  return ⟨.phi, ty, edges.toList.map (·.1), .phi (edges.toList.map (·.2))⟩

/-! ## Calls -/

/-- The attributes that may stand between the type of an argument and the argument. -/
def argumentAttributes : List String :=
  ["align", "allocalign", "allocptr", "byref", "byval", "captures", "dead_on_unwind",
    "dereferenceable", "dereferenceable_or_null", "elementtype", "immarg", "inalloca",
    "initializes", "inreg", "nest", "noalias", "nocapture", "noext", "nofpclass", "nofree",
    "nonnull", "noundef", "preallocated", "range", "readnone", "readonly", "returned", "signext",
    "sret", "swiftasync", "swifterror", "swiftself", "writable", "writeonly", "zeroext"]

/-- One argument with its type. -/
def readArgument : Reader (Ty × Operand) := do
  let ty ← Ty.read
  skipAttributes argumentAttributes.contains (· == "align")
  let operand ← readOperand ty
  return (ty, operand)

/-- The arguments of a call with their types, parentheses included. -/
def readArguments : Reader (List (Ty × Operand)) := do
  expect (.opener .round) "'('"
  if ← accept (.closer .round) then return []
  let arguments ← commaSeparated readArgument
  expect (.closer .round) "')'"
  return arguments

/-- The result and the type of a function that is called. A call gives either the whole type of
the function or only its result; the parameters are then those that the arguments ask for. -/
def calleeType (given : Ty) (arguments : List Ty) : Ty × Ty :=
  match given with
  | .function ret params vararg => (ret, .function ret params vararg)
  | ret => (ret, .function ret arguments false)

/-- A call. -/
def readCall (ctx : Context) : Reader Instr := do
  skipWords fastMathFlags
  skipAttributes (!isTypeWord ·) fun w => w == "align" || w == "cc"
  let given ← Ty.read
  -- The callee stands in front of the arguments that its type is told from.
  let callee ← readOperand .void
  let arguments ← readArguments
  let (ret, function) := calleeType given (arguments.map (·.1))
  let callee := callee.withTy (ctx.pointerTo function 0)
  return .plain .call ret (arguments.map (·.2) ++ [callee])

end IrRecords.Draft
