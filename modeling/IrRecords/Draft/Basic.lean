import IrRecords.Diagnostic
import IrRecords.Function.Basic

/-!
# Drafts

While a body is read its operands are still identifiers: a branch may name a block further down,
and a phi may name a value that is defined later. A draft holds the statements read so far, sorted
into blocks, and the number that the next thing without a name takes. Arguments, blocks and
results share one row of numbers, in the order of the text, and an explicit number has to be the
next one.

A block starts at a label. Without one it starts at the first statement and at each statement
behind a terminator; such a block has no name and takes a number.
-/

namespace IrRecords.Draft

/-- An operand as the text gives it. -/
inductive Operand where
  /-- A reference to a value of the function, with the type it is used at. -/
  | reference (id : Ident) (ty : Ty) (position : Position)
  /-- A constant, metadata or a global. -/
  | known (value : Value)
  deriving Repr, DecidableEq

/-- The same operand at another type. -/
def Operand.withTy (o : Operand) (ty : Ty) : Operand :=
  match o with
  | reference id _ position => reference id ty position
  | known value => known { value with ty := ty }

/-- What an instruction holds beside its operands, as the text gives it. -/
inductive Detail where
  | plain
  | compare (p : Predicate)
  | alloca (allocated : Ty)
  /-- The labels of the incoming blocks and where they stand. -/
  | phi (incoming : List (Ident × Position))
  deriving Repr, DecidableEq

/-- An instruction as the text gives it. -/
structure Instr where
  opcode : Opcode
  /-- The type of the result, `void` if there is none. -/
  ty : Ty
  operands : List Operand
  detail : Detail
  deriving Repr, DecidableEq

/-- An instruction without details. -/
def Instr.plain (opcode : Opcode) (ty : Ty) (operands : List Operand) : Instr :=
  ⟨opcode, ty, operands, .plain⟩

/-- A parameter with its name or number. -/
structure Param where
  id : Ident
  ty : Ty
  position : Position
  deriving Repr, DecidableEq

/-- An instruction together with the name or number of its result, if it has one. -/
structure Statement where
  result? : Option Ident
  instr : Instr
  position : Position
  deriving Repr, DecidableEq

/-- A block with its name or number. -/
structure Block where
  id : Ident
  position : Position
  statements : Array Statement
  deriving Repr, DecidableEq

/-- What stands in front of a body. -/
structure Header where
  name : String
  ret : Ty
  /-- Types, names or numbers where given, and positions. -/
  params : List (Ty × Option Ident × Position)
  vararg : Bool
  deriving Repr, DecidableEq

end Draft

/-- A function as far as it has been read. -/
structure Draft where
  name : String
  ret : Ty
  vararg : Bool
  params : Array Draft.Param
  blocks : Array Draft.Block
  /-- The number that the next thing without a name takes. -/
  nextSlot : Nat
  deriving Repr, DecidableEq

namespace Draft

/-- The identifier of a definition and the next free number, if `id?` is what the text gives. -/
def number (next : Nat) (what : Numbered) (position : Position) (id? : Option Ident) :
    Except Diagnostic (Ident × Nat) :=
  match id? with
  | some (.named name) => .ok (.named name, next)
  | some (.slot n) =>
    if n = next then .ok (.slot n, next + 1) else .error ⟨position, .misnumbered what next n⟩
  | none => .ok (.slot next, next + 1)

/-- Adds a parameter. -/
def pushParam (d : Draft) (p : Ty × Option Ident × Position) : Except Diagnostic Draft := do
  let (ty, id?, position) := p
  let (id, next) ← number d.nextSlot .argument position id?
  return { d with params := d.params.push ⟨id, ty, position⟩, nextSlot := next }

/-- The draft of a function of which only the header is known. -/
def ofHeader (h : Header) : Except Diagnostic Draft :=
  h.params.foldlM pushParam ⟨h.name, h.ret, h.vararg, #[], #[], 0⟩

/-- Starts a block; `id?` is its label if there is one. -/
def startBlock (d : Draft) (id? : Option Ident) (position : Position) :
    Except Diagnostic Draft := do
  let (id, next) ← number d.nextSlot .label position id?
  return { d with blocks := d.blocks.push ⟨id, position, #[]⟩, nextSlot := next }

/-- Whether the next statement needs a block of its own. -/
def needsBlock (d : Draft) : Bool :=
  match d.blocks.back? with
  | none => true
  | some block =>
    match block.statements.back? with
    -- A block without statements has just been started by its label.
    | none => false
    | some last => last.instr.opcode.isTerminator

/-- Adds a statement to the last block. -/
def appendStatement (d : Draft) (s : Statement) : Draft :=
  match d.blocks.back? with
  -- Not reached from `pushInstr`, which starts a block where there is none.
  | none => d
  | some block =>
    { d with blocks := d.blocks.pop.push { block with statements := block.statements.push s } }

/-- Adds an instruction, whose result the text calls `id?`, in the block that it belongs to. -/
def pushInstr (d : Draft) (id? : Option Ident) (instr : Instr) (position : Position) :
    Except Diagnostic Draft := do
  let d ← if d.needsBlock then d.startBlock none position else pure d
  if instr.ty = .void then
    match id? with
    | some id => .error ⟨position, .namedVoid id⟩
    -- What is void takes no number.
    | none => return d.appendStatement ⟨none, instr, position⟩
  else
    let (id, next) ← number d.nextSlot .instruction position id?
    return { d.appendStatement ⟨some id, instr, position⟩ with nextSlot := next }

end Draft

end IrRecords
