import IrRecords.Draft.Basic

/-!
# Laying out a function

A finished draft becomes a function in two steps. First its definitions are laid out in one row:
the arguments, the labels of the blocks, and one result for each instruction, void ones included.
No two of them may share an identifier. Then the operands are resolved in the order of the text. A
reference answers the place of its definition, which must have the type that the reference is used
at; a constant or a global gets a place of its own behind everything laid out so far, so equal
constants are different values.
-/

namespace IrRecords.Draft

/-! ## Definitions -/

/-- Something that an identifier can stand for. -/
structure Definition where
  /-- The identifier; results of void instructions have none. -/
  id? : Option Ident
  ty : Ty
  origin : Origin
  position : Position
  deriving Repr, DecidableEq

/-- The value of a definition. -/
def Definition.value (d : Definition) : Value :=
  ⟨(d.id?.map Ident.name).getD "", d.id?.bind Ident.slot?, d.ty, d.origin⟩

/-- All statements of a draft in the order of the text. -/
def statements (d : Draft) : List Statement :=
  d.blocks.toList.flatMap (·.statements.toList)

/-- The arguments. -/
def argDefinitions (d : Draft) : List Definition :=
  d.params.toList.mapIdx fun i p => ⟨some p.id, p.ty, .argument i, p.position⟩

/-- The labels of the blocks. -/
def labelDefinitions (d : Draft) : List Definition :=
  d.blocks.toList.mapIdx fun i b => ⟨some b.id, .label, .block i, b.position⟩

/-- The results of the instructions. -/
def resultDefinitions (d : Draft) : List Definition :=
  d.statements.mapIdx fun i s => ⟨s.result?, s.instr.ty, .instruction i, s.position⟩

/-- Everything that an identifier of the function can stand for. -/
def definitions (d : Draft) : List Definition :=
  d.argDefinitions ++ d.labelDefinitions ++ d.resultDefinitions

/-- Where the definition of `id` stands in a row of definitions. -/
def locate (defs : List Definition) (id : Ident) : Option Nat :=
  defs.findIdx? (·.id? == some id)

/-- Refuses the first definition whose identifier an earlier one has. -/
def checkDistinct (seen : List Ident) : List Definition → Except Diagnostic Unit
  | [] => .ok ()
  | d :: rest =>
    match d.id? with
    | none => checkDistinct seen rest
    | some id =>
      if id ∈ seen then .error ⟨d.position, .valueRedefined id⟩
      else checkDistinct (id :: seen) rest

/-! ## Operands -/

/-- The place of an operand among the values, which a constant or a global extends. -/
def resolveOperand (defs : List Definition) (values : Array Value) :
    Operand → Except Diagnostic (ValueId × Array Value)
  | .known value => .ok (values.size, values.push value)
  | .reference id ty position =>
    match locate defs id with
    | none => .error ⟨position, .valueUndefined id⟩
    | some place =>
      match defs[place]? with
      -- Not reached: `locate` answers places in `defs`.
      | none => .error ⟨position, .valueUndefined id⟩
      | some d =>
        if d.ty = ty then .ok (place, values)
        else .error ⟨position, .typeMismatch id d.ty ty⟩

/-- The places of operands, from left to right. -/
def resolveOperands (defs : List Definition) (values : Array Value) :
    List Operand → Except Diagnostic (List ValueId × Array Value)
  | [] => .ok ([], values)
  | o :: rest => do
    let (id, values) ← resolveOperand defs values o
    let (ids, values) ← resolveOperands defs values rest
    return (id :: ids, values)

/-- The block that a label stands for. -/
def resolveLabel (defs : List Definition) (label : Ident × Position) :
    Except Diagnostic BlockId :=
  let (id, position) := label
  match (locate defs id).bind (defs[·]?) with
  | some ⟨_, _, .block block, _⟩ => .ok block
  | _ => .error ⟨position, .notBlock id⟩

/-- What an instruction holds beside its operands. -/
def resolveDetail (defs : List Definition) : Detail → Except Diagnostic IrRecords.Detail
  | .plain => .ok .plain
  | .compare p => .ok (.compare p)
  | .alloca allocated => .ok (.alloca allocated)
  | .phi incoming => return .phi (← incoming.mapM (resolveLabel defs))

/-- The instructions of `statements`, the first of which defines the value `result`. -/
def resolveStatements (defs : List Definition) (result : ValueId) (values : Array Value) :
    List Statement → Except Diagnostic (List IrRecords.Instr × Array Value)
  | [] => .ok ([], values)
  | s :: rest => do
    let (operands, values) ← resolveOperands defs values s.instr.operands
    let detail ← resolveDetail defs s.instr.detail
    let (instrs, values) ← resolveStatements defs (result + 1) values rest
    return (⟨result, s.instr.opcode, operands, detail⟩ :: instrs, values)

/-! ## Blocks -/

/-- The blocks, the first of which has the label `label` and starts at the instruction `instr`. -/
def layBlocks (label : ValueId) (instr : InstrId) : List Block → List IrRecords.Block
  | [] => []
  | b :: rest =>
    ⟨b.id.name, label, List.range' instr b.statements.size⟩
      :: layBlocks (label + 1) (instr + b.statements.size) rest

/-- The function that a finished draft describes. -/
def finish (d : Draft) : Except Diagnostic Function := do
  let defs := d.definitions
  checkDistinct [] defs
  -- The definitions stand in this order, so each kind of them begins where the one in front ends.
  let labels := d.params.size
  let results := labels + d.blocks.size
  let (instrs, values) ←
    resolveStatements defs results (defs.map (·.value)).toArray d.statements
  return {
    name := d.name
    ret := d.ret
    vararg := d.vararg
    args := List.range labels
    blocks := (layBlocks labels 0 d.blocks.toList).toArray
    values := values
    instrs := instrs.toArray }

end IrRecords.Draft
