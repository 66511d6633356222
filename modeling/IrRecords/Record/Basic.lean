import IrRecords.Json

/-!
# Records

The document of a function. A record names types by their canonical names and values by their
renderings without the sigil, so that it can be read without the module around it. As a document
each record is an object with its keys in sorted order, and what does not apply is left out.
-/

namespace IrRecords.Record

/-- What a document says about an argument. -/
structure Argument where
  /-- The declared name, empty if there is none. -/
  name : String
  ty : String
  /-- The rendering without its sigil. -/
  value : String
  deriving Repr, DecidableEq

/-- What a document says about an operand. -/
structure Operand where
  /-- The declared name, empty if there is none. -/
  name : String
  /-- The name of the block that the operand of a phi flows in from. -/
  prevBlock? : Option String
  ty : String
  /-- The rendering without its sigil. -/
  value : String
  deriving Repr, DecidableEq

/-- What a document says about an instruction. -/
structure Instr where
  /-- How many elements are allocated. -/
  allocaSize? : Option String
  /-- The type of what is allocated. -/
  allocaType? : Option String
  /-- The declared name of the result, empty if there is none. -/
  name : String
  opcode : String
  operands : List Operand
  /-- The predicate of a comparison. -/
  predicate? : Option String
  /-- The type of the result. -/
  ty : String
  deriving Repr, DecidableEq

/-- What a document says about a block. -/
structure Block where
  instrs : List Instr
  /-- The declared name, empty if there is none. -/
  name : String
  deriving Repr, DecidableEq

/-- What a document says about a function. -/
structure Function where
  args : List Argument
  blocks : List Block
  name : String
  ret : String
  deriving Repr, DecidableEq

/-! ## Records as documents -/

/-- A field that is left out when there is no value. -/
def optionalField (key : String) : Option String → List (String × Json)
  | none => []
  | some value => [(key, .str value)]

/-- The document of an argument. -/
def Argument.toJson (a : Argument) : Json :=
  .obj [("name", .str a.name), ("type", .str a.ty), ("value", .str a.value)]

/-- The document of an operand. -/
def Operand.toJson (o : Operand) : Json :=
  .obj ([("name", .str o.name)] ++ optionalField "prev_block" o.prevBlock?
    ++ [("type", .str o.ty), ("value", .str o.value)])

/-- The document of an instruction. -/
def Instr.toJson (i : Instr) : Json :=
  .obj (optionalField "alloca_size" i.allocaSize? ++ optionalField "alloca_type" i.allocaType?
    ++ [("name", .str i.name), ("opcode", .str i.opcode),
      ("operands", .arr (i.operands.map Operand.toJson))]
    ++ optionalField "predicate" i.predicate? ++ [("type", .str i.ty)])

/-- The document of a block. -/
def Block.toJson (b : Block) : Json :=
  .obj [("insts", .arr (b.instrs.map Instr.toJson)), ("name", .str b.name)]

/-- The document of a function. -/
def Function.toJson (f : Function) : Json :=
  .obj [("args", .arr (f.args.map Argument.toJson)),
    ("basic_blocks", .arr (f.blocks.map Block.toJson)), ("name", .str f.name),
    ("ret_type", .str f.ret)]

/-- The text of the document of a function and the line break behind it. -/
def Function.line (pretty : Bool) (f : Function) : String :=
  (if pretty then f.toJson.pretty else f.toJson.compact) ++ "\n"

end IrRecords.Record
