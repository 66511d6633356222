import IrRecords.Draft.Instr
import IrRecords.Draft.Layout
import IrRecords.Log

/-!
# Reading functions

A function has a header and, if it is defined here, a body in braces. The words around the type in
the header, linkage and attributes, mean nothing to the documents and are passed over. In the body
each label starts a block and each statement adds an instruction; what is left of the line behind
an instruction, alignment or a metadata attachment, is passed over, and so are the lines of debug
records.

A declaration is a function without blocks. Its line ends it.
-/

namespace IrRecords.Function

open Reader Draft

/-! ## Headers -/

/-- Whether a token refers to a group of attributes. -/
def isGroupReference (t : Token) : Bool :=
  match t.kind with
  | .hash _ => true
  | _ => false

/-- Passes the attributes around types in a header. -/
def skipHeaderAttributes : Reader Unit := do
  skipAttributes (!isTypeWord ·) fun _ => true
  skipWhile isGroupReference

/-- The name of the function; a numbered one has none. -/
def readName : Reader String := do
  match ← kind with
  | .globalRef id =>
    advance
    return id.name
  | _ => unexpected "a function name"

/-- One parameter: its type, its name or number if given, and where it starts. -/
def readParam : Reader (Ty × Option Ident × Position) := do
  let position ← position
  let ty ← Ty.read
  skipHeaderAttributes
  match ← kind with
  | .localRef id =>
    advance
    return (ty, some id, position)
  | _ => return (ty, none, position)

/-- The parameters, parentheses included, and whether there may be more. -/
def readParams : Reader (List (Ty × Option Ident × Position) × Bool) := do
  expect (.opener .round) "'('"
  if ← accept (.closer .round) then return ([], false)
  let (params, vararg) ← iterate (fun (params : Array (Ty × Option Ident × Position)) => do
    if ← accept .ellipsis then return .done (params, true)
    let params := params.push (← readParam)
    if ← accept .comma then return .again params else return .done (params, false)) #[]
  expect (.closer .round) "')'"
  return (params.toList, vararg)

/-- The header, from behind its first word up to the parameters. -/
def readHeader : Reader Header := do
  skipHeaderAttributes
  let ret ← Ty.read
  let name ← readName
  let (params, vararg) ← readParams
  return ⟨name, ret, params, vararg⟩

/-! ## Bodies -/

/-- The identifier of a result, if one is ahead together with its equals sign. -/
def readResult? : Reader (Option Ident) := do
  match ← kind, ← nextKind with
  | .localRef id, .equal =>
    advance
    advance
    return some id
  | _, _ => return none

/-- Adds the statement ahead to a draft. -/
def readStatement (ctx : Context) (d : Draft) : Reader Draft := do
  let position ← position
  let result? ← readResult?
  let instr ← readInstr ctx
  skipRestOfLine
  d.pushInstr result? instr position

/-- Adds what is ahead in a body to a draft, or ends the body. -/
def readBodyItem (ctx : Context) (d : Draft) : Reader (Round Draft Draft) := do
  match ← kind with
  | .closer .curly =>
    advance
    return .done d
  | .eof => unexpected "'\x7d' at end of function body"
  | .label text =>
    let position ← position
    advance
    return .again (← d.startBlock (some (.ofLabel text)) position)
  -- A debug record takes a line of its own.
  | .hash _ =>
    skipLine
    return .again d
  | _ => return .again (← readStatement ctx d)

/-- Whether a token opens a body. -/
def opensBody (t : Token) : Bool := t.kind == .opener .curly

/-- The function whose header is `h`, from behind its parameters to the end of its body. -/
def readBody (ctx : Context) (h : Header) : Reader Function := do
  -- Attributes of the function, up to its body.
  skipWhile (!opensBody ·)
  expect (.opener .curly) "'\x7b'"
  let d ← iterate (readBodyItem ctx) (← Draft.ofHeader h)
  d.finish

/-! ## Functions -/

/-- What is told of a declaration or a definition. -/
def entry (what name : String) : Entry := ⟨.debug, .functionReader, s!"{what} @{name}"⟩

/-- A declaration, from behind its first word to the end of its line. -/
def readDeclaration (c : Cursor) : Traced Diagnostic (Function × Cursor) := do
  let (h, c) ← .ofExcept (readHeader c)
  .tell (entry "declaration" h.name)
  let f ← .ofExcept (Draft.ofHeader h >>= Draft.finish)
  return (f, c.skipRestOfLine)

/-- A definition, from behind its first word to the end of its body. -/
def readDefinition (ctx : Context) (c : Cursor) : Traced Diagnostic (Function × Cursor) := do
  let (h, c) ← .ofExcept (readHeader c)
  .tell (entry "definition" h.name)
  .ofExcept (readBody ctx h c)

end IrRecords.Function
