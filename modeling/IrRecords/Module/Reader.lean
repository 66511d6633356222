import IrRecords.Function.Reader
import IrRecords.Token.Lexer

/-!
# Reading modules

A source text is read in two sweeps over its tokens. The first collects the identified structs, so
that a function can step into a struct that is defined further down. Their definitions start at the
first column; anything else is passed token by token. The second sweep reads the functions in the
order of the text. Whatever else stands between functions, globals, metadata, targets, is passed
line by line, only groups of attributes may extend over several lines.

Two functions of one name are an error. Functions without a name are numbered and not compared.
-/

namespace IrRecords.Module

open Reader

/-! ## Identified structs -/

/-- The body of an identified struct called `name`. -/
def readStructBody (name : String) : Reader StructBody := do
  if ← acceptWord "opaque" then return ⟨none, false⟩
  let position ← position
  match ← Ty.read with
  | .literal fields packed => return ⟨some fields, packed⟩
  | other => failAt position (.notStruct name other)

/-- Whether the definition of an identified struct is ahead. -/
def atStruct (c : Cursor) : Bool :=
  match c.current.kind, (c.lookahead 1).kind, (c.lookahead 2).kind with
  | .localRef _, .equal, .word "type" => c.current.start.column == 1
  | _, _, _ => false

/-- Adds the definition ahead to a table; any other token is passed. -/
def readStruct (types : TypeTable) : Reader (Round TypeTable TypeTable) := do
  if atStruct (← get) then
    match ← kind with
    | .localRef id =>
      let name := Ty.structName id
      advance
      expect .equal "'='"
      expectWord "type"
      return .again (types.insert name (← readStructBody name))
    -- Not reached: `atStruct` has seen a reference here.
    | _ => unexpected "a type name"
  else if ← isAt .eof then return .done types
  else
    advance
    return .again types

/-- The identified structs of a module. -/
def readStructs : Reader TypeTable := iterate readStruct .empty

/-! ## Functions -/

/-- The functions read so far, and where the named ones start, latest first. -/
structure Progress where
  functions : Array Function
  starts : List (String × Position)

/-- Adds a function that starts at a position. -/
def Progress.push (p : Progress) (f : Function) (position : Position) :
    Except Diagnostic Progress :=
  if f.name = "" then .ok { p with functions := p.functions.push f }
  else
    match p.starts.lookup f.name with
    | some first => .error ⟨position, .functionRedefined f.name first⟩
    | none => .ok ⟨p.functions.push f, (f.name, position) :: p.starts⟩

/-- Passes what is no function: a line, or a group of attributes. -/
def skipItem : Reader Unit := do
  if ← isAt (.word "attributes") then
    skipWhile (!Function.opensBody ·)
    if ← isAt (.opener .curly) then skipGroup
  else skipLine

/-- The functions ahead of the cursor, behind those of `p`, in at most as many items as `bound` has
elements. -/
def readItems (ctx : Draft.Context) : (bound : List Token) → Progress → Cursor →
    Traced Diagnostic Progress
  -- Not reached from `ofStream`: each item takes a token at least.
  | [], _, c => .ofExcept (.error ⟨c.current.start, .stalled⟩)
  | _ :: bound, p, c => do
    let position := c.current.start
    match c.current.kind with
    | .eof => return p
    | .word "define" =>
      let (f, c) ← Function.readDefinition ctx c.advance
      readItems ctx bound (← .ofExcept (p.push f position)) c
    | .word "declare" =>
      let (f, c) ← Function.readDeclaration c.advance
      readItems ctx bound (← .ofExcept (p.push f position)) c
    | _ =>
      let ((), c) ← .ofExcept (skipItem c)
      readItems ctx bound p c

/-! ## Modules -/

/-- Whether the tokens speak of pointers that do not know what they point to. -/
def usesOpaquePointers (tokens : List Token) : Bool := tokens.any (·.kind == .word "ptr")

/-- What is told of a module that has been read. -/
def entry (functions types : Nat) : Entry :=
  ⟨.debug, .moduleReader, s!"parsed module: {functions} functions, {types} named types"⟩

/-- The module that a row of tokens describes. -/
def ofStream (s : Token.Stream) : Traced Diagnostic Module := do
  let start : Cursor := ⟨none, s.tokens, s.stop⟩
  let (types, _) ← .ofExcept (readStructs start)
  let ctx : Draft.Context := ⟨types, usesOpaquePointers s.tokens⟩
  -- The second sweep goes over the definitions of structs once more, as lines of no interest.
  let p ← readItems ctx start.bound ⟨#[], []⟩ start
  .tell (entry p.functions.size types.size)
  return ⟨types, p.functions.toList, ctx.opaquePointers⟩

/-- The module that a source text describes. -/
def read (source : String) : Traced Diagnostic Module := do
  ofStream (← .ofExcept (Token.scan source))

end IrRecords.Module
