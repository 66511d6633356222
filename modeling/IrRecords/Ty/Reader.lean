import IrRecords.Token.Reader

/-!
# Reading types

A type is a base, which starts with a keyword, a bracket or a reference to an identified struct,
and any number of suffixes: stars make pointers, parameter lists make functions. Types nest inside
brackets only, so they are nested less deep than there are tokens ahead, and the row of these
tokens bounds the recursion.
-/

namespace IrRecords

/-- The width that a word such as `i32` names. -/
def intWidth? (word : String) : Option Nat :=
  match word.toList with
  | 'i' :: digits =>
    match Text.decimal? Text.bound32 digits with
    -- There are no integers without bits.
    | some 0 => none
    | width => width
  | _ => none

/-- Whether a word alone is a type. -/
def isTypeWord (word : String) : Bool :=
  (Primitive.ofKeyword? word).isSome || word == "ptr" || (intWidth? word).isSome

/-- Whether a type can start with a token of this kind. -/
def startsType : TokenKind → Bool
  | .word w => isTypeWord w
  | .opener .square | .opener .curly | .opener .angle => true
  | .localRef _ => true
  | _ => false

namespace Ty

open Reader

/-- The number of an address space. -/
def readSpace : Reader Nat := do
  expectWord "addrspace"
  expect (.opener .round) "'('"
  let space ← expectNumber Text.bound32 "an address space"
  expect (.closer .round) "')'"
  return space

/-- The fields of a literal struct, braces included; `item` reads one of them. -/
def readFields (item : Reader Ty) : Reader (List Ty) := do
  expect (.opener .curly) "'\x7b'"
  if ← accept (.closer .curly) then return []
  let fields ← commaSeparated item
  expect (.closer .curly) "'\x7d'"
  return fields

/-- The parameters of a function type, parentheses included, and whether there may be more. -/
def readParams (item : Reader Ty) : Reader (List Ty × Bool) := do
  expect (.opener .round) "'('"
  if ← accept (.closer .round) then return ([], false)
  let (params, vararg) ← iterate (fun (params : Array Ty) => do
    -- Dots stand in the place of a parameter and are the last.
    if ← accept .ellipsis then return .done (params, true)
    let params := params.push (← item)
    if ← accept .comma then return .again params else return .done (params, false)) #[]
  expect (.closer .round) "')'"
  return (params.toList, vararg)

/-- A length and the word `x` in front of an element type. -/
def readLength (bound : Nat) (what : String) : Reader Nat := do
  let length ← expectNumber bound what
  expectWord "x"
  return length

/-- A type of one word. -/
def readWord (word : String) : Reader Ty := do
  if word == "ptr" then
    advance
    if ← isAt (.word "addrspace") then return bare (← readSpace) else return bare 0
  match Primitive.ofKeyword? word with
  | some p =>
    advance
    return primitive p
  | none =>
    match intWidth? word with
    | some bits =>
      advance
      return int bits
    | none => unexpected "a type"

/-- An array type from behind its opening bracket. -/
def readArray (item : Reader Ty) : Reader Ty := do
  let length ← readLength Text.bound64 "an array length"
  let elem ← item
  expect (.closer .square) "']'"
  return array length elem

/-- A vector type or a packed struct from behind its opening bracket. -/
def readAngled (item : Reader Ty) : Reader Ty := do
  -- The angle brackets of a packed struct stand around its braces.
  if ← isAt (.opener .curly) then
    let fields ← readFields item
    expect (.closer .angle) "'>'"
    return literal fields true
  let scalable ← acceptWord "vscale"
  if scalable then expectWord "x"
  let length ← readLength Text.bound32 "a vector length"
  let elem ← item
  expect (.closer .angle) "'>'"
  return vector scalable length elem

/-- The name of the identified struct that a reference stands for. -/
def structName : Ident → String
  | .named name => name
  | .slot number => toString number

/-- A type without suffixes; `item` reads the types inside it. -/
def readBase (item : Reader Ty) : Reader Ty := do
  match ← kind with
  | .word word => readWord word
  | .opener .square =>
    advance
    readArray item
  | .opener .angle =>
    advance
    readAngled item
  | .opener .curly => return literal (← readFields item) false
  | .localRef id =>
    advance
    return named (structName id)
  | _ => unexpected "a type"

/-- One suffix behind the type `ty`, or the end of the type. -/
def readSuffix (item : Reader Ty) (ty : Ty) : Reader (Round Ty Ty) := do
  match ← kind with
  | .star =>
    advance
    return .again (pointer ty 0)
  | .word "addrspace" =>
    let space ← readSpace
    expect .star "'*'"
    return .again (pointer ty space)
  | .opener .round =>
    let (params, vararg) ← readParams item
    return .again (function ty params vararg)
  | _ => return .done ty

/-- A type nested less deep than `bound` is long. -/
def readWithin : (bound : List Token) → Reader Ty
  -- Not reached from `read`: each level of nesting takes a token.
  | [] => fun c => .error ⟨c.current.start, .stalled⟩
  | _ :: bound => do
    let base ← readBase (readWithin bound)
    iterate (readSuffix (readWithin bound)) base

/-- The type ahead. -/
def read : Reader Ty := fun c => readWithin c.bound c

end Ty

end IrRecords
