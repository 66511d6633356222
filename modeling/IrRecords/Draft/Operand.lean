import IrRecords.Draft.Basic
import IrRecords.Ty.Reader

/-!
# Reading operands

An operand follows its type. It is a reference, or else a constant, and constants are kept as
text: the text between the cursors in front of the constant and behind it, on one line. So a
constant need not be understood, its end has to be found. A literal ends with its token, an
aggregate with its closing bracket, and a constant expression is a row of words and one group in
parentheses. Metadata operands are texts as well.
-/

namespace IrRecords.Draft

open Reader

/-- The words that are constants by themselves. -/
def constantWords : List String :=
  ["true", "false", "null", "undef", "poison", "zeroinitializer", "none"]

/-- The words that may stand between `asm` and the assembly text. -/
def asmFlags : List String := ["sideeffect", "alignstack", "inteldialect", "unwind"]

/-- Passes a string literal. -/
def passString (what : String) : Reader Unit := do
  match ← kind with
  | .str _ => advance
  | _ => unexpected what

/-- Passes a reference to a global. -/
def passGlobal : Reader Unit := do
  match ← kind with
  | .globalRef _ => advance
  | _ => unexpected "a global"

/-- Whether a token is a word. -/
def isWord (t : Token) : Bool :=
  match t.kind with
  | .word _ => true
  | _ => false

/-- Passes a constant that starts with the word `w`. -/
def passWordConstant (w : String) : Reader Unit := do
  if constantWords.contains w then advance
  else if w == "asm" then
    advance
    skipWords asmFlags
    passString "an assembly string"
    expectComma
    passString "a constraint string"
  else if w == "dso_local_equivalent" || w == "no_cfi" then
    advance
    passGlobal
  else
    -- All else is taken for an expression: its operation, flags and attributes, then its group.
    skipWhile isWord
    if ← isAt (.opener .round) then skipGroup else unexpected "a value"

/-- Passes a constant. -/
def passConstant : Reader Unit := do
  match ← kind with
  | .int _ | .float _ | .chars _ => advance
  | .opener .square | .opener .curly | .opener .angle => skipGroup
  | .word w => passWordConstant w
  | _ => unexpected "a value"

/-- Passes metadata: a node, a string, or a type and a value. -/
def passMetadata : Reader Unit := do
  match ← kind with
  | .metadata _ =>
    advance
    if ← isAt (.opener .round) then skipGroup
  | .bang =>
    advance
    match ← kind with
    | .opener .curly => skipGroup
    | .str _ => advance
    | _ => unexpected "metadata"
  | _ =>
    let _ ← Ty.read
    match ← kind with
    | .localRef _ | .globalRef _ => advance
    | _ => passConstant

/-- The operand ahead, which is used at the type `ty`. -/
def readOperand (ty : Ty) : Reader Operand := do
  -- A reference inside of metadata is a part of its text.
  if ty = .metadata then return .known (.constant ty (← passedText passMetadata))
  let position ← position
  match ← kind with
  | .localRef id =>
    advance
    return .reference id ty position
  | .globalRef id =>
    advance
    return .known (.global ty id)
  | _ => return .known (.constant ty (← passedText passConstant))

/-- A type and an operand of that type. -/
def readTypedOperand : Reader (Ty × Operand) := do
  let ty ← Ty.read
  let operand ← readOperand ty
  return (ty, operand)

/-- The number that a constant operand writes, if it is one that can select a field. -/
def Operand.constantIndex? : Operand → Option Nat
  | known ⟨_, _, _, .constant text⟩ => Text.decimal? Text.bound64 text.toList
  | _ => none

end IrRecords.Draft
