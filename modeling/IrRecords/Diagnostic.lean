import IrRecords.Ident
import IrRecords.Text.Position
import IrRecords.Ty.Table

/-!
# Diagnostics

Whatever is wrong with a source text is wrong at a position and for a cause. Causes are values;
`Fault.message` is the one place that knows their wording. Identifiers are quoted in messages
where the source would quote them, names of identified structs are shown as they are.
-/

namespace IrRecords

/-- What takes a slot number. -/
inductive Numbered where
  | argument | label | instruction
  deriving Repr, DecidableEq

/-- The noun in messages. -/
def Numbered.noun : Numbered → String
  | argument => "argument"
  | label => "label"
  | instruction => "instruction"

/-- What can be wrong with a source text. -/
inductive Fault where
  /-- The bytes of a name are no text. -/
  | nameNotUtf8
  /-- A number behind a sigil does not fit 32 bits. -/
  | numberTooLarge (digits : String)
  /-- Nothing that could be a name follows a sigil. -/
  | nameMissing (sigil : Char)
  /-- A quoted text has no end. -/
  | unterminatedString
  /-- Something else stands where `what` should; `found?` is its text, `none` at the end. -/
  | expected (what : String) (found? : Option String)
  /-- A bracketed group has no end. -/
  | unbalancedBrackets
  /-- A type definition whose right side is no literal struct. -/
  | notStruct (name : String) (found : Ty)
  /-- A step into a type fails. -/
  | index (fault : IndexFault)
  /-- An operand that should be a vector has another type. -/
  | notVector (found : Ty)
  /-- A second function of one name. -/
  | functionRedefined (name : String) (first : Position)
  /-- A second value of one name. -/
  | valueRedefined (id : Ident)
  /-- An operand that no definition answers. -/
  | valueUndefined (id : Ident)
  /-- An operand used at another type than its definition's. -/
  | typeMismatch (id : Ident) (defined used : Ty)
  /-- A phi edge from something that is no block. -/
  | notBlock (id : Ident)
  /-- A slot number out of order. -/
  | misnumbered (what : Numbered) (next found : Nat)
  /-- A name for the result of an instruction without one. -/
  | namedVoid (id : Ident)
  /-- A loop over the tokens that does not get to its end. No source text leads to it. -/
  | stalled
  deriving Repr, DecidableEq

namespace Fault

/-- The fault in words. -/
def message : Fault → String
  | nameNotUtf8 => "name is not valid UTF-8"
  | numberTooLarge digits => s!"value number '{digits}' is too large"
  | nameMissing sigil => s!"expected a name after '{sigil}'"
  | unterminatedString => "unterminated string"
  | expected what none => s!"expected {what}, found end of file"
  | expected what (some found) => s!"expected {what}, found '{found}'"
  | unbalancedBrackets => "unbalanced brackets"
  | notStruct name found => s!"named type %{name} must be a struct, found {found.text}"
  | index fault => fault.message
  | notVector found => s!"{found.text} is not a vector"
  | functionRedefined name first =>
    let quoted := Text.quoteName name
    s!"invalid redefinition of function '@{quoted}' (first defined at {first.text})"
  | valueRedefined id => s!"redefinition of value '%{id.spelling}'"
  | valueUndefined id => s!"use of undefined value '%{id.spelling}'"
  | typeMismatch id defined used =>
    s!"'%{id.spelling}' defined with type '{defined.text}' but expected '{used.text}'"
  | notBlock id => s!"'%{id.spelling}' is not a basic block"
  | misnumbered what next found =>
    s!"{what.noun} expected to be numbered '%{next}', found '%{found}'"
  | namedVoid id => s!"instructions returning void cannot have a name (%{id.spelling})"
  | stalled => "no progress"

end Fault

/-- A fault and where it was found. -/
structure Diagnostic where
  position : Position
  fault : Fault
  deriving Repr, DecidableEq

/-- The diagnostic as users see it. -/
def Diagnostic.message (d : Diagnostic) : String := s!"{d.position.text}: {d.fault.message}"

end IrRecords
