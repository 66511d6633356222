import IrRecords.Text.Decimal
import IrRecords.Text.Quoted

/-!
# Identifiers

A value, a block or a function is referred to by its name or, if it has none, by its slot, the
number that its position gives it. The two never meet: a name made of digits is quoted.
-/

namespace IrRecords

/-- What stands behind a sigil. -/
inductive Ident where
  /-- A declared name. -/
  | named (name : String)
  /-- The number of something without a name. -/
  | slot (number : Nat)
  deriving Repr, DecidableEq

namespace Ident

/-- The identifier as it is written, without its sigil. -/
def spelling : Ident → String
  | named name => Text.quoteName name
  | slot number => toString number

/-- The identifier that the label `text` declares: digits that fit 32 bits are a slot. -/
def ofLabel (text : String) : Ident :=
  match Text.decimal? Text.bound32 text.toList with
  | some number => slot number
  -- More digits than fit are a name.
  | none => named text

/-- The declared name, empty for a slot. -/
def name : Ident → String
  | named name => name
  | slot _ => ""

/-- The slot, if there is no name. -/
def slot? : Ident → Option Nat
  | named _ => none
  | slot number => some number

end Ident

end IrRecords
