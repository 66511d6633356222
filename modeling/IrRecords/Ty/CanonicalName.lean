import IrRecords.Ty.Basic

/-!
# Canonical names

Documents name types by short composed names: `I32`, `Array-4-I32`, `Pointer-Pointer-I8`. Only
integers, arrays and typed pointers compose. Every other type is named by its kind alone, so its
parts are lost, and so are the address spaces of typed pointers.
-/

namespace IrRecords.Ty

/-- The name of a type in documents. -/
def canonicalName : Ty → String
  | int bits => "I" ++ toString bits
  | array length elem => "Array-" ++ toString length ++ "-" ++ canonicalName elem
  | pointer pointee _ => "Pointer-" ++ canonicalName pointee
  | ty => ty.kindName

end IrRecords.Ty
