import IrRecords.Ty.Table

/-!
# What instructions depend on

Reading an instruction needs two facts about the module around it: the bodies of the identified
structs, for steps through types, and whether pointers are opaque, for the types of addresses that
the text does not spell out.
-/

namespace IrRecords.Draft

/-- What the module says to the reader of an instruction. -/
structure Context where
  types : TypeTable
  opaquePointers : Bool

/-- The type of addresses of a `pointee` in an address space. -/
def Context.pointerTo (ctx : Context) (pointee : Ty) (space : Nat) : Ty :=
  if ctx.opaquePointers then .bare space else .pointer pointee space

end IrRecords.Draft
