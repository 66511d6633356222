/-!
# Types

A type is a tree. Struct types come in two forms: a literal struct carries its fields, an
identified struct only its name, and the bodies of identified structs live in a table beside the
types (`IrRecords.Ty.Table`). So a struct that contains a pointer to itself is still a finite
tree, and equality of types is equality of trees, which is decidable (`Ty.same`).

Pointers come in two forms as well. A typed pointer knows what it points to, an opaque pointer
does not; a module uses the one form or the other.
-/

namespace IrRecords

/-- The types without parts. -/
inductive Primitive where
  | half | bfloat | float | double | x86Fp80 | fp128 | ppcFp128
  | void | label | metadata | x86Mmx | x86Amx | token
  deriving Repr, DecidableEq

namespace Primitive

/-- Every primitive type. -/
def all : List Primitive :=
  [half, bfloat, float, double, x86Fp80, fp128, ppcFp128, void, label, metadata, x86Mmx, x86Amx,
    token]

/-- The keyword of a primitive type. -/
def keyword : Primitive → String
  | half => "half"
  | bfloat => "bfloat"
  | float => "float"
  | double => "double"
  | x86Fp80 => "x86_fp80"
  | fp128 => "fp128"
  | ppcFp128 => "ppc_fp128"
  | void => "void"
  | label => "label"
  | metadata => "metadata"
  | x86Mmx => "x86_mmx"
  | x86Amx => "x86_amx"
  | token => "token"

/-- The primitive type that a keyword names. -/
def ofKeyword? (word : String) : Option Primitive := all.find? (·.keyword == word)

theorem ofKeyword?_keyword (p : Primitive) : ofKeyword? p.keyword = some p := by
  cases p <;> decide

end Primitive

/-- A type. -/
inductive Ty where
  /-- A type without parts. -/
  | primitive (p : Primitive)
  /-- Integers of the given number of bits. -/
  | int (bits : Nat)
  /-- Functions from `params` to `ret`; `vararg` ones take further arguments. -/
  | function (ret : Ty) (params : List Ty) (vararg : Bool)
  /-- Addresses of a `pointee` in an address space. -/
  | pointer (pointee : Ty) (space : Nat)
  /-- Addresses in an address space. -/
  | bare (space : Nat)
  /-- The struct that a table knows by this name. -/
  | named (name : String)
  /-- The struct with these fields. -/
  | literal (fields : List Ty) (packed : Bool)
  /-- Arrays of fixed length. -/
  | array (length : Nat) (elem : Ty)
  /-- Vectors of `length` elements, or of some multiple of it if `scalable`. -/
  | vector (scalable : Bool) (length : Nat) (elem : Ty)
  deriving Repr

namespace Ty

/-- The type of instructions without a value. -/
abbrev void : Ty := primitive .void

/-- The type of basic blocks. -/
abbrev label : Ty := primitive .label

/-- The type of metadata operands. -/
abbrev metadata : Ty := primitive .metadata

instance : Inhabited Ty := ⟨void⟩

/-! ## Equality -/

mutual

/-- Whether two types have the same form and equal parts. -/
def same : Ty → Ty → Bool
  | primitive p, primitive q => p == q
  | int m, int n => m == n
  | function r ps v, function s qs w => same r s && sameList ps qs && v == w
  | pointer p m, pointer q n => same p q && m == n
  | bare m, bare n => m == n
  | named s, named t => s == t
  | literal fs p, literal gs q => sameList fs gs && p == q
  | array m e, array n f => m == n && same e f
  | vector s m e, vector t n f => s == t && m == n && same e f
  | _, _ => false

/-- Whether two lists hold equal types in the same order. -/
def sameList : List Ty → List Ty → Bool
  | [], [] => true
  | a :: as, b :: bs => same a b && sameList as bs
  | _, _ => false

end

mutual

theorem same_iff : (a b : Ty) → (same a b = true ↔ a = b)
  | primitive _, b => by cases b <;> simp [same]
  | int _, b => by cases b <;> simp [same]
  | function r ps _, b => by cases b <;> simp [same, same_iff r, sameList_iff ps, and_assoc]
  | pointer p _, b => by cases b <;> simp [same, same_iff p]
  | bare _, b => by cases b <;> simp [same]
  | named _, b => by cases b <;> simp [same]
  | literal fs _, b => by cases b <;> simp [same, sameList_iff fs]
  | array _ e, b => by cases b <;> simp [same, same_iff e]
  | vector _ _ e, b => by cases b <;> simp [same, same_iff e, and_assoc]

theorem sameList_iff : (as bs : List Ty) → (sameList as bs = true ↔ as = bs)
  | [], bs => by cases bs <;> simp [sameList]
  | a :: as, bs => by cases bs <;> simp [sameList, same_iff a, sameList_iff as]

end

instance : DecidableEq Ty := fun a b => decidable_of_iff _ (same_iff a b)

/-! ## Parts -/

/-- The element type of an array or a vector. -/
def element? : Ty → Option Ty
  | array _ elem => some elem
  | vector _ _ elem => some elem
  | _ => none

/-- Whether the type is a vector type of either kind. -/
def isVector : Ty → Bool
  | vector .. => true
  | _ => false

/-- The element type of a vector type, any other type itself. -/
def scalar : Ty → Ty
  | vector _ _ elem => elem
  | ty => ty

/-- The vector type of the shape of `shape` with elements `elem`; `elem` itself where `shape` is no
vector type. -/
def reshape (shape elem : Ty) : Ty :=
  match shape with
  | vector scalable length _ => vector scalable length elem
  | _ => elem

/-! ## Kinds -/

/-- The form of a type, as documents name it. -/
def kindName : Ty → String
  | primitive .half => "Half"
  | primitive .bfloat => "BFloat"
  | primitive .float => "Float"
  | primitive .double => "Double"
  | primitive .x86Fp80 => "X86_FP80"
  | primitive .fp128 => "FP128"
  | primitive .ppcFp128 => "PPC_FP128"
  | primitive .void => "Void"
  | primitive .label => "Label"
  | primitive .metadata => "Metadata"
  | primitive .x86Mmx => "X86_MMX"
  | primitive .x86Amx => "X86_AMX"
  | primitive .token => "Token"
  | int _ => "Integer"
  | function .. => "Function"
  | pointer .. => "Pointer"
  | bare _ => "Pointer"
  | named _ => "Struct"
  | literal .. => "Struct"
  | array .. => "Array"
  | vector false .. => "FixedVector"
  | vector true .. => "ScalableVector"

end Ty

end IrRecords
