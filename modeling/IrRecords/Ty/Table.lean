import IrRecords.Ty.Printer

/-!
# Identified structs

A table maps the names of identified structs to their bodies. A struct may be declared without a
body; it then has a name and no fields. `indexed` is the walk that address computations and
aggregate accesses make through a type: a struct step selects a field and needs a constant index,
an array or vector step goes to the element whatever the index is.
-/

namespace IrRecords

/-- The body of an identified struct. -/
structure StructBody where
  /-- The fields, unless the struct is declared without a body. -/
  fields? : Option (List Ty)
  packed : Bool
  deriving Repr, DecidableEq

/-- The identified structs of a module, each name once. -/
structure TypeTable where
  entries : List (String × StructBody)
  deriving Repr, DecidableEq

/-- Why a type cannot be indexed. -/
inductive IndexFault where
  /-- The struct has no body. -/
  | bodiless (name : String)
  /-- The table has no struct of this name. -/
  | undefined (name : String)
  /-- A struct step whose index is no constant. -/
  | notConstant (ty : Ty)
  /-- A struct step past the last field. -/
  | outOfRange (index : Nat) (ty : Ty)
  /-- A step into a type without elements. -/
  | notAggregate (ty : Ty)
  deriving Repr, DecidableEq

namespace IndexFault

/-- The fault in words. -/
def message : IndexFault → String
  | bodiless name => s!"cannot index into opaque struct %{name}"
  | undefined name => s!"use of undefined type %{name}"
  | notConstant ty => s!"struct index into {ty.text} must be a constant"
  | outOfRange index ty => s!"field index {index} out of range for {ty.text}"
  | notAggregate ty => s!"invalid index into non-aggregate type {ty.text}"

end IndexFault

namespace TypeTable

/-- The table without structs. -/
def empty : TypeTable := ⟨[]⟩

/-- The body of the struct `name`. -/
def get? (t : TypeTable) (name : String) : Option StructBody := t.entries.lookup name

/-- Replaces the body in the entry of `name`, or adds an entry at the end. -/
def insertEntry (name : String) (body : StructBody) :
    List (String × StructBody) → List (String × StructBody)
  | [] => [(name, body)]
  | (other, old) :: rest =>
    if other = name then (name, body) :: rest else (other, old) :: insertEntry name body rest

/-- Gives the struct `name` a body; an earlier one is replaced. -/
def insert (t : TypeTable) (name : String) (body : StructBody) : TypeTable :=
  ⟨insertEntry name body t.entries⟩

/-- How many structs the table knows. -/
def size (t : TypeTable) : Nat := t.entries.length

/-- The fields of a struct type; any other type has no elements to select. -/
def fields (t : TypeTable) : Ty → Except IndexFault (List Ty)
  | .literal fields _ => .ok fields
  | .named name =>
    match t.get? name with
    | some ⟨some fields, _⟩ => .ok fields
    | some ⟨none, _⟩ => .error (.bodiless name)
    | none => .error (.undefined name)
  | ty => .error (.notAggregate ty)

/-- The field of the struct type `ty` that `index` selects. -/
def field (t : TypeTable) (ty : Ty) : Option Nat → Except IndexFault Ty
  | none => .error (.notConstant ty)
  | some index =>
    match t.fields ty with
    | .error fault => .error fault
    | .ok fields =>
      match fields[index]? with
      | some ty => .ok ty
      | none => .error (.outOfRange index ty)

/-- One step into `ty`; the index is `none` where it is no constant. -/
def step (t : TypeTable) (ty : Ty) (index : Option Nat) : Except IndexFault Ty :=
  match ty with
  | .literal .. | .named _ => t.field ty index
  | .array _ elem | .vector _ _ elem => .ok elem
  | ty => .error (.notAggregate ty)

/-- The type that the steps `indices` reach from `ty`. -/
def indexed (t : TypeTable) (ty : Ty) : List (Option Nat) → Except IndexFault Ty
  | [] => .ok ty
  | index :: rest =>
    match t.step ty index with
    | .error fault => .error fault
    | .ok next => t.indexed next rest

end TypeTable

end IrRecords
