import IrRecords.Proofs.Text.Decimal
import IrRecords.Ty.CanonicalName

/-!
# What a canonical name keeps

A canonical name spells the outer part of a type, where integers, arrays and typed pointers are,
and stops at whatever else it comes to. `Ty.Skeleton` is that outer part: it has no room for the
address space of a typed pointer, and below it every other type is its kind and nothing more. The
name of a type is a spelling of its skeleton, and this spelling can be read back: a name that goes
on has a dash in it, no name of a kind has one, and the row of digits of a length ends where the
next dash stands.
-/

namespace IrRecords.Ty

/-! ## Kinds -/

/-- The form of a type. Both forms of structs have one kind, and both forms of pointers. -/
inductive Kind where
  | half | bfloat | float | double | x86Fp80 | fp128 | ppcFp128
  | void | label | metadata | x86Mmx | x86Amx | token
  | integer | function | pointer | struct | array | fixedVector | scalableVector
  deriving Repr, DecidableEq

namespace Kind

/-- Every kind. -/
def all : List Kind :=
  [half, bfloat, float, double, x86Fp80, fp128, ppcFp128, void, label, metadata, x86Mmx, x86Amx,
    token, integer, function, pointer, struct, array, fixedVector, scalableVector]

/-- How documents name a kind. -/
def name : Kind → String
  | half => "Half"
  | bfloat => "BFloat"
  | float => "Float"
  | double => "Double"
  | x86Fp80 => "X86_FP80"
  | fp128 => "FP128"
  | ppcFp128 => "PPC_FP128"
  | void => "Void"
  | label => "Label"
  | metadata => "Metadata"
  | x86Mmx => "X86_MMX"
  | x86Amx => "X86_AMX"
  | token => "Token"
  | integer => "Integer"
  | function => "Function"
  | pointer => "Pointer"
  | struct => "Struct"
  | array => "Array"
  | fixedVector => "FixedVector"
  | scalableVector => "ScalableVector"

/-- A kind is the first one that has its name. -/
theorem find?_name (k : Kind) : all.find? (·.name == k.name) = some k := by
  cases k <;> decide

theorem name_inj {k l : Kind} (h : k.name = l.name) : k = l := by
  have hk := find?_name k
  rw [h, find?_name l] at hk
  exact (Option.some.inj hk).symm

/-- The name of a kind has no dash in it. -/
theorem dash_notMem_name (k : Kind) : '-' ∉ k.name.toList := by
  cases k <;> decide

/-- The name of a kind is not an `I` and a number: the one name with this letter goes on with
another. -/
theorem name_ne_integer (k : Kind) (bits : Nat) : k.name ≠ "I" ++ toString bits := by
  intro h
  have hdigits := (Text.isNumeral_toString bits).2
  have htail : k.name.toList.tail = (toString bits).toList := by
    rw [h, String.toList_append]
    rfl
  have hhead : k.name.toList.head? = some 'I' := by
    rw [h, String.toList_append]
    rfl
  rw [← htail] at hdigits
  cases k with
  | integer => exact absurd (hdigits 'n' (by decide)) (by decide)
  | _ => exact absurd hhead (by decide)

end Kind

/-- The form of a type. -/
def kindOf : Ty → Kind
  | primitive .half => .half
  | primitive .bfloat => .bfloat
  | primitive .float => .float
  | primitive .double => .double
  | primitive .x86Fp80 => .x86Fp80
  | primitive .fp128 => .fp128
  | primitive .ppcFp128 => .ppcFp128
  | primitive .void => .void
  | primitive .label => .label
  | primitive .metadata => .metadata
  | primitive .x86Mmx => .x86Mmx
  | primitive .x86Amx => .x86Amx
  | primitive .token => .token
  | int _ => .integer
  | function .. => .function
  | pointer .. => .pointer
  | bare _ => .pointer
  | named _ => .struct
  | literal .. => .struct
  | array .. => .array
  | vector false .. => .fixedVector
  | vector true .. => .scalableVector

theorem kindName_eq (ty : Ty) : ty.kindName = ty.kindOf.name := by
  cases ty with
  | primitive p => cases p <;> rfl
  | vector scalable _ _ => cases scalable <;> rfl
  | _ => rfl

/-! ## Skeletons -/

/-- A type as far as it is built from integers, arrays and typed pointers; what stands below them
is a kind, and address spaces are not told. -/
inductive Skeleton where
  | integer (bits : Nat)
  | array (length : Nat) (elem : Skeleton)
  | pointer (pointee : Skeleton)
  | other (kind : Kind)
  deriving Repr, DecidableEq

/-- What stays of a type when the address spaces of typed pointers are forgotten and every part
that is no integer, no array and no typed pointer is replaced by its kind. -/
def skeleton : Ty → Skeleton
  | int bits => .integer bits
  | array length elem => .array length elem.skeleton
  | pointer pointee _ => .pointer pointee.skeleton
  | ty => .other ty.kindOf

namespace Skeleton

/-- The spelling of a skeleton. -/
def name : Skeleton → String
  | integer bits => "I" ++ toString bits
  | array length elem => "Array-" ++ toString length ++ "-" ++ elem.name
  | pointer pointee => "Pointer-" ++ pointee.name
  | other kind => kind.name

theorem toList_name_integer (bits : Nat) :
    (integer bits).name.toList = 'I' :: (toString bits).toList := by
  rw [name, String.toList_append]
  rfl

theorem toList_name_array (length : Nat) (elem : Skeleton) : (array length elem).name.toList
    = "Array-".toList ++ ((toString length).toList ++ '-' :: elem.name.toList) := by
  simp only [name, String.toList_append, List.append_assoc]
  rfl

theorem toList_name_pointer (pointee : Skeleton) :
    (pointer pointee).name.toList = "Pointer-".toList ++ pointee.name.toList := by
  rw [name, String.toList_append]

/-- A row of digits ends where the dash behind it stands. -/
theorem eq_of_digits_dash {v w x y : List Char} (hv : ∀ c ∈ v, c.isDigit = true)
    (hw : ∀ c ∈ w, c.isDigit = true) (h : v ++ '-' :: x = w ++ '-' :: y) : v = w ∧ x = y := by
  -- A dash is no digit, so neither row goes on where the other one ends.
  induction v generalizing w with
  | nil =>
    cases w with
    | nil => exact ⟨rfl, (List.cons.inj h).2⟩
    | cons c w =>
      obtain ⟨rfl, -⟩ := List.cons.inj h
      exact absurd (hw '-' List.mem_cons_self) (by decide)
  | cons c v ih =>
    cases w with
    | nil =>
      obtain ⟨rfl, -⟩ := List.cons.inj h
      exact absurd (hv '-' List.mem_cons_self) (by decide)
    | cons d w =>
      obtain ⟨rfl, htail⟩ := List.cons.inj h
      rw [List.forall_mem_cons] at hv hw
      obtain ⟨rfl, rfl⟩ := ih hv.2 hw.2 htail
      exact ⟨rfl, rfl⟩

/-- The spelling of a kind is not one that goes on behind a dash. -/
theorem kindName_ne_of_dash {s : Skeleton} (hs : '-' ∈ s.name.toList) (k : Kind) :
    s.name ≠ k.name :=
  fun h => k.dash_notMem_name (h ▸ hs)

theorem dash_mem_array (length : Nat) (elem : Skeleton) :
    '-' ∈ (array length elem).name.toList := by
  rw [toList_name_array]
  exact List.mem_append_left _ (by decide)

theorem dash_mem_pointer (pointee : Skeleton) : '-' ∈ (pointer pointee).name.toList := by
  rw [toList_name_pointer]
  exact List.mem_append_left _ (by decide)

/-- Spellings of different first letters differ. -/
theorem name_ne_of_head {s t : Skeleton} (h : s.name.toList.head? ≠ t.name.toList.head?) :
    s.name ≠ t.name :=
  fun heq => h (heq ▸ rfl)

theorem head?_array (length : Nat) (elem : Skeleton) :
    (array length elem).name.toList.head? = some 'A' := by
  rw [toList_name_array]
  rfl

theorem head?_pointer (pointee : Skeleton) :
    (pointer pointee).name.toList.head? = some 'P' := by
  rw [toList_name_pointer]
  rfl

theorem head?_integer (bits : Nat) : (integer bits).name.toList.head? = some 'I' := by
  rw [toList_name_integer]
  rfl

/-- **A skeleton can be read from its spelling.** -/
theorem name_inj {s t : Skeleton} (h : s.name = t.name) : s = t := by
  -- Both are taken apart, since the first letter and the dashes decide the outermost part.
  induction s generalizing t with
  | integer bits =>
    cases t with
    | integer bits' =>
      have hdigits := congrArg String.toList h
      rw [toList_name_integer, toList_name_integer, List.cons.injEq] at hdigits
      rw [Text.eq_of_toString_eq (String.toList_inj.mp hdigits.2)]
    | array => exact absurd h (name_ne_of_head (by simp [head?_integer, head?_array]))
    | pointer => exact absurd h (name_ne_of_head (by simp [head?_integer, head?_pointer]))
    | other k => exact absurd h.symm (k.name_ne_integer bits)
  | array length elem ih =>
    cases t with
    | integer => exact absurd h (name_ne_of_head (by simp [head?_integer, head?_array]))
    | array length' elem' =>
      have hrest := congrArg String.toList h
      rw [toList_name_array, toList_name_array, List.append_cancel_left_eq] at hrest
      obtain ⟨hlength, helem⟩ := eq_of_digits_dash (Text.isNumeral_toString length).2
        (Text.isNumeral_toString length').2 hrest
      rw [Text.eq_of_toString_eq (String.toList_inj.mp hlength), ih (String.toList_inj.mp helem)]
    | pointer => exact absurd h (name_ne_of_head (by simp [head?_array, head?_pointer]))
    | other k => exact absurd h (kindName_ne_of_dash (dash_mem_array length elem) k)
  | pointer pointee ih =>
    cases t with
    | integer => exact absurd h (name_ne_of_head (by simp [head?_integer, head?_pointer]))
    | array => exact absurd h (name_ne_of_head (by simp [head?_array, head?_pointer]))
    | pointer pointee' =>
      have hrest := congrArg String.toList h
      rw [toList_name_pointer, toList_name_pointer, List.append_cancel_left_eq] at hrest
      rw [ih (String.toList_inj.mp hrest)]
    | other k => exact absurd h (kindName_ne_of_dash (dash_mem_pointer pointee) k)
  | other k =>
    cases t with
    | integer bits => exact absurd h (k.name_ne_integer bits)
    | array length elem => exact absurd h.symm (kindName_ne_of_dash (dash_mem_array length elem) k)
    | pointer pointee => exact absurd h.symm (kindName_ne_of_dash (dash_mem_pointer pointee) k)
    | other k' => rw [Kind.name_inj h]

end Skeleton

/-- The canonical name spells the skeleton. -/
theorem canonicalName_eq (ty : Ty) : ty.canonicalName = ty.skeleton.name := by
  induction ty using canonicalName.induct with
  | case1 bits => rfl
  | case2 length elem ih => rw [canonicalName, skeleton, Skeleton.name, ih]
  | case3 pointee space ih => rw [canonicalName, skeleton, Skeleton.name, ih]
  | case4 ty hint harray hpointer =>
    rw [canonicalName, skeleton, Skeleton.name, kindName_eq]
    all_goals assumption

/-! ## Types that are their skeletons -/

/-- Whether a type is built by arrays and typed pointers of address space 0 from integers, types
without parts and the opaque pointer of address space 0. -/
def isElementary : Ty → Bool
  | primitive _ => true
  | int _ => true
  | bare space => space == 0
  | array _ elem => elem.isElementary
  | pointer pointee space => space == 0 && pointee.isElementary
  | _ => false

/-- The elementary type of a kind; kinds of other types give the opaque pointer as well. -/
def ofKind : Kind → Ty
  | .half => primitive .half
  | .bfloat => primitive .bfloat
  | .float => primitive .float
  | .double => primitive .double
  | .x86Fp80 => primitive .x86Fp80
  | .fp128 => primitive .fp128
  | .ppcFp128 => primitive .ppcFp128
  | .void => primitive .void
  | .label => primitive .label
  | .metadata => primitive .metadata
  | .x86Mmx => primitive .x86Mmx
  | .x86Amx => primitive .x86Amx
  | .token => primitive .token
  | _ => bare 0

/-- The elementary type that has a skeleton. -/
def ofSkeleton : Skeleton → Ty
  | .integer bits => int bits
  | .array length elem => array length (ofSkeleton elem)
  | .pointer pointee => pointer (ofSkeleton pointee) 0
  | .other kind => ofKind kind

/-- An elementary type can be built again from its skeleton. -/
theorem ofSkeleton_skeleton {ty : Ty} (h : ty.isElementary = true) :
    ofSkeleton ty.skeleton = ty := by
  induction ty using isElementary.induct with
  | case1 p => cases p <;> rfl
  | case2 bits => rfl
  | case3 space =>
    rw [eq_of_beq h]
    rfl
  | case4 length elem ih => rw [skeleton, ofSkeleton, ih h]
  | case5 pointee space ih =>
    rw [isElementary, Bool.and_eq_true, beq_iff_eq] at h
    rw [skeleton, ofSkeleton, ih h.2, h.1]
  | case6 ty => exact absurd h (by rw [isElementary] <;> simp_all)

/-- **Canonical names lose what is below integers, arrays and typed pointers, and the address
spaces of typed pointers, and nothing else.** -/
theorem canonicalName_eq_iff (a b : Ty) :
    (a.canonicalName = b.canonicalName ↔ a.skeleton = b.skeleton)
      ∧ (a.isElementary = true → b.isElementary = true →
        a.canonicalName = b.canonicalName → a = b) := by
  have hiff : a.canonicalName = b.canonicalName ↔ a.skeleton = b.skeleton := by
    rw [canonicalName_eq, canonicalName_eq]
    exact ⟨Skeleton.name_inj, fun h => by rw [h]⟩
  refine ⟨hiff, fun ha hb h => ?_⟩
  rw [← ofSkeleton_skeleton ha, ← ofSkeleton_skeleton hb, hiff.mp h]

/-- Pointers to structs have one name in all address spaces and for all structs, and the name of an
array of pointers is the name of no other elementary type. -/
theorem canonicalName_eq_of_structs :
    (pointer (named "a") 3).canonicalName = (pointer (literal [int 8] true) 0).canonicalName
    ∧ (∃ a b, a.isElementary = true ∧ b.isElementary = true ∧ a.canonicalName = b.canonicalName
      ∧ a = array 2 (pointer (bare 0) 0) ∧ a = b) := by
  refine ⟨(canonicalName_eq_iff _ _).1.mpr rfl, array 2 (pointer (bare 0) 0),
    ofSkeleton (.array 2 (.pointer (.other .pointer))), by decide, by decide, by decide, rfl, ?_⟩
  exact (canonicalName_eq_iff _ _).2 (by decide) (by decide) (by decide)

end IrRecords.Ty
