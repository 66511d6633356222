import IrRecords.Ty.Table
import Mathlib.Data.List.Forall2

/-!
# Structs with and without names

An identified struct stands for the literal struct with its body. To unfold it in a type is to write the
literal struct in its place (`Ty.Unfolds`), and the bodies of a table may be unfolded as well
(`TypeTable.Unfolds`). A struct may contain itself behind a pointer, so there is no form in which nothing
is left to unfold, and two types that are the same up to unfolding are related rather than equal. A step
keeps this relation (`step_unfolds`), and so does a walk (`indexed_unfolds`): names make no difference to
where indices lead, nor to whether and why they lead nowhere.
-/

namespace IrRecords

/-- The second type is the first one, with the literal struct in some places in which the first one has one
of the structs `names`. What is written there is the body that the table has for the struct, which may itself
have been unfolded. -/
inductive Ty.Unfolds (t : TypeTable) (names : String → Prop) : Ty → Ty → Prop
  | primitive (p : Primitive) : Unfolds t names (.primitive p) (.primitive p)
  | int (bits : Nat) : Unfolds t names (.int bits) (.int bits)
  | function {ret ret' : Ty} {params params' : List Ty} (vararg : Bool)
      (hret : Unfolds t names ret ret') (hparams : List.Forall₂ (Unfolds t names) params params') :
      Unfolds t names (.function ret params vararg) (.function ret' params' vararg)
  | pointer {pointee pointee' : Ty} (space : Nat) (h : Unfolds t names pointee pointee') :
      Unfolds t names (.pointer pointee space) (.pointer pointee' space)
  | bare (space : Nat) : Unfolds t names (.bare space) (.bare space)
  | named (name : String) : Unfolds t names (.named name) (.named name)
  | literal {fields fields' : List Ty} (packed : Bool)
      (h : List.Forall₂ (Unfolds t names) fields fields') :
      Unfolds t names (.literal fields packed) (.literal fields' packed)
  | array {elem elem' : Ty} (length : Nat) (h : Unfolds t names elem elem') :
      Unfolds t names (.array length elem) (.array length elem')
  | vector {elem elem' : Ty} (scalable : Bool) (length : Nat) (h : Unfolds t names elem elem') :
      Unfolds t names (.vector scalable length elem) (.vector scalable length elem')
  | unfold {name : String} {fields fields' : List Ty} {packed : Bool} (hname : names name)
      (hbody : t.get? name = some ⟨some fields, packed⟩)
      (hfields : List.Forall₂ (Unfolds t names) fields fields') :
      Unfolds t names (.named name) (.literal fields' packed)

/-- The fault is the same up to unfolding of the type that it is about. -/
inductive IndexFault.Unfolds (t : TypeTable) (names : String → Prop) : IndexFault → IndexFault → Prop
  | bodiless (name : String) : Unfolds t names (.bodiless name) (.bodiless name)
  | undefined (name : String) : Unfolds t names (.undefined name) (.undefined name)
  | notConstant {ty ty' : Ty} (h : ty.Unfolds t names ty') :
      Unfolds t names (.notConstant ty) (.notConstant ty')
  | outOfRange {ty ty' : Ty} (index : Nat) (h : ty.Unfolds t names ty') :
      Unfolds t names (.outOfRange index ty) (.outOfRange index ty')
  | notAggregate {ty ty' : Ty} (h : ty.Unfolds t names ty') :
      Unfolds t names (.notAggregate ty) (.notAggregate ty')

/-- The body has the same fields up to unfolding. -/
inductive StructBody.Unfolds (t : TypeTable) (names : String → Prop) : StructBody → StructBody → Prop
  | none (packed : Bool) : Unfolds t names ⟨none, packed⟩ ⟨none, packed⟩
  | some {fields fields' : List Ty} (packed : Bool)
      (h : List.Forall₂ (Ty.Unfolds t names) fields fields') :
      Unfolds t names ⟨some fields, packed⟩ ⟨some fields', packed⟩

/-- The table has the same structs, with bodies that are the same up to unfolding. -/
def TypeTable.Unfolds (t : TypeTable) (names : String → Prop) (t' : TypeTable) : Prop :=
  ∀ name, Option.Rel (StructBody.Unfolds t names) (t.get? name) (t'.get? name)

/-! ## Unfolding everywhere -/

namespace Ty

mutual

/-- Writes the literal struct with this body in place of the struct `name`, everywhere. -/
def replace (name : String) (body : List Ty) (isPacked : Bool) : Ty → Ty
  | primitive p => primitive p
  | int bits => int bits
  | function ret params vararg =>
    function (replace name body isPacked ret) (replaceAll name body isPacked params) vararg
  | pointer pointee space => pointer (replace name body isPacked pointee) space
  | bare space => bare space
  | named other => if other = name then literal body isPacked else named other
  | literal fields packed => literal (replaceAll name body isPacked fields) packed
  | array length elem => array length (replace name body isPacked elem)
  | vector scalable length elem => vector scalable length (replace name body isPacked elem)

/-- The same in a row of types. -/
def replaceAll (name : String) (body : List Ty) (isPacked : Bool) : List Ty → List Ty
  | [] => []
  | ty :: tys => replace name body isPacked ty :: replaceAll name body isPacked tys

end

variable {t : TypeTable} {names : String → Prop} {name : String} {fields : List Ty} {packed : Bool}

mutual

/-- Nothing has to be unfolded. -/
theorem Unfolds.refl : (ty : Ty) → ty.Unfolds t names ty
  | .primitive p => .primitive p
  | .int bits => .int bits
  | .function ret params vararg => .function vararg (.refl ret) (Unfolds.refl_list params)
  | .pointer pointee space => .pointer space (.refl pointee)
  | .bare space => .bare space
  | .named name => .named name
  | .literal fields packed => .literal packed (Unfolds.refl_list fields)
  | .array length elem => .array length (.refl elem)
  | .vector scalable length elem => .vector scalable length (.refl elem)

theorem Unfolds.refl_list : (tys : List Ty) → List.Forall₂ (Unfolds t names) tys tys
  | [] => .nil
  | ty :: tys => .cons (.refl ty) (Unfolds.refl_list tys)

end

mutual

/-- A struct may be unfolded everywhere. -/
theorem unfolds_replace (h : t.get? name = some ⟨some fields, packed⟩) :
    (ty : Ty) → ty.Unfolds t (· = name) (ty.replace name fields packed)
  | primitive p => .primitive p
  | int bits => .int bits
  | function ret params vararg =>
    .function vararg (unfolds_replace h ret) (unfolds_replaceAll h params)
  | pointer pointee space => .pointer space (unfolds_replace h pointee)
  | bare space => .bare space
  | named other => by
    rw [replace]
    split
    · next hname =>
      subst hname
      exact .unfold rfl h (Unfolds.refl_list fields)
    · exact .named other
  | literal fields' packed' => .literal packed' (unfolds_replaceAll h fields')
  | array length elem => .array length (unfolds_replace h elem)
  | vector scalable length elem => .vector scalable length (unfolds_replace h elem)

theorem unfolds_replaceAll (h : t.get? name = some ⟨some fields, packed⟩) : (tys : List Ty) →
    List.Forall₂ (Unfolds t (· = name)) tys (replaceAll name fields packed tys)
  | [] => .nil
  | ty :: tys => .cons (unfolds_replace h ty) (unfolds_replaceAll h tys)

end

end Ty

namespace TypeTable

/-- Writes the literal struct with this body in place of the struct `name`, in all bodies. -/
def replace (t : TypeTable) (name : String) (body : List Ty) (isPacked : Bool) : TypeTable :=
  ⟨t.entries.map fun e => (e.1, ⟨e.2.fields?.map (Ty.replaceAll name body isPacked), e.2.packed⟩)⟩

variable {t t' : TypeTable} {names : String → Prop} {name : String} {fields fields' : List Ty}
  {packed : Bool} {ty ty' : Ty} {index : Option Nat} {indices : List (Option Nat)}

theorem get?_replace (t : TypeTable) (name : String) (fields : List Ty) (packed : Bool) (other : String) :
    (t.replace name fields packed).get? other = (t.get? other).map fun body =>
      ⟨body.fields?.map (Ty.replaceAll name fields packed), body.packed⟩ := by
  obtain ⟨entries⟩ := t
  rw [get?, get?, replace]
  dsimp only
  induction entries with
  | nil => rfl
  | cons e entries ih =>
    rw [List.map_cons, List.lookup_cons, List.lookup_cons]
    split
    · rfl
    · exact ih

/-- A struct may be unfolded everywhere in a table, in its own body as well. -/
theorem unfolds_replace (h : t.get? name = some ⟨some fields, packed⟩) :
    t.Unfolds (· = name) (t.replace name fields packed) := by
  intro other
  rw [get?_replace]
  cases t.get? other with
  | none => exact .none
  | some body =>
    obtain ⟨fields?, packed'⟩ := body
    cases fields? with
    | none => exact .some (.none packed')
    | some fields' => exact .some (.some packed' (Ty.unfolds_replaceAll h fields'))

theorem Unfolds.refl (t : TypeTable) (names : String → Prop) : t.Unfolds names t := by
  intro name
  cases t.get? name with
  | none => exact .none
  | some body =>
    obtain ⟨fields?, packed⟩ := body
    cases fields? with
    | none => exact .some (.none packed)
    | some fields => exact .some (.some packed (Ty.Unfolds.refl_list fields))

/-! ## Walks -/

/-- Both walks end in a type, or both fail, and where they end and why they fail is the same up to unfolding. -/
inductive SameEnd (t : TypeTable) (names : String → Prop) :
    Except IndexFault Ty → Except IndexFault Ty → Prop
  | ok {r r' : Ty} (h : r.Unfolds t names r') : SameEnd t names (.ok r) (.ok r')
  | error {fault fault' : IndexFault} (h : fault.Unfolds t names fault') :
      SameEnd t names (.error fault) (.error fault')

/-- Structs with the same fields up to unfolding lead to the same. -/
theorem sameEnd_field (hty : ty.Unfolds t names ty') (hfields : t.fields ty = .ok fields)
    (hfields' : t'.fields ty' = .ok fields') (h : List.Forall₂ (Ty.Unfolds t names) fields fields')
    (index : Option Nat) : SameEnd t names (t.field ty index) (t'.field ty' index) := by
  cases index with
  | none => exact .error (.notConstant hty)
  | some n =>
    rw [field, field, hfields, hfields']
    dsimp only
    by_cases hn : n < fields.length
    · have hn' : n < fields'.length := h.length_eq ▸ hn
      rw [List.getElem?_eq_getElem hn, List.getElem?_eq_getElem hn']
      exact .ok (h.get hn hn')
    · have hle : fields.length ≤ n := Nat.le_of_not_lt hn
      rw [List.getElem?_eq_none hle, List.getElem?_eq_none (h.length_eq ▸ hle)]
      exact .error (.outOfRange n hty)

/-- A struct that keeps its name has its own body in either table. -/
theorem sameEnd_field_named (ht : t.Unfolds names t') (name : String) (index : Option Nat) :
    SameEnd t names (t.field (.named name) index) (t'.field (.named name) index) := by
  cases index with
  | none => exact .error (.notConstant (.named name))
  | some n =>
    have hbody := ht name
    cases hget : t.get? name with
    | none =>
      cases hget' : t'.get? name with
      | some body => rw [hget, hget'] at hbody; cases hbody
      | none =>
        rw [field, field, fields, fields, hget, hget']
        exact .error (.undefined name)
    | some body =>
      cases hget' : t'.get? name with
      | none => rw [hget, hget'] at hbody; cases hbody
      | some body' =>
        rw [hget, hget'] at hbody
        obtain ⟨hbody⟩ := hbody
        cases hbody with
        | none packed =>
          rw [field, field, fields, fields, hget, hget']
          exact .error (.bodiless name)
        | some packed h =>
          refine sameEnd_field (.named name) ?_ ?_ h (some n)
          · rw [fields, hget]
          · rw [fields, hget']

/-- **A step keeps what is the same up to unfolding.** -/
theorem step_unfolds (ht : t.Unfolds names t') (h : ty.Unfolds t names ty') (index : Option Nat) :
    SameEnd t names (t.step ty index) (t'.step ty' index) := by
  cases h with
  | primitive p => exact .error (.notAggregate (.primitive p))
  | int bits => exact .error (.notAggregate (.int bits))
  | function vararg hret hparams => exact .error (.notAggregate (.function vararg hret hparams))
  | pointer space h => exact .error (.notAggregate (.pointer space h))
  | bare space => exact .error (.notAggregate (.bare space))
  | named name => exact sameEnd_field_named ht name index
  | @literal fs fs' packed h =>
    have hliteral : t'.fields (.literal fs' packed) = .ok fs' := rfl
    exact sameEnd_field (.literal packed h) rfl hliteral h index
  | array length h => exact .ok h
  | vector scalable length h => exact .ok h
  | @unfold name fs fs' packed hname hbody hfields =>
    have hnamed : t.fields (.named name) = .ok fs := by rw [fields, hbody]
    have hliteral : t'.fields (.literal fs' packed) = .ok fs' := rfl
    exact sameEnd_field (.unfold hname hbody hfields) hnamed hliteral hfields index

/-- **And so does a walk.** -/
theorem indexed_unfolds (ht : t.Unfolds names t') (h : ty.Unfolds t names ty')
    (indices : List (Option Nat)) : SameEnd t names (t.indexed ty indices) (t'.indexed ty' indices) := by
  induction indices generalizing ty ty' with
  | nil => exact .ok h
  | cons index indices ih =>
    rw [indexed, indexed]
    have hstep := step_unfolds ht h index
    generalize t.step ty index = e at hstep
    generalize t'.step ty' index = e' at hstep
    cases hstep with
    | ok h => exact ih h
    | error h => exact .error h

/-- A walk along two rows of indices goes on where the first one has led, and fails where that one fails. -/
theorem indexed_append (t : TypeTable) (ty : Ty) (p q : List (Option Nat)) :
    t.indexed ty (p ++ q) = t.indexed ty p >>= fun r => t.indexed r q := by
  induction p generalizing ty with
  | nil => rfl
  | cons index p ih =>
    rw [List.cons_append, indexed, indexed]
    cases t.step ty index with
    | error fault => rfl
    | ok next => exact ih next

/-- **Walks compose, and names make no difference to them.** -/
theorem walks_compose_and_unfold (t : TypeTable) :
    (∀ ty p q, t.indexed ty (p ++ q) = t.indexed ty p >>= fun r => t.indexed r q)
    ∧ (∀ names t' ty ty' p, t.Unfolds names t' → ty.Unfolds t names ty' →
      SameEnd t names (t.indexed ty p) (t'.indexed ty' p))
    ∧ ∀ name fields packed ty p, t.get? name = some ⟨some fields, packed⟩ →
      SameEnd t (· = name) (t.indexed ty p) (t.indexed (ty.replace name fields packed) p)
      ∧ SameEnd t (· = name) (t.indexed ty p)
        ((t.replace name fields packed).indexed (ty.replace name fields packed) p) := by
  refine ⟨t.indexed_append, fun names t' ty ty' p ht h => indexed_unfolds ht h p, ?_⟩
  intro name fields packed ty p h
  exact ⟨indexed_unfolds (.refl t _) (Ty.unfolds_replace h ty) p,
    indexed_unfolds (unfolds_replace h) (Ty.unfolds_replace h ty) p⟩

/-- A struct that has pointers to itself. -/
def ringFields : List Ty := [.pointer (.named "A") 0, .array 2 (.pointer (.named "A") 0)]

/-- The table of this struct. -/
def ringTable : TypeTable := ⟨[("A", ⟨some ringFields, false⟩)]⟩

/-- In the ring each unfolding leaves something to unfold: the pointers are to the struct, to its literal form,
and so on. A walk through any of the forms ends alike, and so does one that leads nowhere. -/
theorem walks_compose_and_unfold_ring :
    let literal := Ty.literal ringFields false
    let unfolded := ringTable.replace "A" ringFields false
    ringTable.get? "A" = some ⟨some ringFields, false⟩
    ∧ ringTable.Unfolds (· = "A") unfolded ∧ Ty.Unfolds ringTable (· = "A") (.named "A") literal
    ∧ ringTable.indexed (.named "A") [some 1, none] = .ok (.pointer (.named "A") 0)
    ∧ unfolded.indexed (.named "A") [some 1, none] = .ok (.pointer literal 0)
    ∧ SameEnd ringTable (· = "A") (ringTable.indexed (.named "A") [some 1, none])
      (unfolded.indexed (.named "A") [some 1, none])
    ∧ ringTable.indexed (.named "A") [some 2] = .error (.outOfRange 2 (.named "A"))
    ∧ SameEnd ringTable (· = "A") (ringTable.indexed (.named "A") [some 2])
      (ringTable.indexed literal [some 2]) := by
  have hbody : ringTable.get? "A" = some ⟨some ringFields, false⟩ := by decide
  have htable := unfolds_replace hbody
  have htype := Ty.unfolds_replace hbody (.named "A")
  obtain ⟨_, hunfolds, hreplace⟩ := walks_compose_and_unfold ringTable
  exact ⟨hbody, htable, htype, by decide, by decide,
    hunfolds _ _ _ _ _ htable (Ty.Unfolds.refl (.named "A")), by decide,
    (hreplace "A" ringFields false (.named "A") [some 2] hbody).1⟩

end TypeTable

end IrRecords
