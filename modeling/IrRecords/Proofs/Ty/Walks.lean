import IrRecords.Ty.Table

/-!
# Walks through types

`TypeTable.indexed` computes the type that a row of indices leads to, or the fault at which the walk ends.
Here the walk is said as a relation: a step into a struct selects one of its fields, and a step into an
array or a vector goes to the element (`Steps`); a type that has no such step for an index is one at which
the walk is stuck, for one of five reasons (`Stuck`). The two are the answers and the faults of
`indexed` (`indexed_eq_ok_iff`, `indexed_eq_error_iff`), so each walk has an end and just one.
-/

namespace IrRecords

/-- The type is a struct, literal or identified. -/
inductive Ty.IsStruct : Ty → Prop
  | literal (fields : List Ty) (packed : Bool) : IsStruct (.literal fields packed)
  | named (name : String) : IsStruct (.named name)

namespace TypeTable

variable {t : TypeTable} {ty next r : Ty} {index : Option Nat} {indices : List (Option Nat)}
  {fault : IndexFault}

/-! ## Steps -/

/-- The type is a struct with these fields. An identified struct has those of its body. -/
inductive HasFields (t : TypeTable) : Ty → List Ty → Prop
  | literal (fields : List Ty) (packed : Bool) : HasFields t (.literal fields packed) fields
  | named {name : String} {fields : List Ty} {packed : Bool}
      (h : t.get? name = some ⟨some fields, packed⟩) : HasFields t (.named name) fields

/-- The index leads from the one type to the other. -/
inductive Steps (t : TypeTable) : Ty → Option Nat → Ty → Prop
  | field {ty next : Ty} {fields : List Ty} {f : Nat} (hfields : t.HasFields ty fields)
      (hnext : fields[f]? = some next) : Steps t ty (some f) next
  | array (length : Nat) (elem : Ty) (index : Option Nat) : Steps t (.array length elem) index elem
  | vector (scalable : Bool) (length : Nat) (elem : Ty) (index : Option Nat) :
      Steps t (.vector scalable length elem) index elem

/-- The index leads nowhere from the type. -/
inductive Stuck (t : TypeTable) : Ty → Option Nat → IndexFault → Prop
  | notConstant {ty : Ty} (h : ty.IsStruct) : Stuck t ty none (.notConstant ty)
  | bodiless {name : String} {packed : Bool} (f : Nat) (h : t.get? name = some ⟨none, packed⟩) :
      Stuck t (.named name) (some f) (.bodiless name)
  | undefined {name : String} (f : Nat) (h : t.get? name = none) :
      Stuck t (.named name) (some f) (.undefined name)
  | outOfRange {ty : Ty} {fields : List Ty} {f : Nat} (hfields : t.HasFields ty fields)
      (hf : fields.length ≤ f) : Stuck t ty (some f) (.outOfRange f ty)
  | notAggregate {ty : Ty} (index : Option Nat) (hstruct : ¬ ty.IsStruct) (helem : ty.element? = none) :
      Stuck t ty index (.notAggregate ty)

theorem HasFields.isStruct {fields : List Ty} (h : t.HasFields ty fields) : ty.IsStruct := by
  cases h with
  | literal => exact .literal _ _
  | named => exact .named _

theorem HasFields.fields_eq {fields : List Ty} (h : t.HasFields ty fields) :
    t.fields ty = .ok fields := by
  cases h with
  | literal => rfl
  | named hbody => rw [TypeTable.fields, hbody]

theorem step_of_isStruct (h : ty.IsStruct) : t.step ty index = t.field ty index := by
  cases h <;> rfl

theorem step_of_notAggregate (hstruct : ¬ ty.IsStruct) (helem : ty.element? = none) :
    t.step ty index = .error (.notAggregate ty) := by
  cases ty with
  | literal fields packed => exact absurd (.literal fields packed) hstruct
  | named name => exact absurd (.named name) hstruct
  | array => cases helem
  | vector => cases helem
  | _ => rfl

/-- The step into a struct is there, or it is stuck. -/
theorem field_cases (h : ty.IsStruct) :
    (∃ next, t.field ty index = .ok next ∧ t.Steps ty index next)
      ∨ ∃ fault, t.field ty index = .error fault ∧ t.Stuck ty index fault := by
  cases index with
  | none => exact .inr ⟨_, rfl, .notConstant h⟩
  | some f =>
    -- Where the fields are known, the index is that of one of them or none.
    have hknown : ∀ fields, t.HasFields ty fields →
        (∃ next, t.field ty (some f) = .ok next ∧ t.Steps ty (some f) next)
          ∨ ∃ fault, t.field ty (some f) = .error fault ∧ t.Stuck ty (some f) fault := by
      intro fields hfields
      rw [field, hfields.fields_eq]
      dsimp only
      cases hnext : fields[f]? with
      | some next => exact .inl ⟨next, rfl, .field hfields hnext⟩
      | none => exact .inr ⟨_, rfl, .outOfRange hfields (List.getElem?_eq_none_iff.mp hnext)⟩
    cases h with
    | literal fields packed => exact hknown fields (.literal fields packed)
    | named name =>
      cases hbody : t.get? name with
      | none => exact .inr ⟨_, by rw [field, fields, hbody], .undefined f hbody⟩
      | some body =>
        obtain ⟨fields?, packed⟩ := body
        cases fields? with
        | none => exact .inr ⟨_, by rw [field, fields, hbody], .bodiless f hbody⟩
        | some fields => exact hknown fields (.named hbody)

theorem step_cases (t : TypeTable) (ty : Ty) (index : Option Nat) :
    (∃ next, t.step ty index = .ok next ∧ t.Steps ty index next)
      ∨ ∃ fault, t.step ty index = .error fault ∧ t.Stuck ty index fault := by
  have hother : t.step ty index = .error (.notAggregate ty) → ¬ ty.IsStruct → ty.element? = none →
      (∃ next, t.step ty index = .ok next ∧ t.Steps ty index next)
        ∨ ∃ fault, t.step ty index = .error fault ∧ t.Stuck ty index fault :=
    fun hstep hstruct helem => .inr ⟨_, hstep, .notAggregate index hstruct helem⟩
  cases ty with
  | literal fields packed => exact field_cases (.literal fields packed)
  | named name => exact field_cases (.named name)
  | array length elem => exact .inl ⟨elem, rfl, .array length elem index⟩
  | vector scalable length elem => exact .inl ⟨elem, rfl, .vector scalable length elem index⟩
  | _ => exact hother rfl (fun h => nomatch h) rfl

theorem Steps.step_eq (h : t.Steps ty index next) : t.step ty index = .ok next := by
  cases h with
  | field hfields hnext =>
    rw [step_of_isStruct hfields.isStruct, TypeTable.field, hfields.fields_eq]
    dsimp only
    rw [hnext]
  | array => rfl
  | vector => rfl

theorem Stuck.step_eq (h : t.Stuck ty index fault) : t.step ty index = .error fault := by
  cases h with
  | notConstant h => rw [step_of_isStruct h, field]
  | bodiless f h => rw [step, field, fields, h]
  | undefined f h => rw [step, field, fields, h]
  | outOfRange hfields hf =>
    rw [step_of_isStruct hfields.isStruct, field, hfields.fields_eq]
    dsimp only
    rw [List.getElem?_eq_none_iff.mpr hf]
  | notAggregate index hstruct helem => exact step_of_notAggregate hstruct helem

theorem step_eq_ok_iff : t.step ty index = .ok next ↔ t.Steps ty index next := by
  refine ⟨fun h => ?_, Steps.step_eq⟩
  rcases step_cases t ty index with ⟨next', h', hsteps⟩ | ⟨fault, h', _⟩
  · rw [h] at h'
    cases h'
    exact hsteps
  · rw [h] at h'
    cases h'

theorem step_eq_error_iff : t.step ty index = .error fault ↔ t.Stuck ty index fault := by
  refine ⟨fun h => ?_, Stuck.step_eq⟩
  rcases step_cases t ty index with ⟨next', h', _⟩ | ⟨fault', h', hstuck⟩
  · rw [h] at h'
    cases h'
  · rw [h] at h'
    cases h'
    exact hstuck

/-! ## Walks -/

/-- The indices lead from the one type to the other. -/
inductive Walks (t : TypeTable) : Ty → List (Option Nat) → Ty → Prop
  | nil (ty : Ty) : Walks t ty [] ty
  | cons {ty next r : Ty} {index : Option Nat} {indices : List (Option Nat)}
      (hstep : t.Steps ty index next) (hrest : Walks t next indices r) :
      Walks t ty (index :: indices) r

/-- One of the indices leads nowhere. -/
inductive StuckAlong (t : TypeTable) : Ty → List (Option Nat) → IndexFault → Prop
  | here {ty : Ty} {index : Option Nat} {indices : List (Option Nat)} {fault : IndexFault}
      (h : t.Stuck ty index fault) : StuckAlong t ty (index :: indices) fault
  | later {ty next : Ty} {index : Option Nat} {indices : List (Option Nat)} {fault : IndexFault}
      (hstep : t.Steps ty index next) (hrest : StuckAlong t next indices fault) :
      StuckAlong t ty (index :: indices) fault

/-- **The type that is computed is the one that the indices lead to.** -/
theorem indexed_eq_ok_iff : t.indexed ty indices = .ok r ↔ t.Walks ty indices r := by
  induction indices generalizing ty with
  | nil =>
    refine ⟨fun h => ?_, fun h => ?_⟩
    · cases h; exact .nil _
    · cases h; rfl
  | cons index indices ih =>
    rw [indexed]
    refine ⟨fun h => ?_, fun h => ?_⟩
    · split at h
      · cases h
      · next next hstep => exact .cons (step_eq_ok_iff.mp hstep) (ih.mp h)
    · cases h with
      | cons hstep hrest =>
        rw [hstep.step_eq]
        exact ih.mpr hrest

/-- **The computation fails where one of the indices leads nowhere**, and for that reason. -/
theorem indexed_eq_error_iff : t.indexed ty indices = .error fault ↔ t.StuckAlong ty indices fault := by
  induction indices generalizing ty with
  | nil => exact iff_of_false (fun h => nomatch h) (fun h => nomatch h)
  | cons index indices ih =>
    rw [indexed]
    refine ⟨fun h => ?_, fun h => ?_⟩
    · split at h
      · next fault' hstep => cases h; exact .here (step_eq_error_iff.mp hstep)
      · next next hstep => exact .later (step_eq_ok_iff.mp hstep) (ih.mp h)
    · cases h with
      | here hstuck => rw [hstuck.step_eq]
      | later hstep hrest =>
        rw [hstep.step_eq]
        exact ih.mpr hrest

end TypeTable

end IrRecords
