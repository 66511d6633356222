import IrRecords.Proofs.Reader.Among
import IrRecords.Proofs.Ty.Passing

/-!
# Types that know what they point to

Opaque pointers come from one word. A text without this word describes types all of whose pointers,
at any depth, know what they point to (`Ty.BareFree`), and so do the bodies of its identified
structs. A walk through such types stays among them (`TypeTable.BareFree.indexed`).
-/

namespace IrRecords

namespace Ty

/-! ## The property -/

mutual

/-- Whether an opaque pointer type occurs in a type, at any depth. -/
def mentionsBare : Ty → Bool
  | primitive _ | int _ | named _ => false
  | bare _ => true
  | function ret params _ => mentionsBare ret || anyMentionsBare params
  | pointer pointee _ => mentionsBare pointee
  | literal fields _ => anyMentionsBare fields
  | array _ elem => mentionsBare elem
  | vector _ _ elem => mentionsBare elem

/-- Whether one occurs in some type of a list. -/
def anyMentionsBare : List Ty → Bool
  | [] => false
  | ty :: rest => mentionsBare ty || anyMentionsBare rest

end

/-- No opaque pointer type occurs in the type, at any depth. -/
def BareFree (ty : Ty) : Prop := ty.mentionsBare = false

theorem anyMentionsBare_eq_false_iff (tys : List Ty) :
    anyMentionsBare tys = false ↔ ∀ ty ∈ tys, ty.BareFree := by
  induction tys with
  | nil => simp [anyMentionsBare]
  | cons ty tys ih => simp [anyMentionsBare, BareFree, ih]

section

variable {ty ret elem pointee : Ty} {params fields : List Ty}

@[simp] theorem bareFree_primitive (p : Primitive) : (primitive p).BareFree := rfl

@[simp] theorem bareFree_int (bits : Nat) : (int bits).BareFree := rfl

@[simp] theorem bareFree_named (name : String) : (named name).BareFree := rfl

@[simp] theorem not_bareFree_bare (space : Nat) : ¬(bare space).BareFree := by
  simp [BareFree, mentionsBare]

@[simp] theorem bareFree_function {vararg : Bool} :
    (function ret params vararg).BareFree ↔ ret.BareFree ∧ ∀ p ∈ params, p.BareFree := by
  simp [BareFree, mentionsBare, anyMentionsBare_eq_false_iff]

@[simp] theorem bareFree_pointer {space : Nat} :
    (pointer pointee space).BareFree ↔ pointee.BareFree := Iff.rfl

@[simp] theorem bareFree_literal {packed : Bool} :
    (literal fields packed).BareFree ↔ ∀ f ∈ fields, f.BareFree :=
  anyMentionsBare_eq_false_iff fields

@[simp] theorem bareFree_array {length : Nat} : (array length elem).BareFree ↔ elem.BareFree :=
  Iff.rfl

@[simp] theorem bareFree_vector {scalable : Bool} {length : Nat} :
    (vector scalable length elem).BareFree ↔ elem.BareFree := Iff.rfl

/-! ## Parts -/

theorem BareFree.of_element? (h : ty.BareFree) (helem : ty.element? = some elem) :
    elem.BareFree := by
  cases ty
  case array => cases helem; exact h
  case vector => cases helem; exact h
  all_goals cases helem

theorem BareFree.scalar (h : ty.BareFree) : ty.scalar.BareFree := by
  cases ty
  case vector => exact bareFree_vector.mp h
  all_goals exact h

/-- Only the elements of the reshaped type count, whatever the shape is. -/
theorem BareFree.reshape (h : elem.BareFree) (shape : Ty) : (shape.reshape elem).BareFree := by
  cases shape
  case vector => exact bareFree_vector.mpr h
  all_goals exact h

end

end Ty

/-! ## Tables -/

namespace TypeTable

open Ty

/-- No opaque pointer type occurs in the body of a struct. -/
def BareFree (t : TypeTable) : Prop :=
  ∀ e ∈ t.entries, ∀ fields, e.2.fields? = some fields → ∀ f ∈ fields, f.BareFree

variable {t : TypeTable} {ty ty' : Ty}

theorem bareFree_empty : empty.BareFree := by
  intro e he
  cases he

theorem mem_insertEntry {name : String} {body : StructBody} {entries : List (String × StructBody)}
    {e : String × StructBody} (he : e ∈ insertEntry name body entries) :
    e = (name, body) ∨ e ∈ entries := by
  induction entries with
  | nil => exact .inl (List.mem_singleton.mp he)
  | cons first rest ih =>
    obtain ⟨other, old⟩ := first
    rw [insertEntry] at he
    split at he
    · rcases List.mem_cons.mp he with he | he
      · exact .inl he
      · exact .inr (List.mem_cons_of_mem _ he)
    · rcases List.mem_cons.mp he with rfl | he
      · exact .inr List.mem_cons_self
      · exact (ih he).imp_right (List.mem_cons_of_mem _)

theorem BareFree.insert {name : String} {body : StructBody} (h : t.BareFree)
    (hbody : ∀ fields, body.fields? = some fields → ∀ f ∈ fields, f.BareFree) :
    (t.insert name body).BareFree := by
  intro e he
  rcases mem_insertEntry he with rfl | he
  · exact hbody
  · exact h e he

theorem BareFree.of_get? {name : String} {fields : List Ty} {packed : Bool} (h : t.BareFree)
    (hget : t.get? name = some ⟨some fields, packed⟩) : ∀ f ∈ fields, f.BareFree := by
  obtain ⟨l, l', hentries, _⟩ := List.lookup_eq_some_iff.mp hget
  exact h (name, ⟨some fields, packed⟩) (by rw [hentries]; simp) fields rfl

theorem BareFree.of_fields {fs : List Ty} (h : t.BareFree) (hty : ty.BareFree)
    (hfields : t.fields ty = .ok fs) : ∀ f ∈ fs, f.BareFree := by
  cases ty
  case literal => cases hfields; exact bareFree_literal.mp hty
  case named name =>
    rw [fields.eq_def] at hfields
    dsimp only at hfields
    split at hfields
    · next fs' packed hget => cases hfields; exact h.of_get? hget
    · cases hfields
    · cases hfields
  all_goals cases hfields

/-- A step into a type leads to one of its parts. -/
theorem BareFree.step {index : Option Nat} (h : t.BareFree) (hty : ty.BareFree)
    (hstep : t.step ty index = .ok ty') : ty'.BareFree := by
  -- Structs with and without a name are entered by a field, and it is one of those listed for the type.
  have hfield : t.field ty index = .ok ty' → ty'.BareFree := by
    intro hfield
    cases index with
    | none => cases hfield
    | some n =>
      rw [field.eq_def] at hfield
      dsimp only at hfield
      cases hfields : t.fields ty with
      | error fault => rw [hfields] at hfield; cases hfield
      | ok fields =>
        rw [hfields] at hfield
        dsimp only at hfield
        split at hfield
        · next hn => cases hfield; exact h.of_fields hty hfields _ (List.mem_of_getElem? hn)
        · cases hfield
  cases ty
  case literal => exact hfield hstep
  case named => exact hfield hstep
  case array => cases hstep; exact bareFree_array.mp hty
  case vector => cases hstep; exact bareFree_vector.mp hty
  all_goals cases hstep

/-- **A walk through types without opaque pointers stays among them.** -/
theorem BareFree.indexed {indices : List (Option Nat)} (h : t.BareFree) (hty : ty.BareFree)
    (hindexed : t.indexed ty indices = .ok ty') : ty'.BareFree := by
  induction indices generalizing ty with
  | nil => cases hindexed; exact hty
  | cons index rest ih =>
    rw [TypeTable.indexed] at hindexed
    cases hstep : t.step ty index with
    | error fault => rw [hstep] at hindexed; cases hindexed
    | ok next =>
      rw [hstep] at hindexed
      exact ih (h.step hty hstep) hindexed

end TypeTable

/-! ## Reading -/

/-- Kinds of tokens that do not speak of opaque pointers. -/
def TokenKind.Pointed (k : TokenKind) : Prop := k ≠ .word "ptr"

namespace Ty

open Reader

variable {item : Reader Ty}

/-- The reader answers types without opaque pointers on texts that do not speak of them. -/
abbrev ReadsBareFree (r : Reader Ty) : Prop := r.YieldsAmong TokenKind.Pointed BareFree

theorem bareFree_readFields (hitem : ReadsBareFree item) :
    (readFields item).YieldsAmong TokenKind.Pointed fun fields => ∀ f ∈ fields, f.BareFree := by
  rw [readFields]
  refine .expect TokenKind.noConfusion fun _ => ?_
  refine .accept TokenKind.noConfusion fun closed => ?_
  cases closed with
  | true => exact .pure (by simp)
  | false =>
    refine hitem.commaSeparated.bind fun fields hfields => ?_
    exact .expect TokenKind.noConfusion fun _ => .pure hfields

theorem bareFree_readParams (hitem : ReadsBareFree item) :
    (readParams item).YieldsAmong TokenKind.Pointed fun p => ∀ ty ∈ p.1, ty.BareFree := by
  rw [readParams]
  refine .expect TokenKind.noConfusion fun _ => ?_
  refine .accept TokenKind.noConfusion fun closed => ?_
  cases closed with
  | true => exact .pure (by simp)
  | false =>
    refine YieldsAmong.bind (P := fun p : Array Ty × Bool => ∀ ty ∈ p.1, ty.BareFree) ?_
      fun p hp => .expect TokenKind.noConfusion fun _ => .pure (by simpa using hp)
    refine .iterate (I := fun params : Array Ty => ∀ ty ∈ params, ty.BareFree)
      (fun params hI => ?_) (by simp)
    refine .accept TokenKind.noConfusion fun dots => ?_
    cases dots with
    | true => exact .pure hI
    | false =>
      refine hitem.bind fun ty hty => .accept TokenKind.noConfusion fun more => ?_
      have hpush := Array.forall_mem_push.mpr ⟨hty, hI⟩
      cases more with
      | true => exact .pure hpush
      | false => exact .pure hpush

theorem bareFree_readArray (hitem : ReadsBareFree item) : ReadsBareFree (readArray item) := by
  rw [readArray]
  refine .skip (neutral_readLength _ _).goesForward fun length => hitem.bind fun elem helem => ?_
  exact .expect TokenKind.noConfusion fun _ => .pure (bareFree_array.mpr helem)

theorem bareFree_readAngled (hitem : ReadsBareFree item) : ReadsBareFree (readAngled item) := by
  rw [readAngled]
  refine .isAt fun packed => ?_
  cases packed with
  | true =>
    refine (bareFree_readFields hitem).bind fun fields hfields => ?_
    exact .expect TokenKind.noConfusion fun _ => .pure (bareFree_literal.mpr hfields)
  | false =>
    have hrest : ∀ scalable, ReadsBareFree (do
        let length ← readLength Text.bound32 "a vector length"
        let elem ← item
        expect (.closer .angle) "'>'"
        return vector scalable length elem) := fun scalable =>
      .skip (neutral_readLength _ _).goesForward fun length => hitem.bind fun elem helem =>
        .expect TokenKind.noConfusion fun _ => .pure (bareFree_vector.mpr helem)
    refine .skip (neutral_acceptWord _).goesForward fun scalable => ?_
    cases scalable with
    | true => exact .skip (neutral_expectWord _).goesForward fun _ => hrest true
    | false => exact hrest false

/-- This is where the word for opaque pointers would be read. -/
theorem bareFree_readWord {word : String} (hword : TokenKind.Pointed (.word word)) :
    ReadsBareFree (readWord word) := by
  rw [readWord]
  have hptr : (word == "ptr") = false := by
    rw [beq_eq_false_iff_ne]
    rintro rfl
    exact hword rfl
  rw [hptr]
  cases Primitive.ofKeyword? word with
  | some p => exact .advance (.pure (bareFree_primitive p))
  | none =>
    cases intWidth? word with
    | some bits => exact .advance (.pure (bareFree_int bits))
    | none => exact .unexpected

theorem bareFree_readBase (hitem : ReadsBareFree item) : ReadsBareFree (readBase item) := by
  rw [readBase]
  refine .kind fun k hk => ?_
  split
  · exact bareFree_readWord hk
  · exact .advance (bareFree_readArray hitem)
  · exact .advance (bareFree_readAngled hitem)
  · refine (bareFree_readFields hitem).bind fun fields hfields => ?_
    exact .pure (bareFree_literal.mpr hfields)
  · exact .advance (.pure (bareFree_named _))
  · exact .unexpected

theorem bareFree_readSuffix (hitem : ReadsBareFree item) {ty : Ty} (hty : ty.BareFree) :
    (readSuffix item ty).YieldsAmong TokenKind.Pointed (RoundSatisfies BareFree BareFree) := by
  rw [readSuffix]
  refine .kind fun k _ => ?_
  split
  · exact .advance (.pure (bareFree_pointer.mpr hty))
  · refine .skip neutral_readSpace.goesForward fun space => ?_
    exact .expect TokenKind.noConfusion fun _ => .pure (bareFree_pointer.mpr hty)
  · exact (bareFree_readParams hitem).bind fun p hp => .pure (bareFree_function.mpr ⟨hty, hp⟩)
  · exact .pure hty

/-- The induction is on the row that bounds the nesting. -/
theorem bareFree_readWithin (bound : List Token) : ReadsBareFree (readWithin bound) := by
  induction bound with
  | nil => intro c a c' _ h; simp [readWithin] at h
  | cons t bound ih =>
    rw [readWithin]
    refine (bareFree_readBase ih).bind fun base hbase => ?_
    exact .iterate (fun ty hty => bareFree_readSuffix ih hty) hbase

/-- **A type in a text that does not speak of opaque pointers has none.** -/
theorem bareFree_read : ReadsBareFree read :=
  fun c a c' hc h => bareFree_readWithin c.bound c a c' hc h

end Ty

end IrRecords
