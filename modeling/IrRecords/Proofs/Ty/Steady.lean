import IrRecords.Proofs.Reader.Agrees
import IrRecords.Ty.Reader

/-!
# Types are read alike

No part of a type depends on positions or gaps, so the reader of types answers the same in two texts
with the same tokens. The proof follows the readers; `item` is the reader of the types inside. That
the nesting is bounded by the tokens ahead makes no difference, since there are as many of them
(`readWithin_congr`).
-/

namespace IrRecords.Ty

open Reader

variable {T : Twins} {item : Reader Ty}

theorem steady_readSpace : Steady T readSpace := by
  rw [readSpace]
  refine (steady_expectWord _).bind fun _ => (steady_expect _ _).bind fun _ => ?_
  refine (steady_expectNumber _ _).bind fun space => (steady_expect _ _).bind fun _ => ?_
  exact .pure rfl

theorem steady_readLength (bound : Nat) (what : String) : Steady T (readLength bound what) :=
  (steady_expectNumber _ _).bind fun _ => (steady_expectWord _).bind fun _ => .pure rfl

theorem steady_readFields (hitem : Steady T item) : Steady T (readFields item) := by
  rw [readFields]
  refine (steady_expect _ _).bind fun _ => (steady_accept _).bind fun empty => ?_
  split
  · exact .pure rfl
  · refine hitem.commaSeparated.bind fun fields => (steady_expect _ _).bind fun _ => ?_
    exact .pure rfl

theorem steady_readParams (hitem : Steady T item) : Steady T (readParams item) := by
  rw [readParams]
  refine (steady_expect _ _).bind fun _ => (steady_accept _).bind fun empty => ?_
  split
  · exact .pure rfl
  · refine Steady.bind (.iterate (fun params => (steady_accept _).bind fun ellipsis => ?_) #[])
      fun r => (steady_expect _ _).bind fun _ => .pure rfl
    split
    · exact .pure rfl
    · refine hitem.bind fun ty => (steady_accept _).bind fun more => ?_
      split
      · exact .pure rfl
      · exact .pure rfl

theorem steady_readWord (word : String) : Steady T (readWord word) := by
  rw [readWord]
  split
  · refine steady_advance.bind fun _ => (steady_isAt _).bind fun spaced => ?_
    split
    · exact steady_readSpace.bind fun _ => .pure rfl
    · exact .pure rfl
  · split
    · exact steady_advance.bind fun _ => .pure rfl
    · split
      · exact steady_advance.bind fun _ => .pure rfl
      · exact keeps_unexpected _

theorem steady_readArray (hitem : Steady T item) : Steady T (readArray item) := by
  rw [readArray]
  refine (steady_readLength _ _).bind fun length => hitem.bind fun elem => ?_
  exact (steady_expect _ _).bind fun _ => .pure rfl

theorem steady_readAngled (hitem : Steady T item) : Steady T (readAngled item) := by
  rw [readAngled]
  refine (steady_isAt _).bind fun packed => ?_
  split
  · refine (steady_readFields hitem).bind fun fields => (steady_expect _ _).bind fun _ => ?_
    exact .pure rfl
  · refine (steady_acceptWord _).bind fun scalable => ?_
    have hvector : Steady T (do
        let length ← readLength Text.bound32 "a vector length"
        let elem ← item
        expect (.closer .angle) "'>'"
        return vector scalable length elem) :=
      (steady_readLength _ _).bind fun _ => hitem.bind fun _ => (steady_expect _ _).bind fun _ =>
        .pure rfl
    cases scalable with
    | true => exact (steady_expectWord _).bind fun _ => hvector
    | false => exact hvector

theorem steady_readBase (hitem : Steady T item) : Steady T (readBase item) := by
  rw [readBase]
  refine steady_kind.bind fun k => ?_
  split
  · exact steady_readWord _
  · exact steady_advance.bind fun _ => steady_readArray hitem
  · exact steady_advance.bind fun _ => steady_readAngled hitem
  · exact (steady_readFields hitem).bind fun _ => .pure rfl
  · exact steady_advance.bind fun _ => .pure rfl
  · exact keeps_unexpected _

theorem steady_readSuffix (hitem : Steady T item) (ty : Ty) : Steady T (readSuffix item ty) := by
  rw [readSuffix]
  refine steady_kind.bind fun k => ?_
  split
  · exact steady_advance.bind fun _ => .pure rfl
  · exact steady_readSpace.bind fun _ => (steady_expect _ _).bind fun _ => .pure rfl
  · exact (steady_readParams hitem).bind fun _ => .pure rfl
  · exact .pure rfl

theorem steady_readWithin (bound : List Token) : Steady T (readWithin bound) := by
  induction bound with
  | nil => exact fun c c' hc => .failed hc.current.start (.refl _)
  | cons t bound ih =>
    exact (steady_readBase ih).bind fun base => Steady.iterate (steady_readSuffix ih) base

/-- Only the length of the bound matters. -/
theorem readWithin_congr {bound bound' : List Token} (h : bound.length = bound'.length) :
    readWithin bound = readWithin bound' := by
  induction bound generalizing bound' with
  | nil => rw [List.eq_nil_of_length_eq_zero h.symm]
  | cons t bound ih =>
    obtain ⟨t', bound', rfl⟩ := List.exists_cons_of_length_eq_add_one h.symm
    rw [readWithin, readWithin, ih (Nat.succ.inj h)]

theorem steady_read : Steady T Ty.read := by
  intro c c' hc
  have hbound : c.bound.length = c'.bound.length := congrArg (· + 1) hc.remaining.symm
  rw [Ty.read, Ty.read, ← readWithin_congr hbound]
  exact steady_readWithin c.bound c c' hc

end IrRecords.Ty
