import IrRecords.Proofs.Reader.Borders
import IrRecords.Ty.Reader

/-!
# Types end where a part ends

A type goes on as long as suffixes follow, so a reader of types looks at what is behind the type. No part
begins with a suffix: in front of another part the type is the same as at the end of the text, and where
the end of the text is in the middle of a type, more is wanted.
-/

namespace IrRecords.Ty

open Reader

variable {B : Border} {item item' : Reader Ty}

theorem extends_readSpace : Local B readSpace := by
  rw [readSpace]
  refine (extends_expectWord _).bind fun _ => (extends_expect TokenKind.noConfusion _).bind fun _ => ?_
  refine (extends_expectNumber _ _).bind fun _ => ?_
  exact (extends_expect TokenKind.noConfusion _).bind fun _ => extends_pure _

theorem extends_readFields (hitem : Extends B item item') (hstarves : item.Starves) :
    Extends B (readFields item) (readFields item') := by
  rw [readFields, readFields]
  refine (extends_expect TokenKind.noConfusion _).bind fun _ => ?_
  refine .accept TokenKind.noConfusion (fun empty => ?_) ?_
  · split
    · exact extends_pure _
    · refine hitem.commaSeparated.bind fun fields => ?_
      exact (extends_expect TokenKind.noConfusion _).bind fun _ => extends_pure _
  · exact Starves.bind (starves_commaSeparated hstarves)

theorem extends_readParams (hitem : Extends B item item') :
    Extends B (readParams item) (readParams item') := by
  rw [readParams, readParams]
  refine (extends_expect TokenKind.noConfusion _).bind fun _ => (extends_accept rfl).bind fun _ => ?_
  split
  · exact extends_pure _
  · refine Extends.bind (.iterate (fun params => (extends_accept rfl).bind fun _ => ?_) #[])
      fun _ => (extends_expect TokenKind.noConfusion _).bind fun _ => extends_pure _
    split
    · exact extends_pure _
    · refine hitem.bind fun param => (extends_accept rfl).bind fun _ => ?_
      split <;> exact extends_pure _

theorem extends_readLength (bound : Nat) (what : String) : Local B (readLength bound what) := by
  rw [readLength]
  refine (extends_expectNumber _ _).bind fun _ => ?_
  exact (extends_expectWord _).bind fun _ => extends_pure _

theorem extendsInside_readWord (word : String) :
    ExtendsInside B (readWord word) (readWord word) := by
  rw [readWord]
  split
  · refine extendsInside_advance.bind fun _ => .isAt_all rfl fun space => ?_
    split
    · exact extends_readSpace.bind fun _ => extends_pure _
    · exact extends_pure _
  · split
    · exact extendsInside_advance.bind fun _ => extends_pure _
    · split
      · exact extendsInside_advance.bind fun _ => extends_pure _
      · exact (extends_unexpected _).inside

theorem extends_readArray (hitem : Extends B item item') :
    Extends B (readArray item) (readArray item') := by
  rw [readArray, readArray]
  refine (extends_readLength _ _).bind fun _ => hitem.bind fun _ => ?_
  exact (extends_expect TokenKind.noConfusion _).bind fun _ => extends_pure _

theorem extends_readAngled (hitem : Extends B item item') (hstarves : item.Starves) :
    Extends B (readAngled item) (readAngled item') := by
  rw [readAngled, readAngled]
  refine .isAt_all rfl fun packed => ?_
  split
  · refine (extends_readFields hitem hstarves).bind fun _ => ?_
    exact (extends_expect TokenKind.noConfusion _).bind fun _ => extends_pure _
  · refine (extends_acceptWord rfl).bind fun scalable => ?_
    dsimp only
    split
    · refine (extends_expectWord _).bind fun _ => (extends_readLength _ _).bind fun _ => ?_
      refine hitem.bind fun _ => ?_
      exact (extends_expect TokenKind.noConfusion _).bind fun _ => extends_pure _
    · refine (extends_readLength _ _).bind fun _ => hitem.bind fun _ => ?_
      exact (extends_expect TokenKind.noConfusion _).bind fun _ => extends_pure _

theorem starves_readBase (item : Reader Ty) : (readBase item).Starves :=
  .kind (starves_unexpected _)

theorem extends_readBase (hitem : Extends B item item') (hstarves : item.Starves) :
    Extends B (readBase item) (readBase item') := by
  refine ExtendsInside.extends ?_ ((starves_readBase item).atEnd _)
  rw [readBase, readBase]
  refine .kind fun k => ?_
  split
  · exact extendsInside_readWord _
  · exact extendsInside_advance.bind fun _ => extends_readArray hitem
  · exact extendsInside_advance.bind fun _ => extends_readAngled hitem hstarves
  · exact ((extends_readFields hitem hstarves).bind fun _ => extends_pure _).inside
  · exact extendsInside_advance.bind fun _ => extends_pure _
  · exact (extends_unexpected _).inside

theorem extends_readSuffix (hitem : Extends B item item') (ty : Ty) :
    Extends B (readSuffix item ty) (readSuffix item' ty) := by
  rw [readSuffix, readSuffix]
  refine .kind (fun k => ?_) fun k hk => ?_
  · split
    · exact extendsInside_advance.bind fun _ => extends_pure _
    · refine (extends_readSpace.bind fun _ => ?_).inside
      exact (extends_expect TokenKind.noConfusion _).bind fun _ => extends_pure _
    · exact ((extends_readParams hitem).bind fun _ => extends_pure _).inside
    · exact (extends_pure _).inside
  · -- No part begins with a suffix.
    dsimp only
    split
    · exact absurd hk (by decide)
    · exact absurd hk (by decide)
    · exact absurd hk (by decide)
    · exact (extends_pure _).atEnd

theorem starves_readWithin (bound : List Token) : (readWithin bound).Starves := by
  cases bound with
  | nil => exact fun c _ _ => .inl ⟨_, rfl, rfl⟩
  | cons t bound =>
    rw [readWithin]
    exact Starves.bind (starves_readBase _)

/-- A part by itself bounds the depth of a type more tightly than the text that it stands in. -/
theorem extends_readWithin {bound bound' : List Token} (h : bound.length ≤ bound'.length) :
    Extends B (readWithin bound) (readWithin bound') := by
  induction bound generalizing bound' with
  | nil => exact fun _ _ _ => .wants rfl
  | cons t bound ih =>
    obtain ⟨t', bound', rfl⟩ : ∃ t' bound'', bound' = t' :: bound'' :=
      List.exists_cons_of_length_pos (Nat.lt_of_lt_of_le (Nat.succ_pos _) h)
    have hitem := ih (Nat.le_of_succ_le_succ h)
    rw [readWithin, readWithin]
    refine (extends_readBase hitem (starves_readWithin bound)).bind fun base => ?_
    exact .iterate (fun ty => extends_readSuffix hitem ty) base

/-- **A type is the same at the end of a text and in front of another part.** -/
theorem extends_read : Local B Ty.read :=
  fun c c' hc => extends_readWithin hc.bound_length_le c c' hc

theorem starves_read : Ty.read.Starves := fun c hend heof => starves_readWithin c.bound c hend heof

end IrRecords.Ty
