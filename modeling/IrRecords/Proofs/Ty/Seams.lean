import IrRecords.Proofs.Reader.Seams

/-!
# Types up to a seam

A type ends where no suffix follows, and none of the suffixes starts with a comma. So behind a type that
ends at the seam an attachment may be put in, and all readers of types pass a token.
-/

namespace IrRecords.Ty

open Reader

variable {S : Seam} {item item' : Reader Ty}

theorem feeds_readSpace : Feeds S readSpace readSpace := by
  rw [readSpace]
  refine (feeds_expectWord _).feeds fun _ => (feeds_expect _ _).feeds fun _ => ?_
  refine (feeds_expectNumber _ _).feeds fun _ => ?_
  exact (feeds_expect _ _).bind fun _ => copies_pure _

/-- What ends with a closing bracket passes a token, whatever stands in front of it. -/
theorem feeds_closes {α β : Type} {r r' : Reader α} {b : Bracket} {what : String} {f : α → β}
    (hr : Tracks S r r') :
    Feeds S (do
      let a ← r
      expect (.closer b) what
      return f a) (do
      let a ← r'
      expect (.closer b) what
      return f a) :=
  hr.feeds fun _ => (feeds_expect _ _).bind fun _ => copies_pure _

theorem feeds_readFields (hitem : Tracks S item item') :
    Feeds S (readFields item) (readFields item') := by
  rw [readFields, readFields]
  refine (feeds_expect _ _).bind fun _ => (copies_accept TokenKind.noConfusion).bind fun empty => ?_
  split
  · exact copies_pure _
  · exact (feeds_closes hitem.commaSeparated).toCopies

theorem feeds_readParams (hitem : Tracks S item item') :
    Feeds S (readParams item) (readParams item') := by
  rw [readParams, readParams]
  refine (feeds_expect _ _).bind fun _ => (copies_accept TokenKind.noConfusion).bind fun empty => ?_
  split
  · exact copies_pure _
  · refine (Tracks.feeds (.iterate (fun params => ?_) #[]) fun _ => ?_).toCopies
    · refine (tracks_accept _).bind fun ellipsis => ?_
      split
      · exact (copies_pure _).toTracks
      · refine hitem.bind fun param => (tracks_accept _).bind fun more => ?_
        split <;> exact (copies_pure _).toTracks
    · exact (feeds_expect _ _).bind fun _ => copies_pure _

theorem feeds_readLength (bound : Nat) (what : String) :
    Feeds S (readLength bound what) (readLength bound what) := by
  rw [readLength]
  refine (feeds_expectNumber _ _).feeds fun _ => ?_
  exact (feeds_expectWord _).bind fun _ => copies_pure _

theorem feeds_readWord (word : String) : Feeds S (readWord word) (readWord word) := by
  rw [readWord]
  split
  · refine feeds_advance.bind fun _ => .isAt TokenKind.noConfusion ?_ (copies_pure _)
    exact feeds_readSpace.bind fun _ => copies_pure _
  · split
    · exact feeds_advance.bind fun _ => copies_pure _
    · split
      · exact feeds_advance.bind fun _ => copies_pure _
      · exact feeds_unexpected _

theorem feeds_readArray (hitem : Tracks S item item') : Feeds S (readArray item) (readArray item') := by
  rw [readArray, readArray]
  exact (feeds_readLength _ _).feeds fun _ => feeds_closes hitem

theorem feeds_readAngled (hitem : Tracks S item item') :
    Feeds S (readAngled item) (readAngled item') := by
  rw [readAngled, readAngled]
  refine .isAt fun packed => ?_
  split
  · exact feeds_closes (feeds_readFields hitem).toTracks
  · refine (tracks_accept _).feeds fun scalable => ?_
    dsimp only
    split
    · refine (feeds_expectWord _).feeds fun _ => (feeds_readLength _ _).feeds fun _ => ?_
      exact feeds_closes hitem
    · exact (feeds_readLength _ _).feeds fun _ => feeds_closes hitem

theorem feeds_readBase (hitem : Tracks S item item') : Feeds S (readBase item) (readBase item') := by
  rw [readBase, readBase]
  refine .kind fun k => ?_
  split
  · exact feeds_readWord _
  · exact feeds_advance.bind fun _ => (feeds_readArray hitem).toCopies
  · exact feeds_advance.bind fun _ => (feeds_readAngled hitem).toCopies
  · exact (feeds_readFields hitem).bind fun _ => copies_pure _
  · exact feeds_advance.bind fun _ => copies_pure _
  · exact feeds_unexpected _

theorem copies_readSuffix (hitem : Tracks S item item') (ty : Ty) :
    Copies S (readSuffix item ty) (readSuffix item' ty) := by
  have hstar : Feeds S (do advance; return Round.again (pointer ty 0) : Reader (Round Ty Ty))
      (do advance; return Round.again (pointer ty 0)) := feeds_advance.bind fun _ => copies_pure _
  have hspace : Feeds S (do
        let space ← readSpace
        expect .star "'*'"
        return Round.again (pointer ty space) : Reader (Round Ty Ty))
      (do
        let space ← readSpace
        expect .star "'*'"
        return Round.again (pointer ty space)) :=
    feeds_readSpace.feeds fun _ => (feeds_expect _ _).bind fun _ => copies_pure _
  have hparams : Feeds S (do
        let params ← readParams item
        return Round.again (function ty params.1 params.2) : Reader (Round Ty Ty))
      (do
        let params ← readParams item'
        return Round.again (function ty params.1 params.2)) :=
    (feeds_readParams hitem).bind fun _ => copies_pure _
  rw [readSuffix, readSuffix]
  refine .kind (fun k => ?_) fun k => ?_
  · split
    · exact hstar.toCopies
    · exact hspace.toCopies
    · exact hparams.toCopies
    · exact copies_pure _
  · split
    · exact .inl hstar
    · exact .inl hspace
    · exact .inl hparams
    · exact .inr rfl

/-- The bound on the depth of a type may be larger in the other text. -/
theorem feeds_readWithin {bound bound' : List Token} (h : bound.length ≤ bound'.length) :
    Feeds S (readWithin bound) (readWithin bound') := by
  induction bound generalizing bound' with
  | nil => exact .of_fails fun _ => ⟨_, rfl⟩
  | cons t bound ih =>
    obtain ⟨t', bound', rfl⟩ : ∃ t' bound'', bound' = t' :: bound'' :=
      List.exists_cons_of_length_pos (Nat.lt_of_lt_of_le (Nat.succ_pos _) h)
    have hitem := (ih (Nat.le_of_succ_le_succ h)).toTracks
    rw [readWithin, readWithin]
    exact (feeds_readBase hitem).bind fun base => .iterate (fun ty => copies_readSuffix hitem ty) base

/-- **The same type is read up to a seam**, also in front of an attachment. -/
theorem feeds_read : Feeds S Ty.read Ty.read := by
  have hsame : ∀ c : Cursor, Feeds S (readWithin c.bound) (readWithin c.bound) :=
    fun c => feeds_readWithin (Nat.le_refl _)
  exact ⟨⟨⟨fun c => (hsame c).forward c,
    fun ahead c c' hc => (feeds_readWithin hc.bound_length_le).same ahead c c' hc⟩,
    fun hS ahead c c' hc => (feeds_readWithin hc.bound_length_le).upTo hS ahead c c' hc⟩,
    fun c => (hsame c).hungry c⟩

end IrRecords.Ty
