import IrRecords.Proofs.Reader.Ledger
import IrRecords.Ty.Reader

/-!
# What types pass

The text of a type closes the brackets that it opens, and neither a label nor an equals sign stands
in it outside of them. The proof follows the readers; those that read types inside of types take
the inner reader as an argument and are neutral if it is. A type has a first token, and it is one
that a type can start with.
-/

namespace IrRecords.Ty

open Reader

variable {item : Reader Ty}

/-! ## Brackets -/

theorem neutral_readSpace : Neutral readSpace := by
  refine .intro fun c l => ?_
  rw [readSpace]
  refine .skip (neutral_expectWord _) fun _ _ => .expect_opener fun _ => ?_
  exact .skip (neutral_expectNumber _ _) fun _ _ => .expect_closer fun _ => .pure rfl

/-- The fields of a struct are a bracket and what closes it. -/
theorem readFields_eq (hitem : Neutral item) : ∃ f : Unit → Reader (List Ty),
    readFields item = (expect (.opener .curly) "'\x7b'" >>= f)
      ∧ ∀ {ω : Type} {W : List Token → ω → Prop} {c : Cursor} {l : Ledger ω},
        Writes W c (l.enter .curly) (f ()) fun _ l' => l' = l := by
  refine ⟨_, rfl, fun {ω W c l} => .accept_closer (fun _ => .pure rfl) fun _ => ?_⟩
  exact .skip hitem.commaSeparated fun _ _ => .expect_closer fun _ => .pure rfl

theorem neutral_readFields (hitem : Neutral item) : Neutral (readFields item) := by
  obtain ⟨f, heq, hf⟩ := readFields_eq hitem
  rw [heq]
  exact .intro fun c l => .expect_opener fun _ => hf

theorem neutral_readParams (hitem : Neutral item) : Neutral (readParams item) := by
  refine .intro fun c l => ?_
  rw [readParams]
  refine .expect_opener fun _ => .accept_closer (fun _ => .pure rfl) fun _ => ?_
  refine .skip (.iterate (fun params => ?_) #[]) fun _ _ => .expect_closer fun _ => .pure rfl
  refine (neutral_accept rfl).bind fun dots => ?_
  cases dots with
  | true => exact .pure _
  | false =>
    refine hitem.bind fun param => (neutral_accept rfl).bind fun more => ?_
    cases more with
    | true => exact .pure _
    | false => exact .pure _

theorem neutral_readLength (bound : Nat) (what : String) : Neutral (readLength bound what) := by
  rw [readLength]
  exact (neutral_expectNumber _ _).bind fun _ => (neutral_expectWord _).bind fun _ => .pure _

/-- An array type closes the bracket that it is read behind. -/
theorem writes_readArray {ω : Type} {W : List Token → ω → Prop} {c : Cursor} {l : Ledger ω}
    (hitem : Neutral item) : Writes W c (l.enter .square) (readArray item) fun _ l' => l' = l := by
  rw [readArray]
  refine .skip (neutral_readLength _ _) fun _ _ => .skip hitem fun _ _ => ?_
  exact .expect_closer fun _ => .pure rfl

/-- So do a vector type and a packed struct. -/
theorem writes_readAngled {ω : Type} {W : List Token → ω → Prop} {c : Cursor} {l : Ledger ω}
    (hitem : Neutral item) : Writes W c (l.enter .angle) (readAngled item) fun _ l' => l' = l := by
  rw [readAngled]
  refine .isAt ?_
  by_cases hpacked : (c.current.kind == .opener .curly) = true
  · rw [if_pos hpacked]
    exact .skip (neutral_readFields hitem) fun _ _ => .expect_closer fun _ => .pure rfl
  · rw [if_neg hpacked]
    refine .skip (neutral_acceptWord _) fun scalable _ => ?_
    have hrest : ∀ c, Writes W c (l.enter .angle) (do
        let length ← readLength Text.bound32 "a vector length"
        let elem ← item
        expect (.closer .angle) "'>'"
        return vector scalable length elem) fun _ l' => l' = l := by
      intro c
      refine .skip (neutral_readLength _ _) fun _ _ => .skip hitem fun _ _ => ?_
      exact .expect_closer fun _ => .pure rfl
    cases scalable with
    | true => exact .skip (neutral_expectWord _) fun _ c => hrest c
    | false => exact hrest _

theorem writes_readWord {ω : Type} {W : List Token → ω → Prop} {c : Cursor} {l : Ledger ω}
    {word : String} (hc : c.current.kind = .word word) :
    Writes W c l (readWord word) fun _ l' => l' = l := by
  rw [readWord]
  by_cases hptr : (word == "ptr") = true
  · rw [if_pos hptr]
    refine .advance hc rfl fun c₁ _ => .isAt ?_
    by_cases hspace : (c₁.current.kind == .word "addrspace") = true
    · rw [if_pos hspace]
      exact .skip neutral_readSpace fun _ _ => .pure rfl
    · rw [if_neg hspace]
      exact .pure rfl
  · rw [if_neg hptr]
    split
    · exact .advance hc rfl fun _ _ => .pure rfl
    · split
      · exact .advance hc rfl fun _ _ => .pure rfl
      · exact .unexpected

theorem neutral_readBase (hitem : Neutral item) : Neutral (readBase item) := by
  refine .intro fun c l => ?_
  rw [readBase]
  refine .kind ?_
  split
  · next word hc => exact writes_readWord hc
  · next hc => exact .advance_opener hc fun _ => writes_readArray hitem
  · next hc => exact .advance_opener hc fun _ => writes_readAngled hitem
  · exact .skip (neutral_readFields hitem) fun _ _ => .pure rfl
  · next id hc => exact .advance hc rfl fun _ _ => .pure rfl
  · exact .unexpected

theorem neutral_readSuffix (hitem : Neutral item) (ty : Ty) : Neutral (readSuffix item ty) := by
  refine .intro fun c l => ?_
  rw [readSuffix]
  refine .kind ?_
  split
  · next hc => exact .advance hc rfl fun _ _ => .pure rfl
  · exact .skip neutral_readSpace fun _ _ => .skip (neutral_expect rfl _) fun _ _ => .pure rfl
  · exact .skip (neutral_readParams hitem) fun _ _ => .pure rfl
  · exact .pure rfl

/-- The induction is on the row that bounds the nesting. -/
theorem neutral_readWithin (bound : List Token) : Neutral (readWithin bound) := by
  induction bound with
  | nil =>
    intro c _ a later h
    simp [readWithin] at h
  | cons t bound ih =>
    rw [readWithin]
    exact (neutral_readBase ih).bind fun base => .iterate (fun ty => neutral_readSuffix ih ty) base

theorem neutral_read : Neutral read := by
  intro c heof a later h
  exact neutral_readWithin c.bound c heof a later h

/-! ## The first token -/

theorem passesFrom_readWord {c : Cursor} {word : String} (hc : c.current.kind = .word word) :
    PassesFrom c (readWord word) fun _ ts =>
      (∃ us, ts = c.current :: us) ∧ isTypeWord word = true := by
  have heof : c.current.kind ≠ .eof := by rw [hc]; exact TokenKind.noConfusion
  rw [readWord]
  by_cases hptr : (word == "ptr") = true
  · rw [if_pos hptr]
    have hword : isTypeWord word = true := by simp [isTypeWord, hptr]
    refine .advance heof fun c₁ _ => .isAt ?_
    by_cases hspace : (c₁.current.kind == .word "addrspace") = true
    · rw [if_pos hspace]
      exact (neutral_readSpace.passes c₁).bind fun _ us _ _ => .pure ⟨⟨us ++ [], rfl⟩, hword⟩
    · rw [if_neg hspace]
      exact .pure ⟨⟨[], rfl⟩, hword⟩
  · rw [if_neg hptr]
    split
    · next p hp => exact .advance heof fun _ _ => .pure ⟨⟨[], rfl⟩, by simp [isTypeWord, hp]⟩
    · split
      · next bits hbits =>
        exact .advance heof fun _ _ => .pure ⟨⟨[], rfl⟩, by simp [isTypeWord, hbits]⟩
      · exact .unexpected

theorem passesFrom_readBase {c : Cursor} (hitem : Neutral item) :
    PassesFrom c (readBase item) fun _ ts =>
      (∃ us, ts = c.current :: us) ∧ startsType c.current.kind = true := by
  -- What is read behind the first token does not matter, as long as it goes forward.
  have hfirst : ∀ {f : Unit → Reader Ty}, c.current.kind ≠ .eof →
      startsType c.current.kind = true → (∀ c₁, PassesFrom c₁ (f ()) fun _ _ => True) →
      PassesFrom c (advance >>= f) fun _ ts =>
        (∃ us, ts = c.current :: us) ∧ startsType c.current.kind = true :=
    fun heof hstarts hf => .advance heof fun c₁ _ => (hf c₁).mono fun _ us _ => ⟨⟨us, rfl⟩, hstarts⟩
  let W : List Token → Unit → Prop := fun _ _ => False
  rw [readBase]
  refine .kind ?_
  split
  · next word hc =>
    rw [hc]
    exact passesFrom_readWord hc
  · next hc =>
    refine hfirst (by simp [hc]) (by rw [hc]; rfl) fun c₁ => ?_
    exact (writes_readArray (W := W) (l := ⟨[], []⟩) hitem).passes
  · next hc =>
    refine hfirst (by simp [hc]) (by rw [hc]; rfl) fun c₁ => ?_
    exact (writes_readAngled (W := W) (l := ⟨[], []⟩) hitem).passes
  · next hc =>
    obtain ⟨f, heq, hf⟩ := readFields_eq hitem
    rw [heq]
    refine PassesFrom.bind (P := fun _ ts => ∃ us, ts = c.current :: us) ?_ fun _ _ _ h => ?_
    · refine (passesFrom_expect TokenKind.noConfusion _).bind fun _ ts c₁ hts => ?_
      rw [hts.1]
      exact (hf (W := W) (l := ⟨[], []⟩)).passes.mono fun _ us _ => ⟨us, rfl⟩
    · obtain ⟨us, rfl⟩ := h
      exact .pure ⟨⟨us ++ [], rfl⟩, by rw [hc]; rfl⟩
  · next id hc => exact hfirst (by simp [hc]) (by rw [hc]; rfl) fun c₁ => .pure trivial
  · exact .unexpected

/-- **A type starts with a token that a type can start with.** -/
theorem passesFrom_read (c : Cursor) : PassesFrom c read fun _ ts =>
    (∃ us, ts = c.current :: us) ∧ startsType c.current.kind = true := by
  have hwithin : ∀ bound, PassesFrom c (readWithin bound) fun _ ts =>
      (∃ us, ts = c.current :: us) ∧ startsType c.current.kind = true := by
    intro bound
    cases bound with
    | nil =>
      intro _ a later h
      simp [readWithin] at h
    | cons t bound =>
      have hitem := neutral_readWithin bound
      rw [readWithin]
      refine (passesFrom_readBase hitem).bind fun base ts c₁ hts => ?_
      obtain ⟨⟨us, rfl⟩, hstarts⟩ := hts
      have hsuffixes : Neutral (iterate (readSuffix (readWithin bound)) base) :=
        .iterate (fun ty => neutral_readSuffix hitem ty) base
      exact (hsuffixes.passes c₁).mono fun _ vs _ => ⟨⟨us ++ vs, rfl⟩, hstarts⟩
  intro heof a later h
  exact hwithin c.bound heof a later h

end IrRecords.Ty
