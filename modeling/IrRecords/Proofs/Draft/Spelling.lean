import IrRecords.Proofs.Draft.Typing
import IrRecords.Proofs.Ty.Passing

/-!
# How operands are spelled

An operand stands in the text as a row of tokens, and `Spells` says which row it is: one token for a
reference, and for a constant the row that the reader of constants passes, whose text the constant
keeps. Readers of operands note what they have read and from which row (`writes_readOperand`).

What an operand looks like from outside depends on how its text begins. A constant never begins with
a reference. Metadata may: a type in front of a value can be the name of a struct
(`startsMetadata`).
-/

namespace IrRecords

/-- Whether a constant can start with a token of this kind. -/
def TokenKind.startsConstant : TokenKind → Bool
  | .int _ | .float _ | .chars _ | .word _ => true
  | .opener .square | .opener .curly | .opener .angle => true
  | _ => false

/-- Whether metadata can start with a token of this kind. -/
def TokenKind.startsMetadata : TokenKind → Bool
  | .metadata _ | .bang => true
  | k => startsType k

namespace Draft

open Reader

/-! ## Constants -/

theorem neutral_skipWhile_isWord : Neutral (skipWhile isWord) := by
  refine neutral_skipWhile fun t ht => ?_
  unfold isWord at ht
  split at ht
  · next hk => rw [hk]; rfl
  · cases ht

theorem neutral_passString (what : String) : Neutral (passString what) := by
  refine .intro fun c l => ?_
  rw [passString]
  refine .kind ?_
  split
  · next text hc => exact .advance_only hc rfl rfl
  · exact .unexpected

theorem neutral_passGlobal : Neutral passGlobal := by
  refine .intro fun c l => ?_
  rw [passGlobal]
  refine .kind ?_
  split
  · next id hc => exact .advance_only hc rfl rfl
  · exact .unexpected

theorem writes_passWordConstant {ω : Type} {W : List Token → ω → Prop} {c : Cursor} {l : Ledger ω}
    {w : String} (hc : c.current.kind = .word w) :
    Writes W c l (passWordConstant w) fun _ l' => l' = l := by
  rw [passWordConstant]
  split
  · exact .advance_only hc rfl rfl
  split
  · refine .advance hc rfl fun _ _ => .skip (neutral_skipWords _) fun _ _ => ?_
    refine .skip (neutral_passString _) fun _ _ => .skip neutral_expectComma fun _ _ => ?_
    exact (neutral_passString _).writes
  split
  · exact .advance hc rfl fun _ _ => neutral_passGlobal.writes
  · refine .skip neutral_skipWhile_isWord fun _ c₁ => .isAt ?_
    by_cases hgroup : (c₁.current.kind == .opener .round) = true
    · rw [if_pos hgroup]
      exact .skipGroup_only (beq_iff_eq.mp hgroup) rfl
    · rw [if_neg hgroup]
      exact .unexpected

/-- The text of a constant closes the brackets that it opens. -/
theorem neutral_passConstant : Neutral passConstant := by
  refine .intro fun c l => ?_
  rw [passConstant]
  refine .kind ?_
  split
  · next hc => exact .advance_only hc rfl rfl
  · next hc => exact .advance_only hc rfl rfl
  · next hc => exact .advance_only hc rfl rfl
  · next hc => exact .skipGroup_only hc rfl
  · next hc => exact .skipGroup_only hc rfl
  · next hc => exact .skipGroup_only hc rfl
  · next w hc => exact writes_passWordConstant hc
  · exact .unexpected

/-- What is read from `c` starts with the token ahead. -/
def StartsFrom (c : Cursor) (r : Reader Unit) : Prop :=
  PassesFrom c r fun _ ts => ∃ us, ts = c.current :: us

theorem startsFrom_advance {c : Cursor} (hc : c.current.kind ≠ .eof) : StartsFrom c advance :=
  PassesFrom.advance hc (f := Pure.pure) fun _ _ => .pure ⟨[], rfl⟩

theorem startsFrom_skipGroup {c : Cursor} {b : Bracket} (hc : c.current.kind = .opener b) :
    StartsFrom c skipGroup :=
  .skipGroup hc fun _ ts _ hfirst => ⟨ts, by rw [hfirst]⟩

/-- Only the first of two readers matters. -/
theorem StartsFrom.bind {c : Cursor} {r : Reader Unit} {f : Unit → Reader Unit}
    (hr : StartsFrom c r) (hf : ∀ c₁, PassesFrom c₁ (f ()) fun _ _ => True) :
    StartsFrom c (r >>= f) := by
  refine PassesFrom.bind hr fun _ _ c₁ hts => ?_
  obtain ⟨us, rfl⟩ := hts
  exact (hf c₁).mono fun _ vs _ => ⟨us ++ vs, rfl⟩

theorem startsFrom_passWordConstant {c : Cursor} {w : String} (hc : c.current.kind = .word w) :
    StartsFrom c (passWordConstant w) := by
  have heof : c.current.kind ≠ .eof := by rw [hc]; exact TokenKind.noConfusion
  have hword : isWord c.current = true := by rw [isWord, hc]
  rw [passWordConstant]
  split
  · exact startsFrom_advance heof
  split
  · refine (startsFrom_advance heof).bind (Neutral.passes ?_)
    refine (neutral_skipWords _).bind fun _ => (neutral_passString _).bind fun _ => ?_
    exact neutral_expectComma.bind fun _ => neutral_passString _
  split
  · exact (startsFrom_advance heof).bind neutral_passGlobal.passes
  · refine StartsFrom.bind (.skipWhile_of_pos heof hword) fun c₁ => .isAt ?_
    by_cases hgroup : (c₁.current.kind == .opener .round) = true
    · rw [if_pos hgroup]
      exact (startsFrom_skipGroup (beq_iff_eq.mp hgroup)).mono fun _ _ _ => trivial
    · rw [if_neg hgroup]
      exact .unexpected

/-- A constant starts with a token that a constant can start with. -/
theorem passesFrom_passConstant (c : Cursor) : PassesFrom c passConstant fun _ ts =>
    (∃ us, ts = c.current :: us) ∧ c.current.kind.startsConstant = true := by
  have hstart : ∀ {r : Reader Unit}, StartsFrom c r → c.current.kind.startsConstant = true →
      PassesFrom c r fun _ ts =>
        (∃ us, ts = c.current :: us) ∧ c.current.kind.startsConstant = true :=
    fun hr hk => PassesFrom.mono hr fun _ _ hts => ⟨hts, hk⟩
  rw [passConstant]
  refine .kind ?_
  split
  · next hc => exact hstart (startsFrom_advance (by simp [hc])) (by rw [hc]; rfl)
  · next hc => exact hstart (startsFrom_advance (by simp [hc])) (by rw [hc]; rfl)
  · next hc => exact hstart (startsFrom_advance (by simp [hc])) (by rw [hc]; rfl)
  · next hc => exact hstart (startsFrom_skipGroup hc) (by rw [hc]; rfl)
  · next hc => exact hstart (startsFrom_skipGroup hc) (by rw [hc]; rfl)
  · next hc => exact hstart (startsFrom_skipGroup hc) (by rw [hc]; rfl)
  · next w hc => exact hstart (startsFrom_passWordConstant hc) (by rw [hc]; rfl)
  · exact .unexpected

/-! ## Metadata -/

/-- A value behind a type. -/
theorem neutral_passMetadataValue : Neutral (do
    match ← kind with
    | .localRef _ | .globalRef _ => advance
    | _ => passConstant) := by
  refine .intro fun c l => .kind ?_
  split
  · next hc => exact .advance_only hc rfl rfl
  · next hc => exact .advance_only hc rfl rfl
  · exact neutral_passConstant.writes

theorem neutral_passMetadata : Neutral passMetadata := by
  refine .intro fun c l => ?_
  rw [passMetadata]
  refine .kind ?_
  split
  · next hc =>
    refine .advance hc rfl fun c₁ _ => .isAt ?_
    by_cases hgroup : (c₁.current.kind == .opener .round) = true
    · rw [if_pos hgroup]
      exact .skipGroup_only (beq_iff_eq.mp hgroup) rfl
    · rw [if_neg hgroup]
      exact .pure rfl
  · next hc =>
    refine .advance hc rfl fun c₁ _ => .kind ?_
    split
    · next hopener => exact .skipGroup_only hopener rfl
    · next hstr => exact .advance_only hstr rfl rfl
    · exact .unexpected
  · exact .skip Ty.neutral_read fun _ _ => neutral_passMetadataValue.writes

/-- Metadata starts with a token that metadata can start with. -/
theorem passesFrom_passMetadata (c : Cursor) : PassesFrom c passMetadata fun _ ts =>
    (∃ us, ts = c.current :: us) ∧ c.current.kind.startsMetadata = true := by
  -- Two of the forms pass the token that tells them apart before anything else.
  have hstart : ∀ {f : Unit → Reader Unit}, c.current.kind ≠ .eof →
      c.current.kind.startsMetadata = true → (∀ c₁, PassesFrom c₁ (f ()) fun _ _ => True) →
      PassesFrom c (advance >>= f) fun _ ts =>
        (∃ us, ts = c.current :: us) ∧ c.current.kind.startsMetadata = true :=
    fun heof hk hf =>
      PassesFrom.mono ((startsFrom_advance heof).bind hf) fun _ _ hts => ⟨hts, hk⟩
  rw [passMetadata]
  refine .kind ?_
  split
  · next hc =>
    refine hstart (by simp [hc]) (by rw [hc]; rfl) fun c₁ => .isAt ?_
    by_cases hgroup : (c₁.current.kind == .opener .round) = true
    · rw [if_pos hgroup]
      exact (startsFrom_skipGroup (beq_iff_eq.mp hgroup)).mono fun _ _ _ => trivial
    · rw [if_neg hgroup]
      exact .pure trivial
  · next hc =>
    refine hstart (by simp [hc]) (by rw [hc]; rfl) fun c₁ => .kind ?_
    split
    · next hopener => exact (startsFrom_skipGroup hopener).mono fun _ _ _ => trivial
    · next hstr => exact (startsFrom_advance (by simp [hstr])).mono fun _ _ _ => trivial
    · exact .unexpected
  · next hmetadata hbang =>
    have hstarts : startsType c.current.kind = true → c.current.kind.startsMetadata = true := by
      intro h
      unfold TokenKind.startsMetadata
      split
      · rfl
      · rfl
      · exact h
    refine (Ty.passesFrom_read c).bind fun ty ts c₁ hts => ?_
    obtain ⟨⟨us, rfl⟩, hk⟩ := hts
    exact (neutral_passMetadataValue.passes c₁).mono fun _ vs _ => ⟨⟨us ++ vs, rfl⟩, hstarts hk⟩

/-! ## Operands -/

/-- The row `ts` spells the operand. -/
inductive Spells : List Token → Operand → Prop
  | reference {t : Token} {id : Ident} {ty : Ty} (ht : t.kind = .localRef id) :
      Spells [t] (.reference id ty t.start)
  | global {t : Token} {id : Ident} {ty : Ty} (ht : t.kind = .globalRef id) :
      Spells [t] (.known (.global ty id))
  | constant {ts : List Token} {ty : Ty} (hty : ty ≠ .metadata) (hts : passConstant.Reads ts ()) :
      Spells ts (.known (.constant ty (Token.rowText ts)))
  | metadata {ts : List Token} (hts : passMetadata.Reads ts ()) :
      Spells ts (.known (.constant .metadata (Token.rowText ts)))

/-- An operand may be used at another type, as long as it is not taken for metadata or metadata for
something else. -/
theorem Spells.withTy {ts : List Token} {o : Operand} {ty : Ty} (h : Spells ts o)
    (ho : o.ty ≠ .metadata) (hty : ty ≠ .metadata) : Spells ts (o.withTy ty) := by
  cases h with
  | reference ht => exact .reference ht
  | global ht => exact .global ht
  | constant _ hts => exact .constant hty hts
  | metadata _ => exact absurd rfl ho

/-- An operand that keeps the text of what is passed. -/
theorem writes_passedText {c : Cursor} {l : Ledger Operand} {r : Reader Unit} (hr : Neutral r)
    {make : String → Operand} (hmake : ∀ ts, r.Reads ts () → Spells ts (make (Token.rowText ts))) :
    Writes Spells c l (passedText r >>= fun text => pure (make text))
      fun o l' => l' = l.note [o] := by
  refine PassesFrom.bind (PassesFrom.passedText (hr c)) fun text ts c₁ hts => ?_
  obtain ⟨hquiet, hreads, rfl⟩ := hts
  refine .pure ⟨_, ?_, rfl⟩
  rw [List.append_nil]
  exact .of_slice hquiet (hmake ts hreads)

/-- A token that is an operand by itself. -/
theorem writes_advance {c : Cursor} {l : Ledger Operand} {o : Operand}
    (hc : c.current.kind.isLoose = true) (ho : Spells [c.current] o) :
    Writes Spells c l (advance >>= fun _ => pure o) fun o l' => l' = l.note [o] :=
  .advance_of_leads (TokenKind.ne_eof_of_isLoose hc)
    (.of_slice (.of_forall_isLoose (by simpa using hc) []) ho) fun _ _ => .pure rfl

/-- **What is read as an operand is noted as that operand.** -/
theorem writes_readOperand {c : Cursor} {l : Ledger Operand} (ty : Ty) :
    Writes Spells c l (readOperand ty) fun o l' => l' = l.note [o] ∧ o.ty = ty := by
  have hnotes : Writes Spells c l (readOperand ty) fun o l' => l' = l.note [o] := by
    rw [readOperand]
    by_cases hty : ty = .metadata
    · rw [if_pos hty, hty]
      exact writes_passedText neutral_passMetadata fun ts hts => .metadata hts
    · rw [if_neg hty]
      refine .position (.kind ?_)
      split
      · next id hc => exact writes_advance (by rw [hc]; rfl) (.reference hc)
      · next id hc => exact writes_advance (by rw [hc]; rfl) (.global hc)
      · exact writes_passedText neutral_passConstant fun ts hts => .constant hty hts
  exact (hnotes.and_yields (readOperand_spec ty)).mono fun _ _ h => ⟨h.1, h.2.ty_eq⟩

theorem writes_readTypedOperand {c : Cursor} {l : Ledger Operand} :
    Writes Spells c l readTypedOperand fun p l' => l' = l.note [p.2] := by
  rw [readTypedOperand]
  refine .skip Ty.neutral_read fun ty c₁ => ?_
  exact (writes_readOperand ty).bind fun o l' c₂ h => .pure h.1

end Draft

end IrRecords
