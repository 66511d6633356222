import IrRecords.Function.Reader
import IrRecords.Proofs.Draft.Seams
import IrRecords.Proofs.Module.Functions

/-!
# Functions up to a seam

What is read of a function in front of the seam, its header and the first parts of its body, is read as
before.
-/

namespace IrRecords.Function

open Reader Draft

variable {S : Seam}

/-! ## Headers -/

theorem tracks_skipHeaderAttributes : Tracks S skipHeaderAttributes skipHeaderAttributes :=
  (tracks_skipAttributes _ _).bind fun _ => tracks_skipWhile _

theorem feeds_readName : Feeds S readName readName := by
  rw [readName]
  refine .kind fun k => ?_
  split
  · exact feeds_advance.bind fun _ => copies_pure _
  · exact feeds_unexpected _

theorem tracks_readParam : Tracks S readParam readParam := by
  rw [readParam]
  refine .position fun p => Ty.feeds_read.toTracks.bind fun ty => ?_
  refine tracks_skipHeaderAttributes.bind fun _ => .kind fun k => ?_
  split
  · exact feeds_advance.toTracks.bind fun _ => (copies_pure _).toTracks
  · exact (copies_pure _).toTracks

theorem feeds_readParams : Feeds S readParams readParams := by
  rw [readParams]
  refine (feeds_expect _ _).bind fun _ => (copies_accept TokenKind.noConfusion).bind fun empty => ?_
  split
  · exact copies_pure _
  · refine (Tracks.feeds (.iterate (fun params => ?_) #[]) fun _ => ?_).toCopies
    · refine (tracks_accept _).bind fun ellipsis => ?_
      split
      · exact (copies_pure _).toTracks
      · refine tracks_readParam.bind fun param => (tracks_accept _).bind fun more => ?_
        split <;> exact (copies_pure _).toTracks
    · exact (feeds_expect _ _).bind fun _ => copies_pure _

theorem feeds_readHeader : Feeds S readHeader readHeader := by
  rw [readHeader]
  refine tracks_skipHeaderAttributes.feeds fun _ => Ty.feeds_read.feeds fun ret => ?_
  exact feeds_readName.feeds fun name => feeds_readParams.bind fun _ => copies_pure _

/-! ## Bodies -/

/-- In front of a result there is an equals sign, which is never put in. -/
theorem tracks_readResult? : Tracks S readResult? readResult? := by
  rw [readResult?]
  refine .kinds (fun k next => ?_) fun k next next' hnext => ?_
  · split
    · refine feeds_advance.toTracks.bind fun _ => feeds_advance.toTracks.bind fun _ => ?_
      exact (copies_pure _).toTracks
    · exact (copies_pure _).toTracks
  · have hequal : next' ≠ .equal := by
      rintro rfl
      cases hnext
    by_cases hresult : (∃ id, k = .localRef id) ∧ next = .equal
    · obtain ⟨⟨id, rfl⟩, rfl⟩ := hresult
      exact .inr ⟨_, _, rfl, feeds_advance.toTracks.bind fun _ => (copies_pure _).toTracks⟩
    · refine .inl (Eq.trans (b := Pure.pure none) ?_ (Eq.symm ?_))
      · split
        · exact absurd rfl hequal
        · rfl
      · split
        · exact absurd ⟨⟨_, rfl⟩, rfl⟩ hresult
        · rfl

theorem tracks_readStatement (ctx : Context) (d : Draft) :
    Tracks S (readStatement ctx d) (readStatement ctx d) := by
  rw [readStatement]
  refine .position fun p => tracks_readResult?.bind fun result? => ?_
  refine (feeds_readInstr ctx).toTracks.bind fun instr => tracks_skipRestOfLine.bind fun _ => ?_
  exact (copies_lift _).toTracks

theorem tracks_readBodyItem (ctx : Context) (d : Draft) :
    Tracks S (readBodyItem ctx d) (readBodyItem ctx d) := by
  rw [readBodyItem]
  refine .kind fun k => ?_
  split
  · exact feeds_advance.toTracks.bind fun _ => (copies_pure _).toTracks
  · exact (feeds_unexpected _).toTracks
  · refine .position fun p => feeds_advance.toTracks.bind fun _ => ?_
    exact (copies_lift _).toTracks.bind fun _ => (copies_pure _).toTracks
  · exact tracks_skipLine.bind fun _ => (copies_pure _).toTracks
  · exact (tracks_readStatement ctx d).bind fun _ => (copies_pure _).toTracks

/-- What stands between a header and its body. -/
def openBody : Reader Unit := do
  skipWhile (!opensBody ·)
  expect (.opener .curly) "'\x7b'"

theorem readBody_eq (ctx : Context) (h : Header) : readBody ctx h = (do
    openBody
    let d ← iterate (readBodyItem ctx) (← Draft.ofHeader h)
    d.finish) := by
  rw [readBody, openBody, bind_assoc]

theorem tracks_openBody : Tracks S openBody openBody :=
  (tracks_skipWhile _).bind fun _ => (feeds_expect _ _).toTracks

theorem tracks_readBody (ctx : Context) (h : Header) : Tracks S (readBody ctx h) (readBody ctx h) := by
  rw [readBody_eq]
  refine tracks_openBody.bind fun _ => (copies_lift _).toTracks.bind fun d => ?_
  exact (Tracks.iterate (tracks_readBodyItem ctx) d).bind fun _ => (copies_lift _).toTracks

/-! ## Functions -/

variable {ctx : Context} {c c' : Cursor} {ahead : List Token}

/-- A declaration in front of the seam. -/
theorem same_readDeclaration_beside (hc : S.Beside ahead c c') : S.Same (S.behind.length + 1)
    (readDeclaration c).result (readDeclaration c').result := by
  intro f later h hle
  rw [readDeclaration, Traced.bind_eq_ok_iff] at h
  obtain ⟨⟨header, c₁⟩, hheader, h⟩ := h
  obtain ⟨_, _, h⟩ := Traced.bind_eq_ok_iff.mp h
  obtain ⟨g, hg, h⟩ := Traced.bind_eq_ok_iff.mp h
  cases h
  obtain ⟨us, hus, _⟩ := c₁.reaches_skipRestOfLine
  have hle₁ : S.behind.length + 1 ≤ c₁.remaining :=
    Nat.le_trans hle (remaining_le_of_suffix ⟨us, hus.rest.symm⟩)
  obtain ⟨ahead₁, c₁', hheader', hc₁⟩ := feeds_readHeader.same _ c c' hc header c₁ hheader hle₁
  obtain ⟨vs, c₂', hskip, hc₂⟩ := tracks_skipRestOfLine.same _ c₁ c₁' hc₁ () _ rfl hle
  cases hskip
  refine ⟨vs, _, ?_, hc₂⟩
  rw [readDeclaration, Traced.bind_eq_ok_iff]
  refine ⟨⟨header, c₁'⟩, hheader', ?_⟩
  rw [Traced.bind_eq_ok_iff]
  refine ⟨(), rfl, ?_⟩
  rw [Traced.bind_eq_ok_iff]
  exact ⟨f, hg, rfl⟩

/-- A definition in front of the seam. -/
theorem same_readDefinition_beside (hc : S.Beside ahead c c') : S.Same (S.behind.length + 1)
    (readDefinition ctx c).result (readDefinition ctx c').result := by
  intro f later h hle
  rw [readDefinition, Traced.bind_eq_ok_iff] at h
  obtain ⟨⟨header, c₁⟩, hheader, h⟩ := h
  obtain ⟨_, _, h⟩ := Traced.bind_eq_ok_iff.mp h
  have hbody : readBody ctx header c₁ = .ok (f, later) := h
  have htracks : Tracks S (readBody ctx header) (readBody ctx header) := tracks_readBody ctx header
  have hle₁ := Nat.le_trans hle (remaining_le_of_suffix (htracks.forward _ _ _ hbody))
  obtain ⟨ahead₁, c₁', hheader', hc₁⟩ := feeds_readHeader.same _ c c' hc header c₁ hheader hle₁
  obtain ⟨vs, later', hbody', hlater⟩ := htracks.same _ c₁ c₁' hc₁ f later hbody hle
  refine ⟨vs, later', ?_, hlater⟩
  rw [readDefinition, Traced.bind_eq_ok_iff]
  refine ⟨⟨header, c₁'⟩, hheader', ?_⟩
  rw [Traced.bind_eq_ok_iff]
  exact ⟨(), rfl, hbody'⟩

end IrRecords.Function
