import IrRecords.Proofs.Draft.Flags
import IrRecords.Proofs.Function.Blocks
import IrRecords.Proofs.Function.Seams
import IrRecords.Proofs.Reader.Splices

/-!
# A statement that something was put into

A body is read up to a statement (`BodyUpTo`), then the statement is read, and then the rest of the body. If
something is put into the statement, then what is in front of it is read as before, and so is what is behind
it, where the two texts have the same tokens again. What is left to show is that the statement itself is read
as before and that both readers get behind it (`Crosses`). Then they read the same function
(`same_readBody_of_crosses`). No instruction comes from anywhere but a statement (`exists_bodyUpTo_of_mem`).
-/

namespace IrRecords

theorem Reader.bind_congr_left {α β : Type} {r r' : Reader α} {c c' : Cursor} (f : α → Reader β)
    (h : r c = r' c') : (r >>= f) c = (r' >>= f) c' := by
  simp only [Bind.bind, StateT.bind, h]

namespace Draft

open Reader Twins

variable {T : Twins}

/-! ## Nothing has moved -/

section

variable (hT : ∀ p, T.At p p)

include hT

theorem Instr.sameInstr_refl (i : Instr) : SameInstr T i i := by
  refine ⟨rfl, rfl, List.forall₂_same.mpr fun o _ => ?_, ?_⟩
  · cases o with
    | reference id ty p => exact .reference id ty (hT p)
    | known v => exact .refl T v
  · cases i.detail with
    | plain => exact .plain
    | compare p => exact .compare p
    | alloca ty => exact .alloca ty
    | phi incoming => exact .phi (List.forall₂_same.mpr fun x _ => ⟨rfl, hT x.2⟩)

theorem sameDraft_refl (d : Draft) : SameDraft T d d := by
  refine ⟨rfl, rfl, rfl, List.forall₂_same.mpr fun x _ => ⟨rfl, rfl, hT x.position⟩, ?_, rfl⟩
  refine List.forall₂_same.mpr fun b _ => ⟨rfl, hT b.position, List.forall₂_same.mpr fun s _ => ?_⟩
  exact ⟨rfl, s.instr.sameInstr_refl hT, hT s.position⟩

end

end Draft

namespace Function

open Reader Draft

variable {S : Seam} {T : Twins} {ctx : Context} {header : Header} {d d₁ : Draft} {f : Function}
  {c c' c₁ c₁' c₂ c₂' later : Cursor} {ahead : List Token} {result? : Option Ident} {i i' : Draft.Instr}

/-! ## Statements -/

/-- Whether a statement starts with a token of this kind. -/
def startsStatement : TokenKind → Bool
  | .closer .curly | .eof | .label _ | .hash _ => false
  | _ => true

theorem readBodyItem_of_statement (h : startsStatement c.current.kind = true) (d : Draft) :
    readBodyItem ctx d c = (readStatement ctx d >>= fun d => Pure.pure (Round.again d)) c := by
  have hkind : kind c = .ok (c.current.kind, c) := rfl
  rw [readBodyItem, bind_of_ok hkind]
  generalize c.current.kind = k at h
  cases k with
  | closer bracket =>
    cases bracket with
    | curly => cases h
    | _ => rfl
  | eof => cases h
  | label text => cases h
  | hash name => cases h
  | _ => rfl

theorem readStatement_eq_ok_iff : readStatement ctx d c = .ok (d₁, later) ↔
    ∃ result? c₁ i c₂, readResult? c = .ok (result?, c₁) ∧ readInstr ctx c₁ = .ok (i, c₂)
      ∧ d.pushInstr result? i c.current.start = .ok d₁ ∧ later = c₂.skipRestOfLine := by
  rw [readStatement]
  constructor
  · intro h
    obtain ⟨p, c₀, hp, h⟩ := bind_eq_ok_iff.mp h
    cases hp
    obtain ⟨result?, c₁, hresult, h⟩ := bind_eq_ok_iff.mp h
    obtain ⟨i, c₂, hinstr, h⟩ := bind_eq_ok_iff.mp h
    obtain ⟨_, c₃, hskip, h⟩ := bind_eq_ok_iff.mp h
    cases hskip
    cases hpush : d.pushInstr result? i c.current.start with
    | error e => rw [hpush] at h; cases h
    | ok d' =>
      rw [hpush] at h
      cases h
      exact ⟨result?, c₁, i, c₂, hresult, hinstr, hpush, rfl⟩
  · rintro ⟨result?, c₁, i, c₂, hresult, hinstr, hpush, rfl⟩
    have hp : position c = .ok (c.current.start, c) := rfl
    have hskip : skipRestOfLine c₂ = .ok ((), c₂.skipRestOfLine) := rfl
    rw [bind_of_ok hp, bind_of_ok hresult, bind_of_ok hinstr, bind_of_ok hskip, hpush]
    rfl

/-- The statement at `c` is read at `c'`, too, and behind it both texts are the same. -/
def Crosses (T : Twins) (ctx : Context) (d : Draft) (c c' : Cursor) : Prop :=
  ∀ d₁ later, readStatement ctx d c = .ok (d₁, later) →
    ∃ d₁' later', readStatement ctx d c' = .ok (d₁', later') ∧ SameDraft T d₁ d₁' ∧ T.Facing later later'

/-- It is enough to have the same instruction, and the same behind its line. -/
theorem crosses_of_readInstr (hT : ∀ p, T.At p p) (hcurrent : c'.current = c.current)
    (hresult : readResult? c = .ok (result?, c₁)) (hresult' : readResult? c' = .ok (result?, c₁'))
    (hinstr : readInstr ctx c₁ = .ok (i, c₂)) (hinstr' : readInstr ctx c₁' = .ok (i', c₂'))
    (hi : SameInstr T i i') (hbehind : T.Facing c₂.skipRestOfLine c₂'.skipRestOfLine) (d : Draft) :
    Crosses T ctx d c c' := by
  intro d₁ later h
  obtain ⟨_, _, _, _, hr, hi₁, hpush, rfl⟩ := readStatement_eq_ok_iff.mp h
  cases hresult.symm.trans hr
  cases hinstr.symm.trans hi₁
  have hsame := same_pushInstr (sameDraft_refl hT d) result? hi (hT c.current.start)
  rw [hpush] at hsame
  generalize hpush' : d.pushInstr result? i' c.current.start = e at hsame
  cases hsame with
  | ok hd₁ =>
    refine ⟨_, _, readStatement_eq_ok_iff.mpr ⟨_, _, _, _, hresult', hinstr', ?_, rfl⟩, hd₁, hbehind⟩
    rw [hcurrent, hpush']

/-! ## What is put into a statement -/

section

open Token

variable {s s' : Stream} {ts is us us' : List Token} {h : Splice s s' ts is us us'} {hne : us ≠ []}
  {hinert : ∀ t, is.head? = some t → t.kind.isInert = true} {t : Token} {L : Nat} {pre : List Token}

theorem at_twins (h : Splice s s' ts is us us') (p : Position) : h.twins.At p p := .inl Iff.rfl

/-- In front of the seam both statements begin with the same token, and have the same result. -/
theorem exists_readResult?_beside (hc : S.Beside ahead c c') (hresult : readResult? c = .ok (result?, c₁))
    (hle : S.behind.length + 1 ≤ c₁.remaining) : c'.current = c.current
      ∧ ∃ ahead₁ c₁', readResult? c' = .ok (result?, c₁') ∧ S.Beside ahead₁ c₁ c₁' := by
  have hforward := remaining_le_of_suffix ((tracks_readResult? (S := S)).forward c _ _ hresult)
  refine ⟨?_, tracks_readResult?.same ahead c c' hc _ _ hresult hle⟩
  cases ahead with
  | nil =>
    rw [hc.remaining, List.length_nil, Nat.zero_add] at hforward
    exact absurd (Nat.le_trans hle hforward) (Nat.not_succ_le_self _)
  | cons t ts => exact hc.current.2.trans hc.current.1.symm

/-- **An attachment is passed over** at the end of the line on which the instruction ends. -/
theorem crosses_of_attaches (hS : (h.seam hne hinert).Attaches) (hc : (h.seam hne hinert).Beside ahead c c')
    (hresult : readResult? c = .ok (result?, c₁)) (hle₁ : us.length + 1 ≤ c₁.remaining)
    (hinstr : readInstr ctx c₁ = .ok (i, c₂)) {rs : List Token} (hrest : c₂.rest = rs ++ us)
    (hlast : c₂.lastLine? = some L)
    (hrs : ∀ t ∈ rs, t.line = L) (his : ∀ t ∈ is, t.line = L) (d : Draft) :
    Crosses h.twins ctx d c c' := by
  have hfeeds : Feeds (h.seam hne hinert) (readInstr ctx) (readInstr ctx) := feeds_readInstr ctx
  have hle₂ : us.length ≤ c₂.remaining := by
    rw [Cursor.remaining, hrest, List.length_append]
    exact Nat.le_add_left _ _
  obtain ⟨hcurrent, ahead₁, c₁', hresult', hc₁⟩ := exists_readResult?_beside hc hresult hle₁
  obtain ⟨ahead₂, c₂', hinstr', hc₂⟩ := hfeeds.upTo hS ahead₁ c₁ c₁' hc₁ i c₂ hinstr hle₂
  obtain rfl : rs = ahead₂ := List.append_cancel_right (hrest.symm.trans hc₂.rest)
  exact crosses_of_readInstr (at_twins h) hcurrent hresult hresult' hinstr hinstr'
    (i.sameInstr_refl (at_twins h)) (Splice.facing_skipRestOfLine hc₂ hlast hrs his) d

/-- **Flags are passed over** behind the word of the opcode. -/
theorem crosses_of_flags {h : Splice s s' (pre ++ [t]) is us us'}
    (hc : (h.seam hne hinert).Beside ahead c c') (hresult : readResult? c = .ok (result?, c₁))
    (hinstr : readInstr ctx c₁ = .ok (i, c₂)) (hrest : (atOpcode c₁).rest = t :: us)
    (his : ∀ u ∈ is, isWordOf (flags i.opcode) u = true ∧ u.line = t.line) (d : Draft) :
    Crosses h.twins ctx d c c' := by
  have hskip : ∀ c : Cursor, skipWords callMarkers c = .ok ((), atOpcode c) := fun _ => rfl
  have hmarkers : Copies (h.seam hne hinert) (skipWords callMarkers) (skipWords callMarkers) :=
    copies_skipWords _
  have hle : us.length + 1 ≤ (atOpcode c₁).remaining := by
    rw [Cursor.remaining, hrest]
    exact Nat.le_refl _
  have hle₁ : us.length + 1 ≤ c₁.remaining :=
    Nat.le_trans hle (remaining_le_of_suffix (hmarkers.forward c₁ _ _ (hskip c₁)))
  obtain ⟨hcurrent, ahead₁, c₁', hresult', hc₁⟩ := exists_readResult?_beside hc hresult hle₁
  obtain ⟨ahead₂, _, hskip', hop⟩ := hmarkers.same ahead₁ c₁ c₁' hc₁ () _ (hskip c₁) hle
  rw [hskip] at hskip'
  cases hskip'
  obtain rfl : ahead₂ = [t] := List.append_cancel_right (hop.rest.symm.trans hrest)
  have hkind := opcode_of_readInstr hinstr
  have hread := hinstr
  rw [readInstr_of_opcode hkind] at hread
  rw [hop.current.1, ← hop.current.2] at hkind
  -- Behind the opcode both texts are the same, but for the flags.
  have hbehind : behindOpcode c₁ = ⟨some t.line, us, s.stop⟩ :=
    (Cursor.advance_of_rest hrest).trans (by rw [hop.stop]; rfl)
  have hbehind' : behindOpcode c₁' = ⟨some t.line, is ++ us', s'.stop⟩ :=
    (Cursor.advance_of_rest hop.rest').trans (by rw [hop.stop']; rfl)
  have hsame := agrees_readOperation ctx (at_twins h (atOpcode c₁).current.start) i.opcode _ _
    (h.facing (some t.line))
  rw [hbehind] at hread
  rw [hread] at hsame
  generalize hread' : readOperation ctx (atOpcode c₁).current.start i.opcode
    ⟨some t.line, us', s'.stop⟩ = e at hsame
  cases hsame with
  | @ok _ x' hx =>
    obtain ⟨i', c₂'⟩ := x'
    have hinstr' : readInstr ctx c₁' = .ok (i', c₂') := by
      have hstart : (atOpcode c₁').current = (atOpcode c₁).current :=
        hop.current.2.trans hop.current.1.symm
      rw [readInstr_of_opcode hkind, hbehind', hstart]
      exact readOperation_flags (fun u hu => (his u hu).1) (fun u hu => congrArg some (his u hu).2.symm) hread'
    exact crosses_of_readInstr (at_twins h) hcurrent hresult hresult' hinstr hinstr' hx.1
      hx.2.skipRestOfLine d

end

/-! ## Bodies -/

/-- From behind its header, the body is read up to a statement. -/
inductive BodyUpTo (ctx : Context) (header : Header) (c₁ : Cursor) : Draft → Cursor → Prop
  | intro {c₂ c : Cursor} {d₀ d : Draft} (hopen : openBody c₁ = .ok ((), c₂))
      (hheader : Draft.ofHeader header = .ok d₀) (hrounds : Rounds (readBodyItem ctx) d₀ c₂ d c)
      (hstarts : startsStatement c.current.kind = true) : BodyUpTo ctx header c₁ d c

theorem goesForward_openBody : openBody.GoesForward := fun c =>
  (goesForward_skipWhile _ c).bind fun _ _ _ _ =>
    (passesFrom_expect TokenKind.noConfusion _).mono fun _ _ _ => trivial

theorem BodyUpTo.exists_reaches (h : BodyUpTo ctx header c₁ d c) (hstop : c₁.stop.kind = .eof) :
    ∃ ts, c₁.Reaches ts c := by
  obtain ⟨hopen, _, hrounds, _⟩ := h
  obtain ⟨ts, hts, _⟩ := goesForward_openBody c₁ hstop _ _ hopen
  obtain ⟨us, hus⟩ := hrounds.exists_reaches (productive_readBodyItem ctx) (hts.stop ▸ hstop)
  exact ⟨ts ++ us, hts.trans hus⟩

/-- Behind what has been read, the body is read as if it began there. -/
theorem BodyUpTo.readBody_eq (h : BodyUpTo ctx header c₁ d c) (hstop : c₁.stop.kind = .eof) :
    readBody ctx header c₁
      = (iterate (readBodyItem ctx) d >>= fun d => liftM d.finish : Reader Function) c := by
  obtain @⟨c₂, _, d₀, _, hopen, hheader, hrounds, _⟩ := h
  obtain ⟨ts, hts, _⟩ := goesForward_openBody c₁ hstop _ _ hopen
  have hlift : (liftM (Draft.ofHeader header) : Reader Draft) c₂ = .ok (d₀, c₂) := by
    rw [hheader]
    rfl
  rw [Function.readBody_eq, bind_of_ok hopen, bind_of_ok hlift]
  exact bind_congr_left _ (hrounds.iterate_eq (productive_readBodyItem ctx) (hts.stop ▸ hstop))

/-- In front of a statement the body goes on with the statement. -/
theorem BodyUpTo.readBody_of_statement (h : BodyUpTo ctx header c₁ d c) (hstop : c₁.stop.kind = .eof)
    (hread : readStatement ctx d c = .ok (d₁, c₂)) : readBody ctx header c₁
      = (iterate (readBodyItem ctx) d₁ >>= fun d => liftM d.finish : Reader Function) c₂ := by
  obtain ⟨ts, hts⟩ := h.exists_reaches hstop
  have heq := h.readBody_eq hstop
  obtain ⟨_, _, _, hstarts⟩ := h
  have hround : readBodyItem ctx d c = .ok (.again d₁, c₂) := by
    rw [readBodyItem_of_statement hstarts, bind_of_ok hread]
    rfl
  have hrounds : Rounds (readBodyItem ctx) d c d₁ c₂ := .again hround (.refl d₁ c₂)
  exact heq.trans (bind_congr_left _ (hrounds.iterate_eq (productive_readBodyItem ctx)
    (hts.stop ▸ hstop)))

theorem BodyUpTo.exists_readStatement (h : BodyUpTo ctx header c₁ d c) (hstop : c₁.stop.kind = .eof)
    (hread : readBody ctx header c₁ = .ok (f, later)) :
    ∃ d₁ c₂, readStatement ctx d c = .ok (d₁, c₂) := by
  rw [h.readBody_eq hstop] at hread
  obtain ⟨_, _, _, hstarts⟩ := h
  obtain ⟨d', c', hloop, _⟩ := bind_eq_ok_iff.mp hread
  cases hstatement : readStatement ctx d c with
  | ok x => exact ⟨x.1, x.2, rfl⟩
  | error e =>
    have hround : readBodyItem ctx d c = .error e := by
      rw [readBodyItem_of_statement hstarts]
      simp only [Bind.bind, StateT.bind, hstatement, Except.bind]
    rw [iterate_of_error hround] at hloop
    cases hloop

/-- The end of the text ends no body. -/
theorem readBodyItem_of_eof (ctx : Context) (h : c.current.kind = .eof) (d : Draft) :
    ∃ e, readBodyItem ctx d c = .error e := by
  have hkind : kind c = .ok (.eof, c) := by rw [kind, h]
  rw [readBodyItem, bind_of_ok hkind]
  exact ⟨_, rfl⟩

/-- In a body that is read, something stands below each statement. -/
theorem BodyUpTo.rest_ne_nil (h : BodyUpTo ctx header c₁ d c) (hstop : c₁.stop.kind = .eof)
    {a : Cursor} (hresult : readResult? c = .ok (result?, a)) (hinstr : readInstr ctx a = .ok (i, c₂))
    (hread : readBody ctx header c₁ = .ok (f, later)) : c₂.skipRestOfLine.rest ≠ [] := by
  intro hrest
  obtain ⟨d₁, c₃, hstatement⟩ := h.exists_readStatement hstop hread
  obtain ⟨front, hfront⟩ := h.exists_reaches hstop
  obtain ⟨row, hrow, _⟩ := passesFrom_readStatement ctx d c (hfront.stop ▸ hstop) d₁ c₃ hstatement
  rw [h.readBody_of_statement hstop hstatement] at hread
  obtain ⟨_, _, _, _, hr, hi, _, rfl⟩ := readStatement_eq_ok_iff.mp hstatement
  cases hresult.symm.trans hr
  cases hinstr.symm.trans hi
  have hend : c₂.skipRestOfLine.current.kind = .eof := by
    rw [Cursor.current, hrest, List.headD_nil, hrow.stop, hfront.stop, hstop]
  obtain ⟨e, herror⟩ := readBodyItem_of_eof ctx hend d₁
  obtain ⟨_, _, hloop, _⟩ := bind_eq_ok_iff.mp hread
  rw [iterate_of_error herror] at hloop
  cases hloop

/-- Up to a statement in front of the seam the body is read as before. -/
theorem BodyUpTo.tracks (h : BodyUpTo ctx header c₁ d c) (hc : S.Beside ahead c₁ c₁')
    (hle : S.behind.length + 1 ≤ c.remaining) :
    ∃ us c', BodyUpTo ctx header c₁' d c' ∧ S.Beside us c c' := by
  obtain ⟨hopen, hheader, hrounds, hstarts⟩ := h
  have hsteps : ∀ d, Tracks S (readBodyItem ctx d) (readBodyItem ctx d) := tracks_readBodyItem ctx
  have hforward := hrounds.forward hsteps
  have hle₂ := Nat.le_trans hle (remaining_le_of_suffix hforward)
  obtain ⟨us, c₂', hopen', hc₂⟩ := tracks_openBody.same _ c₁ c₁' hc () _ hopen hle₂
  obtain ⟨vs, c', hrounds', hc'⟩ := hrounds.tracks (tracks_readBodyItem ctx) hc₂ hle
  refine ⟨vs, c', .intro hopen' hheader hrounds' ?_, hc'⟩
  cases vs with
  | nil =>
    rw [hc'.remaining, List.length_nil, Nat.zero_add] at hle
    exact absurd hle (Nat.not_succ_le_self _)
  | cons t vs =>
    rw [hc'.current.1] at hstarts
    rw [hc'.current.2]
    exact hstarts

/-- **The same function is read** if the statement is read as before. -/
theorem same_readBody_of_crosses (h : BodyUpTo ctx header c₁ d c) (h' : BodyUpTo ctx header c₁' d c')
    (hstop : c₁.stop.kind = .eof) (hstop' : c₁'.stop.kind = .eof) (hcross : Crosses T ctx d c c')
    (hread : readBody ctx header c₁ = .ok (f, later)) :
    ∃ f' later', readBody ctx header c₁' = .ok (f', later') ∧ Function.SameBut T.Loose f f'
      ∧ T.Facing later later' := by
  obtain ⟨d₁, c₂, hstatement⟩ := h.exists_readStatement hstop hread
  obtain ⟨d₁', c₂', hstatement', hd₁, hc₂⟩ := hcross d₁ c₂ hstatement
  rw [h.readBody_of_statement hstop hstatement] at hread
  rw [h'.readBody_of_statement hstop' hstatement']
  have hrest : Agrees T (Function.SameBut T.Loose)
      (iterate (readBodyItem ctx) d₁ >>= fun d => liftM d.finish)
      (iterate (readBodyItem ctx) d₁' >>= fun d => liftM d.finish) :=
    Agrees.bind (.iterate (fun _ _ => agrees_readBodyItem ctx) hd₁) fun _ _ hd => .lift (same_finish hd)
  have hsame := hrest c₂ c₂' hc₂
  rw [hread] at hsame
  generalize (iterate (readBodyItem ctx) d₁' >>= fun d => liftM d.finish : Reader Function) c₂' = e at hsame
  cases hsame with
  | @ok _ x' hx => exact ⟨x'.1, x'.2, rfl, hx.1, hx.2⟩

/-! ## Where an instruction is read -/

/-- What does not start a statement adds none. -/
theorem statements_of_not_startsStatement (hstarts : startsStatement c.current.kind = false)
    (h : readBodyItem ctx d c = .ok (.again d₁, c₁)) : d₁.statements = d.statements := by
  have hkind : kind c = .ok (c.current.kind, c) := rfl
  rw [readBodyItem, bind_of_ok hkind] at h
  generalize c.current.kind = k at h hstarts
  unfold startsStatement at hstarts
  split at hstarts
  · cases h
  · cases h
  · dsimp only at h
    obtain ⟨_, _, _, h⟩ := bind_eq_ok_iff.mp h
    obtain ⟨_, _, _, h⟩ := bind_eq_ok_iff.mp h
    obtain ⟨d', _, hstart, h⟩ := bind_eq_ok_iff.mp h
    cases h
    exact statements_startBlock (lift_eq_ok_iff.mp hstart).1
  · obtain ⟨_, _, _, h⟩ := bind_eq_ok_iff.mp h
    cases h
    rfl
  · cases hstarts

/-- A round in a body adds no statement, or the one that it reads. -/
theorem statements_of_round (h : readBodyItem ctx d c = .ok (.again d₁, c₁)) :
    d₁.statements = d.statements ∨ startsStatement c.current.kind = true
      ∧ ∃ result? c₂ st c₃, readResult? c = .ok (result?, c₂) ∧ readInstr ctx c₂ = .ok (st.instr, c₃)
        ∧ d₁.statements = d.statements ++ [st] := by
  cases hstarts : startsStatement c.current.kind with
  | true =>
    rw [readBodyItem_of_statement hstarts] at h
    obtain ⟨_, _, hread, h⟩ := bind_eq_ok_iff.mp h
    cases h
    obtain ⟨result?, c₂, i, c₃, hresult, hinstr, hpush, _⟩ := readStatement_eq_ok_iff.mp hread
    obtain ⟨_, hstatements, _⟩ := statements_pushInstr hpush
    exact .inr ⟨rfl, result?, c₂, _, c₃, hresult, hinstr, hstatements⟩
  | false => exact .inl (statements_of_not_startsStatement hstarts h)

/-- **Each statement of a draft is read at one of the rounds** that lead to it. -/
theorem exists_rounds_of_mem_statements (hrounds : Rounds (readBodyItem ctx) d c d₁ c₁) {st : Statement}
    (hst : st ∈ d₁.statements) (hnew : st ∉ d.statements) :
    ∃ d₂ c₂ result? c₃ c₄, Rounds (readBodyItem ctx) d c d₂ c₂ ∧ startsStatement c₂.current.kind = true
      ∧ readResult? c₂ = .ok (result?, c₃) ∧ readInstr ctx c₃ = .ok (st.instr, c₄) := by
  induction hrounds with
  | refl d c => exact absurd hst hnew
  | @again d d' d₁ c c' c₁ hround _ ih =>
    -- The round behind which the statement is there for the first time is the one that reads it.
    by_cases hmem : st ∈ d'.statements
    · rcases statements_of_round hround with hsame | ⟨hstarts, result?, c₃, new, c₄, hresult, hinstr, hadds⟩
      · exact absurd (hsame ▸ hmem) hnew
      · rw [hadds] at hmem
        obtain rfl := List.mem_singleton.mp ((List.mem_append.mp hmem).resolve_left hnew)
        exact ⟨d, c, result?, c₃, c₄, .refl d c, hstarts, hresult, hinstr⟩
    · obtain ⟨d₂, c₂, result?, c₃, c₄, hrounds, hstatement⟩ := ih hst hmem
      exact ⟨d₂, c₂, result?, c₃, c₄, .again hround hrounds, hstatement⟩

theorem eq_of_done {d' : Draft} (hstop : c.stop.kind = .eof)
    (h : readBodyItem ctx d c = .ok (.done d', later)) : d' = d := by
  obtain ⟨_, _, hd, _⟩ := passesFrom_readBodyItem ctx d c hstop _ _ h
  exact hd

/-- **Each instruction of a function is read at a statement of its body.** -/
theorem exists_bodyUpTo_of_mem (hstop : c.stop.kind = .eof) (hread : readBody ctx header c = .ok (f, later))
    {i : IrRecords.Instr} (hi : i ∈ f.instrs) : ∃ d c₂ result? c₃ c₄ d' st, BodyUpTo ctx header c d c₂
      ∧ readResult? c₂ = .ok (result?, c₃) ∧ readInstr ctx c₃ = .ok (st.instr, c₄)
      ∧ LaidOut d' f ∧ Describes d'.definitions f.values st i := by
  rw [readBody_eq] at hread
  obtain ⟨_, c₁, hopen, hbody⟩ := bind_eq_ok_iff.mp hread
  obtain ⟨d₀, _, hlift, hitems⟩ := bind_eq_ok_iff.mp hbody
  obtain ⟨hheader, rfl⟩ := lift_eq_ok_iff.mp hlift
  obtain ⟨d₁, c', hloop, hend⟩ := bind_eq_ok_iff.mp hitems
  have hlaid := finish_spec (lift_eq_ok_iff.mp hend).1
  obtain ⟨front, hfront, _⟩ := goesForward_openBody c hstop _ _ hopen
  have hstop₁ := hfront.stop.symm ▸ hstop
  obtain ⟨d', c₂, hrounds, hdone⟩ := exists_rounds_of_iterate (productive_readBodyItem ctx) hstop₁ hloop
  obtain ⟨more, hmore⟩ := hrounds.exists_reaches (productive_readBodyItem ctx) hstop₁
  obtain rfl := eq_of_done (hmore.stop.symm ▸ hstop₁) hdone
  obtain ⟨st, hst, hdescribes⟩ := exists_left_of_forall₂ hlaid.instrs (Array.mem_toList_iff.mpr hi)
  have hnew : st ∉ d₀.statements := by
    rw [statements_ofHeader hheader]
    exact List.not_mem_nil
  obtain ⟨d, c₂, result?, c₃, c₄, hrounds, hstarts, hresult, hinstr⟩ :=
    exists_rounds_of_mem_statements hrounds hst hnew
  exact ⟨d, c₂, result?, c₃, c₄, d₁, st, .intro hopen hheader hrounds hstarts, hresult, hinstr, hlaid,
    hdescribes⟩

end Function

end IrRecords
