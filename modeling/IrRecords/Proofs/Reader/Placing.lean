import IrRecords.Proofs.Reader.Rounds
import IrRecords.Proofs.Token.Lines

/-!
# Parts in a row

A text that is put together from parts is read part by part. A part by itself and the part in its place
are read alike: in its place it stands further down (`Twins`) and in front of other parts (`Border`). The
two steps in a row are `Placed` for cursors and `Carried` for what readers come to, and `exists_place`
says that the first part of a row has a place in it.
-/

namespace IrRecords

namespace Token

variable {s : Stream} {ts us : List Token} {lines line next : Nat} {ss : List Stream}

/-- The cursor in front of a text. -/
def Stream.start (s : Stream) : Cursor := ⟨none, s.tokens, s.stop⟩

/-- The tokens of a text that may stand behind another part. -/
structure Stream.StartsPart (s : Stream) : Prop where
  nonempty : s.tokens ≠ []
  starts : s.start.current.kind.startsPart = true
  defines : ∀ id, s.start.current.kind = .localRef id → (s.start.lookahead 1).kind = .equal
  stop : s.stop.kind = .eof

/-! ## Further down -/

theorem rowText_eq_of_forall₂ (htexts : List.Forall₂ (fun t t' : Token => t'.text = t.text) ts us)
    (hgaps : List.Forall₂ (fun t t' : Token => t'.gap = t.gap) ts.tail us.tail) :
    rowText us = rowText ts := by
  have hspan : spanText us = spanText ts := by
    cases htexts with
    | nil => rfl
    | @cons t u ts us ht hts =>
      have hrest : us.flatMap (fun t => t.gap ++ t.text) = ts.flatMap (fun t => t.gap ++ t.text) := by
        rw [List.tail_cons, List.tail_cons] at hgaps
        clear ht
        induction hts with
        | nil => rfl
        | cons ht _ ih =>
          cases hgaps with
          | cons hgap hgaps => rw [List.flatMap_cons, List.flatMap_cons, ht, hgap, ih hgaps]
      rw [spanText, spanText, ht, hrest]
  rw [rowText, rowText, hspan]

/-- The text by itself, and further down. -/
def Stream.Lowered.twins (h : s.Lowered lines ts) (hstop : s.stop.kind = .eof) :
    IrRecords.Twins where
  first := s
  second := ⟨ts, s.stop.lower 0 lines⟩
  Moves p p' := p'.column = p.column
  Loose _ := False
  lines := lines
  tokens := h.tokens.imp fun _ _ ht => ⟨ht.kind, ht.text, ht.line, ht.column⟩
  lexed t ht := by
    obtain ⟨i, hi, rfl⟩ := List.mem_iff_getElem.mp ht
    have hlength := h.tokens.length_eq
    have hsame := h.tokens.get hi (hlength ▸ hi)
    obtain ⟨c, rest, used, htext, hlex⟩ := h.lexed _ (List.getElem_mem (hlength ▸ hi))
    exact ⟨c, rest, used, hsame.text ▸ htext, hsame.kind ▸ hlex⟩
  lexed' := h.lexed
  stop := hstop
  stop' := hstop
  line := rfl
  texts k n := by
    refine .inl (rowText_eq_of_forall₂ ?_ ?_)
    · exact List.forall₂_take _ (List.forall₂_drop _ (h.tokens.imp fun _ _ ht => ht.text))
    · rw [← List.drop_one, ← List.drop_one, List.drop_take, List.drop_take, List.drop_drop,
        List.drop_drop, Nat.add_comm, ← List.drop_drop, ← List.drop_drop, List.drop_one,
        List.drop_one]
      exact List.forall₂_take _ (List.forall₂_drop _ h.gaps)

/-! ## In front of other parts -/

theorem Rows.headD (h : Rows line ss us) (hss : ∀ s ∈ ss, s.StartsPart) {stop' : Token}
    (heof' : stop'.kind = .eof) : (us.headD stop').kind.startsPart = true
      ∧ ∀ id, (us.headD stop').kind = .localRef id → (us.tail.headD stop').kind = .equal := by
  cases h with
  | nil => exact ⟨by rw [List.headD_nil, heof']; rfl, fun id hid => by
      rw [List.headD_nil, heof'] at hid
      cases hid⟩
  | @cons _ _ _ s ss ts us h _ _ _ =>
    obtain ⟨hne, hstarts, hdefines, hstop⟩ := hss s List.mem_cons_self
    rw [Stream.start, Cursor.current] at hstarts hdefines
    rw [Cursor.lookahead, List.drop_one] at hdefines
    have htokens := h.tokens
    generalize s.tokens = ss' at hne hstarts hdefines htokens
    cases htokens with
    | nil => exact absurd rfl hne
    | @cons t t' rest rest' ht hrest =>
      rw [List.cons_append, List.headD_cons, List.tail_cons, ht.kind]
      refine ⟨hstarts, fun id hid => ?_⟩
      have hequal := hdefines id hid
      cases hrest with
      | nil => exact absurd (hstop.symm.trans hequal) TokenKind.noConfusion
      | cons hu _ => exact hu.kind.trans hequal

/-- The first of some parts begins like the row of all of them. -/
theorem Rows.headD_kind (h : Rows line (s :: ss) us) (hs : s.tokens ≠ []) (t : Token) :
    (us.headD t).kind = s.start.current.kind := by
  cases h with
  | cons h _ _ _ =>
    have htokens := h.tokens
    rw [Stream.start, Cursor.current]
    generalize s.tokens = ts at hs htokens
    cases htokens with
    | nil => exact absurd rfl hs
    | cons ht _ => exact ht.kind

/-- What stands behind a part, if it is a row of parts. -/
def Rows.border (h : Rows line ss us) (hss : ∀ s ∈ ss, s.StartsPart) {stop stop' : Token}
    (heof : stop.kind = .eof) (heof' : stop'.kind = .eof) : Border where
  behind := us
  stop := stop
  stop' := stop'
  line := line
  below _ hb := h.le_line (List.mem_of_head? hb)
  eof := heof
  eof' := heof'
  starts := (h.headD hss heof').1
  defines := (h.headD hss heof').2

end Token

/-! ## Both -/

/-- If something is read and fails, it is not for want of more. -/
def Complete {α : Type} (e : Except Diagnostic α) : Prop :=
  ∀ d, e = .error d → d.fault.wantsMore = false

/-- The cursor `c` over a part by itself and the cursor `c'` over the whole text are at the same place of
the part. -/
def Placed (T : Twins) (B : Border) (c c' : Cursor) : Prop :=
  ∃ mid, T.Facing c mid ∧ B.Beside mid c'

/-- What is read in a part by itself and in its place. -/
inductive Carried {α β : Type} (T : Twins) (B : Border) (A : α → β → Prop) :
    Except Diagnostic (α × Cursor) → Except Diagnostic (β × Cursor) → Prop
  | same {a : α} {b : β} {c c' : Cursor} (ha : A a b) (hc : Placed T B c c') :
      Carried T B A (.ok (a, c)) (.ok (b, c'))
  | refused {d d' : Diagnostic} (h : d'.fault.wantsMore = false) : Carried T B A (.error d) (.error d')
  | wants {d : Diagnostic} {e' : Except Diagnostic (β × Cursor)} (h : d.fault.wantsMore = true) :
      Carried T B A (.error d) e'

variable {α β : Type} {T : Twins} {B : Border} {A : α → β → Prop}

/-- Before its end a part by itself and in its place are seen alike. -/
theorem Placed.inside {c c' : Cursor} (h : Placed T B c c') (hin : c.rest ≠ []) :
    ∃ mid, T.Facing c mid ∧ B.Beside mid c' ∧ mid.rest ≠ [] := by
  obtain ⟨mid, hfacing, hbeside⟩ := h
  refine ⟨mid, hfacing, hbeside, fun hmid => hin ?_⟩
  have hrest := hfacing.rest
  rw [hmid] at hrest
  exact List.forall₂_nil_right_iff.mp hrest

theorem Placed.current_kind {c c' : Cursor} (h : Placed T B c c') (hin : c.rest ≠ []) :
    c'.current.kind = c.current.kind := by
  obtain ⟨mid, hfacing, hbeside, hin⟩ := h.inside hin
  rw [hbeside.current hin, hfacing.current.kind]

theorem Placed.advance {c c' : Cursor} (h : Placed T B c c') (hin : c.rest ≠ []) :
    Placed T B c.advance c'.advance := by
  obtain ⟨mid, hfacing, hbeside, hin⟩ := h.inside hin
  exact ⟨mid.advance, hfacing.advance, hbeside.advance hin⟩

theorem Placed.skipLine {c c' : Cursor} (h : Placed T B c c') (hin : c.rest ≠ []) :
    Placed T B c.skipLine c'.skipLine := by
  obtain ⟨mid, hfacing, hbeside, hin⟩ := h.inside hin
  exact ⟨mid.skipLine, hfacing.skipLine, hbeside.skipLine hin⟩

theorem Carried.intro {e : Except Diagnostic (α × Cursor)} {e₁ e' : Except Diagnostic (β × Cursor)}
    (hT : T.SameResult (fun x x' => A x.1 x'.1 ∧ T.Facing x.2 x'.2) e e₁) (hB : B.Outcome e₁ e') :
    Carried T B A e e' := by
  cases hT with
  | @failed d d₁ _ hfault =>
    cases hB with
    | refused h => exact .refused h
    | wants h =>
      refine .wants ?_
      generalize d.fault = fault at hfault ⊢
      generalize d₁.fault = fault₁ at hfault h
      cases hfault with
      | refl => exact h
      | redefined => cases h
  | @ok x x₁ hx =>
    obtain ⟨a, c⟩ := x
    cases hB with
    | same h => exact .same hx.1 ⟨_, hx.2, h⟩

/-- What is refused by itself, but not for want of more, is refused in its place. -/
theorem Carried.exists_error {d : Diagnostic}
    {e : Except Diagnostic (α × Cursor)} {e' : Except Diagnostic (β × Cursor)}
    (h : Carried T B A e e') (he : e = .error d) (hcomplete : Complete e) :
    ∃ d', e' = .error d' ∧ d'.fault.wantsMore = false := by
  cases h with
  | same => cases he
  | refused h => exact ⟨_, rfl, h⟩
  | wants h => exact absurd h (by rw [hcomplete _ rfl]; exact Bool.false_ne_true)

/-- The rounds over a part by itself are the rounds in its place. -/
theorem Reader.Rounds.placed {σ : Type} {step : σ → Reader (Round σ α)} {I : σ → σ → Prop}
    {J : α → α → Prop} {s s' s₁ : σ} {c c₁ c' : Cursor} (hproductive : Reader.Productive step)
    (hextends : ∀ s, Reader.ExtendsInside B (step s) (step s))
    (hagrees : ∀ s s', I s s' → Reader.Agrees T (Reader.SameRound I J) (step s) (step s'))
    (h : Reader.Rounds step s c s₁ c₁) (hs : I s s') (hc : Placed T B c c') :
    ∃ s₁' c₁', Reader.Rounds step s' c' s₁' c₁' ∧ I s₁ s₁' ∧ Placed T B c₁ c₁' := by
  obtain ⟨mid, hfacing, hbeside⟩ := hc
  obtain ⟨s₁', mid₁, hrounds, hs₁, hfacing₁⟩ := h.agrees hagrees hs hfacing
  obtain ⟨c₁', hrounds', hbeside₁⟩ := hrounds.extends hproductive hextends hbeside
  exact ⟨s₁', c₁', hrounds', hs₁, mid₁, hfacing₁, hbeside₁⟩

/-- A cursor in front of rows, with everything that has been passed above them. -/
structure Cursor.AtRows (line : Nat) (ss : List Token.Stream) (c : Cursor) : Prop where
  rows : Token.Rows line ss c.rest
  above : ∀ l, c.lastLine? = some l → l < line
  stop : c.stop.kind = .eof

theorem Cursor.AtRows.rest_eq_nil {line : Nat} {c : Cursor} (h : c.AtRows line []) : c.rest = [] := by
  have hrows := h.rows
  generalize c.rest = ts at hrows
  cases hrows
  rfl

/-- The part `s` has its place ahead of `c`, in front of the parts `ss`: nothing is shown in another way
there, and every token stands in the same column. -/
structure IsPlace (T : Twins) (B : Border) (s : Token.Stream) (ss : List Token.Stream) (c : Cursor) :
    Prop where
  placed : Placed T B s.start c
  strict : ∀ x, ¬ T.Loose x
  column : ∀ p p', T.Moves p p' → p'.column = p.column
  behind : Token.Rows B.line ss B.behind

/-- At the end of a part the others are ahead. -/
theorem IsPlace.atRows {s : Token.Stream} {ss : List Token.Stream} {c c₁ c₁' : Cursor}
    (h : IsPlace T B s ss c) (hc : Placed T B c₁ c₁') (hend : c₁.rest = []) :
    c₁'.AtRows B.line ss := by
  obtain ⟨mid, hfacing, hbeside⟩ := hc
  have hmid := hfacing.rest
  rw [hend] at hmid
  have hrest : c₁'.rest = B.behind := by
    rw [hbeside.rest, List.forall₂_nil_left_iff.mp hmid, List.nil_append]
  exact ⟨hrest ▸ h.behind, hbeside.above.1, hbeside.stop' ▸ B.eof'⟩

/-- **The first part of a row has a place.** -/
theorem exists_isPlace {line : Nat} {s : Token.Stream} {ss : List Token.Stream} {c : Cursor}
    (hc : c.AtRows line (s :: ss)) (hs : s.stop.kind = .eof) (hss : ∀ s ∈ ss, s.StartsPart) :
    ∃ T B, IsPlace T B s ss c := by
  obtain ⟨last?, rest, stop⟩ := c
  obtain ⟨hrows, habove, hstop⟩ := hc
  dsimp only at hrows habove hstop
  cases hrows with
  | @cons _ next lines _ _ ts us h hlines hle hrest =>
    have hnext : ∀ l, last? = some l → l < next := fun l hl => Nat.lt_of_lt_of_le (habove l hl) hle
    have hlowered : (s.stop.lower 0 lines).kind = .eof := hs
    refine ⟨h.twins hs, hrest.border hss hlowered hstop,
      ⟨⟨none, ts, s.stop.lower 0 lines⟩, ?_, ?_⟩, fun _ h => h, fun _ _ h => h, hrest⟩
    · exact ⟨(h.twins hs).tokens, List.suffix_rfl, List.suffix_rfl, rfl, rfl, rfl⟩
    · refine ⟨rfl, rfl, rfl, .inr ⟨rfl, fun t ht hlast => ?_⟩, hnext, fun t ht => (hlines t ht).2⟩
      exact absurd (habove t.line hlast) (Nat.not_lt.mpr (hlines t ht).1)

end IrRecords
