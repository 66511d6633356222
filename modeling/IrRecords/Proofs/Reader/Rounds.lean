import IrRecords.Proofs.Reader.Agrees
import IrRecords.Proofs.Reader.Borders
import IrRecords.Proofs.Reader.Takes

/-!
# Loops round by round

A loop of a reader is bounded, and the bound is no concern of what is read: as every round but the last
passes a token (`Productive`), the loop takes as many rounds as it needs. So a loop is its rounds, in a
row (`Rounds.iterate_eq`), and the row can be cut where the text is cut: the rounds of a part by itself
are rounds of the loop over a text that the part stands in (`Rounds.extends`), and the rounds of a loop
over one text correspond to those over another text with the same tokens (`Rounds.agrees`).
-/

namespace IrRecords.Reader

variable {α σ σ' : Type} {step : σ → Reader (Round σ α)} {step' : σ' → Reader (Round σ' α)}
  {s s₁ s₂ : σ} {s' : σ'} {c c₁ c₂ c' later : Cursor} {a : α} {d : Diagnostic}

/-- Every round that is not the last one passes a token. -/
def Productive (step : σ → Reader (Round σ α)) : Prop :=
  ∀ s, (step s).Passes fun round ts => ∀ s₁, round = .again s₁ → ts ≠ []

/-- Some rounds, none of which is the last one, lead from one state and cursor to another. -/
inductive Rounds (step : σ → Reader (Round σ α)) : σ → Cursor → σ → Cursor → Prop
  | refl (s : σ) (c : Cursor) : Rounds step s c s c
  | again {s s₁ s₂ : σ} {c c₁ c₂ : Cursor} (h : step s c = .ok (.again s₁, c₁))
      (hrest : Rounds step s₁ c₁ s₂ c₂) : Rounds step s c s₂ c₂

theorem Rounds.trans (h : Rounds step s c s₁ c₁) (h' : Rounds step s₁ c₁ s₂ c₂) :
    Rounds step s c s₂ c₂ := by
  induction h with
  | refl s c => exact h'
  | again h _ ih => exact .again h (ih h')

/-- A round that is not the last one leaves less to read. -/
theorem Productive.remaining_lt (hstep : Productive step) (hc : c.stop.kind = .eof)
    (h : step s c = .ok (.again s₁, c₁)) : c₁.remaining < c.remaining ∧ c₁.stop.kind = .eof := by
  obtain ⟨ts, hts, hne⟩ := hstep s c hc _ _ h
  have hlength := congrArg List.length hts.rest
  rw [List.length_append] at hlength
  have hpos := List.length_pos_iff.mpr (hne s₁ rfl)
  rw [Cursor.remaining, Cursor.remaining, hts.stop]
  exact ⟨by omega, hc⟩

/-- A round that is not the last one starts in front of a token. -/
theorem Productive.rest_ne_nil (hstep : Productive step) (hc : c.stop.kind = .eof)
    (h : step s c = .ok (.again s₁, c₁)) : c.rest ≠ [] := by
  have hlt := (hstep.remaining_lt hc h).1
  exact List.ne_nil_of_length_pos (Nat.lt_of_le_of_lt (Nat.zero_le _) hlt)

/-- Rounds go forward. -/
theorem Rounds.exists_reaches (h : Rounds step s c s₁ c₁) (hstep : Productive step)
    (hc : c.stop.kind = .eof) : ∃ ts, c.Reaches ts c₁ := by
  induction h with
  | refl s c => exact ⟨[], .refl c⟩
  | @again s s₁ s₂ c c₁ c₂ h _ ih =>
    obtain ⟨ts, hts, _⟩ := hstep s c hc _ _ h
    obtain ⟨us, hus⟩ := ih (hts.stop ▸ hc)
    exact ⟨ts ++ us, hts.trans hus⟩

/-- All bounds that are long enough are as good as any other. -/
theorem iterateFor_eq_of_productive (hstep : Productive step) {bound bound' : List Token}
    (hc : c.stop.kind = .eof) (hbound : c.remaining < bound.length)
    (hbound' : c.remaining < bound'.length) : iterateFor step bound s c = iterateFor step bound' s c := by
  induction bound generalizing bound' s c with
  | nil => cases hbound
  | cons t bound ih =>
    cases bound' with
    | nil => cases hbound'
    | cons t' bound' =>
      rw [iterateFor, iterateFor]
      cases hround : step s c with
      | error d => simp only [Bind.bind, StateT.bind, hround, Except.bind]
      | ok result =>
        obtain ⟨round, c₁⟩ := result
        rw [bind_of_ok hround, bind_of_ok hround]
        cases round with
        | done a => rfl
        | again s₁ =>
          obtain ⟨hlt, hc₁⟩ := hstep.remaining_lt hc hround
          exact ih hc₁ (Nat.lt_of_lt_of_le hlt (Nat.le_of_lt_succ hbound))
            (Nat.lt_of_lt_of_le hlt (Nat.le_of_lt_succ hbound'))

/-- **The loop is its rounds**: it goes on behind some rounds as if it were started there. -/
theorem Rounds.iterate_eq (h : Rounds step s c s₁ c₁) (hstep : Productive step)
    (hc : c.stop.kind = .eof) : iterate step s c = iterate step s₁ c₁ := by
  induction h with
  | refl s c => rfl
  | @again s s₁ s₂ c c₁ c₂ h _ ih =>
    obtain ⟨hlt, hc₁⟩ := hstep.remaining_lt hc h
    rw [← ih hc₁, iterate, Cursor.bound, iterateFor, bind_of_ok h]
    exact iterateFor_eq_of_productive hstep hc₁ hlt (Nat.lt_succ_self _)

theorem iterate_of_error (h : step s c = .error d) : iterate step s c = .error d := by
  rw [iterate, Cursor.bound, iterateFor]
  simp only [Bind.bind, StateT.bind, h, Except.bind]

/-- Every loop comes to an end or to a failure. -/
theorem exists_last_round (hstep : Productive step) (s : σ) (hc : c.stop.kind = .eof) :
    ∃ s₁ c₁, Rounds step s c s₁ c₁ ∧ c₁.stop.kind = .eof
      ∧ ((∃ d, step s₁ c₁ = .error d) ∨ ∃ a later, step s₁ c₁ = .ok (.done a, later)) := by
  induction hn : c.remaining using Nat.strong_induction_on generalizing s c with
  | _ n ih =>
    cases hround : step s c with
    | error d => exact ⟨s, c, .refl s c, hc, .inl ⟨d, hround⟩⟩
    | ok result =>
      obtain ⟨round, c₁⟩ := result
      cases round with
      | done a => exact ⟨s, c, .refl s c, hc, .inr ⟨a, c₁, hround⟩⟩
      | again s₁ =>
        obtain ⟨hlt, hc₁⟩ := hstep.remaining_lt hc hround
        obtain ⟨s₂, c₂, hrounds, hlast⟩ := ih _ (hn ▸ hlt) s₁ hc₁ rfl
        exact ⟨s₂, c₂, .again hround hrounds, hlast⟩

/-- **A loop that comes to an end** does so in a last round. -/
theorem exists_rounds_of_iterate (hstep : Productive step) (hc : c.stop.kind = .eof)
    (h : iterate step s c = .ok (a, later)) :
    ∃ s₁ c₁, Rounds step s c s₁ c₁ ∧ step s₁ c₁ = .ok (.done a, later) := by
  obtain ⟨s₁, c₁, hrounds, _, hlast⟩ := exists_last_round hstep s hc
  rw [hrounds.iterate_eq hstep hc] at h
  rcases hlast with ⟨d, herror⟩ | ⟨b, c₂, hdone⟩
  · rw [iterate_of_error herror] at h
    cases h
  · rw [iterate, Cursor.bound, iterateFor, bind_of_ok hdone] at h
    cases h
    exact ⟨s₁, c₁, hrounds, hdone⟩

/-- The rounds over a part by itself are rounds over the text that it stands in. -/
theorem Rounds.extends {B : Border} (hstep : Productive step)
    (hextends : ∀ s, ExtendsInside B (step s) (step s)) (h : Rounds step s c s₁ c₁)
    (hc : B.Beside c c') : ∃ c₁', Rounds step s c' s₁ c₁' ∧ B.Beside c₁ c₁' := by
  induction h generalizing c' with
  | refl s c => exact ⟨c', .refl s c', hc⟩
  | @again s s₁ s₂ c c₁ c₂ h _ ih =>
    have houtcome := hextends s c c' hc (hstep.rest_ne_nil hc.eof h)
    rw [h] at houtcome
    generalize hround : step s c' = e at houtcome
    cases houtcome with
    | same hc₁ =>
      obtain ⟨c₂', hrounds, hc₂⟩ := ih hc₁
      exact ⟨c₂', .again hround hrounds, hc₂⟩

/-- The rounds over one text correspond to those over another one with the same tokens. -/
theorem Rounds.agrees {T : Twins} {I : σ → σ' → Prop} {J : α → α → Prop}
    (hstep : ∀ s s', I s s' → Agrees T (SameRound I J) (step s) (step' s'))
    (h : Rounds step s c s₁ c₁) (hs : I s s') (hc : T.Facing c c') :
    ∃ s₁' c₁', Rounds step' s' c' s₁' c₁' ∧ I s₁ s₁' ∧ T.Facing c₁ c₁' := by
  induction h generalizing s' c' with
  | refl s c => exact ⟨s', c', .refl s' c', hs, hc⟩
  | @again s s₁ s₂ c c₁ c₂ h _ ih =>
    have hresult := hstep s s' hs c c' hc
    rw [h] at hresult
    generalize hround : step' s' c' = e at hresult
    cases hresult with
    | @ok _ x' hx =>
      obtain ⟨round', c₁'⟩ := x'
      obtain ⟨hsame, hc₁⟩ := hx
      cases hsame with
      | again hs₁ =>
        obtain ⟨s₂', c₂', hrounds, hs₂, hc₂⟩ := ih hs₁ hc₁
        exact ⟨s₂', c₂', .again hround hrounds, hs₂, hc₂⟩

end IrRecords.Reader
