import IrRecords.Token.Reader

/-!
# What readers answer

A reader moves a cursor and answers a value. Much of what is true of a function that has been read
does not depend on the text it came from, only on the values that its readers answer: the type of
an instruction, the kinds of its operands. `Reader.Yields` is the judgement for this. It says that
whenever the reader succeeds, its answer satisfies a postcondition, and it composes along `>>=`, so
that the specification of a reader follows its text line by line.

What a reader passes and where it stops is no part of the judgement.
-/

namespace IrRecords.Reader

variable {α β σ : Type} {P : α → Prop} {Q : β → Prop}

/-- Every answer of `r` satisfies `P`, whatever the tokens ahead are. -/
def Yields (r : Reader α) (P : α → Prop) : Prop :=
  ∀ c a c', r c = .ok (a, c') → P a

/-! ## Sequencing -/

/-- A computation that goes on after a reader runs both, the second from where the first one
stopped. -/
theorem bind_eq_ok_iff {r : Reader α} {f : α → Reader β} {c c' : Cursor} {b : β} :
    (r >>= f) c = .ok (b, c') ↔ ∃ a c₁, r c = .ok (a, c₁) ∧ f a c₁ = .ok (b, c') := by
  simp only [Bind.bind, StateT.bind]
  cases hr : r c with
  | error d => simp [Except.bind]
  | ok ac =>
    obtain ⟨a, c₁⟩ := ac
    refine ⟨fun h => ⟨a, c₁, rfl, h⟩, ?_⟩
    rintro ⟨a', c₁', ha, h⟩
    simp only [Except.ok.injEq, Prod.mk.injEq] at ha
    obtain ⟨rfl, rfl⟩ := ha
    exact h

/-- What is no reader by itself leaves the cursor where it is. -/
theorem lift_eq_ok_iff {e : Except Diagnostic α} {c c' : Cursor} {a : α} :
    (liftM e : Reader α) c = .ok (a, c') ↔ e = .ok a ∧ c' = c := by
  cases e with
  | error d => exact iff_of_false (fun h => nomatch h) fun h => nomatch h.1
  | ok b =>
    constructor
    · intro h
      cases h
      exact ⟨rfl, rfl⟩
    · rintro ⟨⟨⟩, rfl⟩
      rfl

/-- Where the first reader is known to succeed, the second goes on from where it stopped. -/
theorem bind_of_ok {r : Reader α} {f : α → Reader β} {c c₁ : Cursor} {a : α}
    (h : r c = .ok (a, c₁)) : (r >>= f) c = f a c₁ := by
  simp only [Bind.bind, StateT.bind, h, Except.bind]

/-- The rule for sequencing: the continuation may rely on what is known of the first answer. -/
theorem Yields.bind {r : Reader α} {f : α → Reader β} (hr : r.Yields P)
    (hf : ∀ a, P a → (f a).Yields Q) : Yields (r >>= f) Q := by
  intro c b c' h
  obtain ⟨a, c₁, h₁, h₂⟩ := bind_eq_ok_iff.mp h
  exact hf a (hr c a c₁ h₁) c₁ b c' h₂

/-- The rule for sequencing after a reader whose answer does not matter. -/
theorem Yields.skip {r : Reader α} {f : α → Reader β} (hf : ∀ a, (f a).Yields Q) :
    Yields (r >>= f) Q := by
  intro c b c' h
  obtain ⟨a, c₁, _, h₂⟩ := bind_eq_ok_iff.mp h
  exact hf a c₁ b c' h₂

theorem Yields.pure {a : α} (h : P a) : Yields (Pure.pure a) P := by
  intro c b c' hb
  cases hb
  exact h

theorem Yields.mono {r : Reader α} {P' : α → Prop} (hr : r.Yields P) (h : ∀ a, P a → P' a) :
    r.Yields P' :=
  fun c a c' hc => h a (hr c a c' hc)

/-- Nothing is asked of a reader that cannot succeed. -/
theorem Yields.failAt {p : Position} {fault : Fault} : (failAt p fault : Reader α).Yields P := by
  intro c a c' h
  simp [Reader.failAt] at h

theorem Yields.unexpected {what : String} : (unexpected what : Reader α).Yields P := by
  intro c a c' h
  simp [Reader.unexpected] at h

/-- A computation that reads nothing answers what it computes. -/
theorem Yields.lift {e : Except Diagnostic α} (h : ∀ a, e = .ok a → P a) :
    Yields (liftM e : Reader α) P := by
  intro c a c' hc
  cases e with
  | error d => cases hc
  | ok b =>
    cases hc
    exact h _ rfl

/-! ## Loops -/

/-- What a round of a loop comes to, if `I` holds of the states between rounds and `P` of the
result. -/
def RoundSatisfies (I : σ → Prop) (P : α → Prop) : Round σ α → Prop
  | .again state => I state
  | .done result => P result

/-- The invariant rule: what every round keeps, the loop keeps, however many rounds it takes. -/
theorem Yields.iterate {I : σ → Prop} {step : σ → Reader (Round σ α)} {state : σ}
    (hstep : ∀ s, I s → (step s).Yields (RoundSatisfies I P)) (hs : I state) :
    (Reader.iterate step state).Yields P := by
  have loop : ∀ (bound : List Token) (s : σ), I s → (iterateFor step bound s).Yields P := by
    intro bound
    induction bound with
    | nil => intro s _ c a c' h; simp [iterateFor] at h
    | cons t bound ih =>
      intro s hI
      refine (hstep s hI).bind fun round hround => ?_
      cases round with
      | again s' => exact ih s' hround
      | done a => exact .pure hround
  exact fun c a c' h => loop c.bound state hs c a c' h

/-- A separated list of items consists of items. -/
theorem Yields.commaSeparated {item : Reader α} (hitem : item.Yields P) :
    (Reader.commaSeparated item).Yields fun items => ∀ a ∈ items, P a := by
  refine Yields.bind (P := fun items : Array α => ∀ a ∈ items, P a) ?_ fun items hitems => ?_
  · refine Yields.iterate (I := fun items : Array α => ∀ a ∈ items, P a) (fun items hI => ?_)
      (by simp)
    refine hitem.bind fun a ha => ?_
    have hpush : ∀ b ∈ items.push a, P b := by
      intro b hb
      rcases Array.mem_push.mp hb with hb | rfl
      · exact hI b hb
      · exact ha
    refine .skip fun more => ?_
    by_cases hm : more = true
    · rw [if_pos hm]; exact .pure hpush
    · rw [if_neg hm]; exact .pure hpush
  · exact .pure fun a ha => hitems a (by simpa using ha)

end IrRecords.Reader
