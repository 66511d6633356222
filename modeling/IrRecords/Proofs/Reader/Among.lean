import IrRecords.Proofs.Reader.Ledger

/-!
# What readers answer on texts of some kinds of tokens

`Reader.Yields` is about the answers of a reader whatever it reads. Some answers depend on what the
text holds: a word that does not occur in it names nothing. `Reader.YieldsAmong` is the judgement
for this. It assumes that all tokens ahead are of some kinds and says of the answer what
`Reader.Yields` says. Moving on leaves fewer tokens ahead, so the assumption is handed on from
reader to reader, and a reader whose answer does not matter only has to go forward.
-/

namespace IrRecords

/-- Every token ahead is of one of the kinds `K`, and so is the end of the text. -/
structure Cursor.AllAhead (K : TokenKind → Prop) (c : Cursor) : Prop where
  rest : ∀ t ∈ c.rest, K t.kind
  stop : c.stop.kind = .eof
  eof : K .eof

namespace Cursor.AllAhead

variable {K : TokenKind → Prop} {c c' : Cursor}

theorem lookahead (h : c.AllAhead K) (n : Nat) : K (c.lookahead n).kind := by
  rw [Cursor.lookahead]
  cases hrest : c.rest.drop n with
  | nil =>
    rw [List.headD_nil, h.stop]
    exact h.eof
  | cons t ts => exact h.rest t (List.mem_of_mem_drop (hrest ▸ List.mem_cons_self))

theorem current (h : c.AllAhead K) : K c.current.kind := by
  have hfirst := h.lookahead 0
  rwa [Cursor.lookahead, List.drop_zero] at hfirst

theorem of_reaches {ts : List Token} (h : c.AllAhead K) (hreaches : c.Reaches ts c') :
    c'.AllAhead K where
  rest t ht := h.rest t (hreaches.rest ▸ List.mem_append_right ts ht)
  stop := hreaches.stop ▸ h.stop
  eof := h.eof

/-- At the end of the text moving on goes nowhere. -/
theorem advance (h : c.AllAhead K) : c.advance.AllAhead K := by
  rw [Cursor.advance]
  split
  · exact h
  · next t rest hrest =>
    exact ⟨fun u hu => h.rest u (hrest ▸ List.mem_cons_of_mem t hu), h.stop, h.eof⟩

end Cursor.AllAhead

namespace Reader

variable {α β σ : Type} {K : TokenKind → Prop} {P P' : α → Prop} {Q : β → Prop}

/-- Every answer of `r` satisfies `P` if all tokens ahead are of the kinds `K`, and the tokens that
are then ahead are so as well. -/
def YieldsAmong (K : TokenKind → Prop) (r : Reader α) (P : α → Prop) : Prop :=
  ∀ c a c', c.AllAhead K → r c = .ok (a, c') → P a ∧ c'.AllAhead K

/-- Whenever the reader succeeds it has gone forward. -/
def GoesForward (r : Reader α) : Prop := r.Passes fun _ _ => True

theorem Neutral.goesForward {r : Reader α} (hr : Neutral r) : r.GoesForward :=
  fun c => hr.passes c

theorem goesForward_skipWhile (p : Token → Bool) : (skipWhile p).GoesForward :=
  fun _ => .skipWhile fun _ _ => trivial

theorem goesForward_skipLine : skipLine.GoesForward := by
  intro c _ a later h
  cases h
  exact ⟨_, c.reaches_advanceWhile _, trivial⟩

theorem goesForward_skipRestOfLine : skipRestOfLine.GoesForward :=
  fun _ => passesFrom_skipRestOfLine.mono fun _ _ _ => trivial

/-! ## Sequencing -/

/-- The rule for sequencing: the continuation may rely on what is known of the first answer. -/
theorem YieldsAmong.bind {r : Reader α} {f : α → Reader β} (hr : r.YieldsAmong K P)
    (hf : ∀ a, P a → (f a).YieldsAmong K Q) : YieldsAmong K (r >>= f) Q := by
  intro c b c' hc h
  obtain ⟨a, c₁, h₁, h₂⟩ := bind_eq_ok_iff.mp h
  obtain ⟨ha, hc₁⟩ := hr c a c₁ hc h₁
  exact hf a ha c₁ b c' hc₁ h₂

/-- A reader that goes forward keeps the assumption about the tokens ahead. -/
theorem GoesForward.among_yields {r : Reader α} (hr : r.GoesForward) (hP : r.Yields P) :
    r.YieldsAmong K P := by
  intro c a c' hc h
  obtain ⟨ts, hts, _⟩ := hr c hc.stop a c' h
  exact ⟨hP c a c' h, hc.of_reaches hts⟩

/-- The rule for sequencing after a reader whose answer does not matter. -/
theorem YieldsAmong.skip {r : Reader α} {f : α → Reader β} (hr : r.GoesForward)
    (hf : ∀ a, (f a).YieldsAmong K Q) : YieldsAmong K (r >>= f) Q :=
  (hr.among_yields (P := fun _ => True) fun _ _ _ _ => trivial).bind fun a _ => hf a

theorem YieldsAmong.pure {a : α} (h : P a) : YieldsAmong K (Pure.pure a) P := by
  intro c b c' hc hb
  cases hb
  exact ⟨h, hc⟩

theorem YieldsAmong.mono {r : Reader α} (hr : r.YieldsAmong K P) (h : ∀ a, P a → P' a) :
    r.YieldsAmong K P' :=
  fun c a c' hc hread => (hr c a c' hc hread).imp (h a) id

theorem YieldsAmong.failAt {p : Position} {fault : Fault} :
    (failAt p fault : Reader α).YieldsAmong K P := by
  intro c a c' _ h
  simp [Reader.failAt] at h

theorem YieldsAmong.unexpected {what : String} :
    (unexpected what : Reader α).YieldsAmong K P := by
  intro c a c' _ h
  simp [Reader.unexpected] at h

/-- A computation that reads nothing answers what it computes. -/
theorem YieldsAmong.lift {e : Except Diagnostic α} (h : ∀ a, e = .ok a → P a) :
    YieldsAmong K (liftM e : Reader α) P := by
  intro c a c' hc hread
  cases e with
  | error d => cases hread
  | ok b =>
    cases hread
    exact ⟨h _ rfl, hc⟩

/-! ## Looking and moving on -/

/-- What is seen is of the kinds there are. -/
theorem YieldsAmong.kind {f : TokenKind → Reader β} (h : ∀ k, K k → (f k).YieldsAmong K Q) :
    YieldsAmong K (Reader.kind >>= f) Q :=
  fun c b c' hc hread => h c.current.kind hc.current c b c' hc hread

theorem YieldsAmong.nextKind {f : TokenKind → Reader β} (h : ∀ k, (f k).YieldsAmong K Q) :
    YieldsAmong K (Reader.nextKind >>= f) Q :=
  fun c b c' hc hread => h _ c b c' hc hread

theorem YieldsAmong.current {f : Token → Reader β} (h : ∀ t, (f t).YieldsAmong K Q) :
    YieldsAmong K (Reader.current >>= f) Q :=
  fun c b c' hc hread => h _ c b c' hc hread

theorem YieldsAmong.position {f : Position → Reader β} (h : ∀ p, (f p).YieldsAmong K Q) :
    YieldsAmong K (Reader.position >>= f) Q :=
  fun c b c' hc hread => h _ c b c' hc hread

theorem YieldsAmong.isAt {k : TokenKind} {f : Bool → Reader β} (h : ∀ b, (f b).YieldsAmong K Q) :
    YieldsAmong K (Reader.isAt k >>= f) Q :=
  fun c b c' hc hread => h _ c b c' hc hread

theorem YieldsAmong.get {f : Cursor → Reader β} (h : ∀ c, (f c).YieldsAmong K Q) :
    YieldsAmong K (MonadState.get >>= f) Q :=
  fun c b c' hc hread => h c c b c' hc hread

theorem YieldsAmong.advance {f : Unit → Reader β} (h : (f ()).YieldsAmong K Q) :
    YieldsAmong K (Reader.advance >>= f) Q :=
  fun c b c' hc hread => h c.advance b c' hc.advance hread

/-- A token that is expected is passed. -/
theorem YieldsAmong.expect {k : TokenKind} {what : String} {f : Unit → Reader β} (hk : k ≠ .eof)
    (h : ∀ u, (f u).YieldsAmong K Q) : YieldsAmong K (Reader.expect k what >>= f) Q :=
  .skip (fun _ => (passesFrom_expect hk what).mono fun _ _ _ => trivial) h

/-- A token that may be there is passed if it is. -/
theorem YieldsAmong.accept {k : TokenKind} {f : Bool → Reader β} (hk : k ≠ .eof)
    (h : ∀ b, (f b).YieldsAmong K Q) : YieldsAmong K (Reader.accept k >>= f) Q := by
  refine .skip (fun c => .isAt ?_) h
  by_cases hc : (c.current.kind == k) = true
  · rw [if_pos hc]
    rw [beq_iff_eq] at hc
    exact .advance (hc ▸ hk) fun _ _ => .pure trivial
  · rw [if_neg hc]
    exact .pure trivial

/-! ## Loops -/

/-- The invariant rule. -/
theorem YieldsAmong.iterate {I : σ → Prop} {step : σ → Reader (Round σ α)} {state : σ}
    (hstep : ∀ s, I s → (step s).YieldsAmong K (RoundSatisfies I P)) (hs : I state) :
    (Reader.iterate step state).YieldsAmong K P := by
  have loop : ∀ (bound : List Token) (s : σ), I s → (iterateFor step bound s).YieldsAmong K P := by
    intro bound
    induction bound with
    | nil => intro s _ c a c' _ h; simp [iterateFor] at h
    | cons t bound ih =>
      intro s hI
      refine (hstep s hI).bind fun round hround => ?_
      cases round with
      | again s' => exact ih s' hround
      | done a => exact .pure hround
  exact fun c a c' hc h => loop c.bound state hs c a c' hc h

/-- A separated list of items consists of items. -/
theorem YieldsAmong.commaSeparated {item : Reader α} (hitem : item.YieldsAmong K P) :
    (Reader.commaSeparated item).YieldsAmong K fun items => ∀ a ∈ items, P a := by
  refine YieldsAmong.bind (P := fun items : Array α => ∀ a ∈ items, P a) ?_ fun items hitems => ?_
  · refine .iterate (I := fun items : Array α => ∀ a ∈ items, P a) (fun items hI => ?_) (by simp)
    refine hitem.bind fun a ha => .accept TokenKind.noConfusion fun more => ?_
    cases more with
    | true => exact .pure (Array.forall_mem_push.mpr ⟨ha, hI⟩)
    | false => exact .pure (Array.forall_mem_push.mpr ⟨ha, hI⟩)
  · exact .pure fun a ha => hitems a (by simpa using ha)

end Reader

end IrRecords
