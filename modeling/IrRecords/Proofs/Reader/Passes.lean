import IrRecords.Proofs.Reader.Yields
import IrRecords.Proofs.Token.Rows
import Mathlib.Data.List.TakeWhile

/-!
# What readers pass

`Reader.Yields` is about the answers of readers, `Reader.Passes` about the tokens between the cursor
that a reader starts from and the cursor that it leaves: whenever the reader succeeds, it has gone
forward over a row of tokens, and this row and the answer are related by a postcondition. So what
has been read can be compared with the text that it was read from.

A reader often looks at a token first and passes it later. The judgement is therefore told for one
cursor at a time (`PassesFrom`), and looking is only a step that names what is seen.

All of this is about texts with an end: moving on at the last token would pass nothing, and readers
that look for the end of the text never do that.
-/

namespace IrRecords

/-! ## Going forward -/

namespace Cursor

/-- The tokens `ts` lie between `c` and the cursor `later`. -/
structure Reaches (c : Cursor) (ts : List Token) (later : Cursor) : Prop where
  rest : c.rest = ts ++ later.rest
  stop : later.stop = c.stop
  lastLine? : later.lastLine? = (ts.getLast?.map Token.line).or c.lastLine?

variable {c c₁ c₂ : Cursor} {t : Token} {ts us : List Token} {p : Token → Bool}

theorem Reaches.refl (c : Cursor) : c.Reaches [] c := ⟨rfl, rfl, rfl⟩

theorem Reaches.trans (h : c.Reaches ts c₁) (h' : c₁.Reaches us c₂) : c.Reaches (ts ++ us) c₂ := by
  refine ⟨?_, h'.stop.trans h.stop, ?_⟩
  · rw [h.rest, h'.rest, List.append_assoc]
  · rw [h'.lastLine?, h.lastLine?, List.getLast?_append, Option.map_or, Option.or_assoc]

/-- The row between two cursors is what `tokensUpTo` answers. -/
theorem Reaches.tokensUpTo_eq (h : c.Reaches ts c₁) : c.tokensUpTo c₁ = ts := by
  have hlength := congrArg List.length h.rest
  rw [List.length_append] at hlength
  rw [tokensUpTo, remaining, remaining, hlength, Nat.add_sub_cancel, h.rest, List.take_left]

/-- Where the text has not ended there is a token ahead. -/
theorem exists_rest (hstop : c.stop.kind = .eof) (hc : c.current.kind ≠ .eof) :
    c.rest = c.current :: c.advance.rest := by
  cases hrest : c.rest with
  | nil =>
    rw [current, hrest] at hc
    exact absurd hstop hc
  | cons t rest => rw [current, advance, hrest]; rfl

theorem rest_ne_nil_of_kind (hstop : c.stop.kind = .eof) (hc : c.current.kind ≠ .eof) :
    c.rest ≠ [] := by
  rw [exists_rest hstop hc]
  exact List.cons_ne_nil _ _

theorem reaches_advance (hstop : c.stop.kind = .eof) (hc : c.current.kind ≠ .eof) :
    c.Reaches [c.current] c.advance := by
  have hrest := exists_rest hstop hc
  refine ⟨hrest, ?_, ?_⟩
  · rw [advance, hrest]
  · rw [advance, hrest]
    rfl

/-- Behind the token ahead, what was seen behind it is ahead. -/
theorem current_advance (hstop : c.stop.kind = .eof) (hc : c.current.kind ≠ .eof) :
    c.advance.current = c.lookahead 1 := by
  rw [lookahead, exists_rest hstop hc, current, (reaches_advance hstop hc).stop]
  rfl

/-- The tokens that satisfy the test are passed, up to the first that does not. -/
theorem advanceWhileIn_eq (p : Token → Bool) (c : Cursor) (ts : List Token) :
    advanceWhileIn p c ts = ⟨((ts.takeWhile p).getLast?.map Token.line).or c.lastLine?,
      ts.dropWhile p, c.stop⟩ := by
  induction ts generalizing c with
  | nil => rfl
  | cons t ts ih =>
    rw [advanceWhileIn]
    by_cases ht : p t = true
    · rw [if_pos ht, ih, List.takeWhile_cons_of_pos ht, List.dropWhile_cons_of_pos ht,
        List.getLast?_cons]
      cases (ts.takeWhile p).getLast? <;> rfl
    · rw [if_neg ht, List.takeWhile_cons_of_neg ht, List.dropWhile_cons_of_neg ht]
      rfl

theorem reaches_advanceWhile (c : Cursor) (p : Token → Bool) :
    c.Reaches (c.rest.takeWhile p) (c.advanceWhile p) := by
  rw [advanceWhile, advanceWhileIn_eq]
  exact ⟨List.takeWhile_append_dropWhile.symm, rfl, rfl⟩

theorem line_of_mem_takeWhile {line : Nat} (h : t ∈ ts.takeWhile (·.line == line)) :
    t.line = line := by
  have ht := List.mem_takeWhile_imp h
  exact eq_of_beq ht

/-- The rest of a line is on the line of the last token that was passed. -/
theorem reaches_skipRestOfLine (c : Cursor) : ∃ ts, c.Reaches ts c.skipRestOfLine
    ∧ ∀ t ∈ ts, c.lastLine? = some t.line := by
  rw [skipRestOfLine]
  cases hlast : c.lastLine? with
  | none => exact ⟨[], .refl c, by simp⟩
  | some line =>
    refine ⟨_, reaches_advanceWhile c _, fun t ht => ?_⟩
    rw [line_of_mem_takeWhile ht]

/-- A line is passed from the token ahead on. -/
theorem reaches_skipLine (c : Cursor) (hstop : c.stop.kind = .eof) (hc : c.current.kind ≠ .eof) :
    ∃ ts, c.Reaches (c.current :: ts) c.skipLine ∧ ∀ t ∈ ts, t.line = c.current.line := by
  have h := reaches_advanceWhile c (·.line == c.current.line)
  have hfirst : (c.current.line == c.current.line) = true := beq_iff_eq.mpr rfl
  rw [exists_rest hstop hc, List.takeWhile_cons, if_pos hfirst] at h
  exact ⟨_, h, fun t ht => line_of_mem_takeWhile ht⟩

/-- A bracketed group leaves the brackets as they were. -/
theorem skipBrackets_spec {S : List Bracket} {later : Cursor} (hts : c.rest = ts)
    (hS : S ≠ [] ∨ ∀ t, ts.head? = some t → t.kind.isQuiet = true)
    (h : skipBrackets S c ts = some later) :
    ∃ us, c.Reaches us later ∧ us ≠ [] ∧ Token.Quiet S us [] := by
  induction ts generalizing c S with
  | nil => rw [skipBrackets] at h; cases h
  | cons t ts ih =>
    have hfirst : c.Reaches [t] { c with lastLine? := some t.line, rest := ts } := ⟨hts, rfl, rfl⟩
    have ht : S ≠ [] ∨ t.kind.isQuiet = true := hS.imp_right fun h => h t rfl
    rw [skipBrackets] at h
    cases hafter : bracketsAfter S t with
    | nil =>
      rw [hafter, Option.some.injEq] at h
      subst h
      exact ⟨[t], hfirst, List.cons_ne_nil _ _, .cons ht (hafter ▸ .nil)⟩
    | cons b S' =>
      rw [hafter] at h
      obtain ⟨us, hus, _, hquiet⟩ := ih rfl (.inl (List.cons_ne_nil b S')) h
      exact ⟨t :: us, hfirst.trans hus, List.cons_ne_nil _ _, .cons ht (hafter ▸ hquiet)⟩

end Cursor

namespace Reader

variable {α β σ : Type} {c : Cursor} {P R R' : α → List Token → Prop} {Q : β → List Token → Prop}

/-! ## The judgement -/

/-- Whenever `r` succeeds from `c`, its answer and the tokens that it has passed satisfy `R`. -/
def PassesFrom (c : Cursor) (r : Reader α) (R : α → List Token → Prop) : Prop :=
  c.stop.kind = .eof → ∀ a later, r c = .ok (a, later) → ∃ ts, c.Reaches ts later ∧ R a ts

/-- The same from wherever `r` starts. -/
def Passes (r : Reader α) (R : α → List Token → Prop) : Prop := ∀ c, PassesFrom c r R

/-- Somewhere the reader passes exactly the row `ts` and answers `a`. -/
def Reads (r : Reader α) (ts : List Token) (a : α) : Prop :=
  ∃ c later, c.stop.kind = .eof ∧ r c = .ok (a, later) ∧ c.Reaches ts later

/-- What is said of all rows that a reader passes is said of each of them. -/
theorem Reads.of_passes {r : Reader α} {ts : List Token} {a : α} (h : r.Reads ts a)
    (hr : r.Passes R) : R a ts := by
  obtain ⟨c, later, hstop, hread, hts⟩ := h
  obtain ⟨us, hus, hR⟩ := hr c hstop a later hread
  -- Two rows between the same cursors are one row.
  rwa [← hts.tokensUpTo_eq, hus.tokensUpTo_eq]

theorem PassesFrom.mono {r : Reader α} (hr : PassesFrom c r R) (h : ∀ a ts, R a ts → R' a ts) :
    PassesFrom c r R' := by
  intro hstop a later hread
  obtain ⟨ts, hts, hR⟩ := hr hstop a later hread
  exact ⟨ts, hts, h a ts hR⟩

/-- Two things can be said of one row. -/
theorem PassesFrom.and {r : Reader α} (hr : PassesFrom c r R) (hr' : PassesFrom c r R') :
    PassesFrom c r fun a ts => R a ts ∧ R' a ts := by
  intro hstop a later hread
  obtain ⟨ts, hts, hR⟩ := hr hstop a later hread
  obtain ⟨us, hus, hR'⟩ := hr' hstop a later hread
  rw [← hus.tokensUpTo_eq, hts.tokensUpTo_eq] at hR'
  exact ⟨ts, hts, hR, hR'⟩

/-- A row that has been passed is one that the reader reads. -/
theorem PassesFrom.and_reads {r : Reader α} (hr : PassesFrom c r R) :
    PassesFrom c r fun a ts => R a ts ∧ r.Reads ts a := by
  intro hstop a later hread
  obtain ⟨ts, hts, hR⟩ := hr hstop a later hread
  exact ⟨ts, hts, hR, c, later, hstop, hread, hts⟩

/-- The answer may be judged as well. -/
theorem PassesFrom.and_yields {r : Reader α} {A : α → Prop} (hr : PassesFrom c r R)
    (hA : r.Yields A) : PassesFrom c r fun a ts => R a ts ∧ A a := by
  intro hstop a later hread
  obtain ⟨ts, hts, hR⟩ := hr hstop a later hread
  exact ⟨ts, hts, hR, hA c a later hread⟩

/-! ## Sequencing -/

theorem PassesFrom.pure {a : α} (h : R a []) : PassesFrom c (Pure.pure a) R := by
  intro _ b later hread
  cases hread
  exact ⟨[], .refl c, h⟩

/-- The rule for sequencing: the rows are put one behind the other. The second reader starts from
the cursor that the first one has reached. -/
theorem PassesFrom.bind_of_reaches {r : Reader α} {f : α → Reader β} (hr : PassesFrom c r P)
    (hf : ∀ a ts c₁, c.Reaches ts c₁ → P a ts → PassesFrom c₁ (f a) fun b us => Q b (ts ++ us)) :
    PassesFrom c (r >>= f) Q := by
  intro hstop b later hread
  obtain ⟨a, c₁, h₁, h₂⟩ := bind_eq_ok_iff.mp hread
  obtain ⟨ts, hts, hP⟩ := hr hstop a c₁ h₁
  obtain ⟨us, hus, hQ⟩ := hf a ts c₁ hts hP (by rw [hts.stop, hstop]) b later h₂
  exact ⟨ts ++ us, hts.trans hus, hQ⟩

/-- The rule where it does not matter how far the first reader has got. -/
theorem PassesFrom.bind {r : Reader α} {f : α → Reader β} (hr : PassesFrom c r P)
    (hf : ∀ a ts c₁, P a ts → PassesFrom c₁ (f a) fun b us => Q b (ts ++ us)) :
    PassesFrom c (r >>= f) Q :=
  hr.bind_of_reaches fun a ts c₁ _ => hf a ts c₁

theorem PassesFrom.failAt {p : Position} {fault : Fault} :
    PassesFrom c (Reader.failAt p fault : Reader α) R := by
  intro _ a later hread
  simp [Reader.failAt] at hread

theorem PassesFrom.unexpected {what : String} :
    PassesFrom c (Reader.unexpected what : Reader α) R := by
  intro _ a later hread
  simp [Reader.unexpected] at hread

/-- A computation that reads nothing passes nothing. -/
theorem PassesFrom.lift {e : Except Diagnostic α} (h : ∀ a, e = .ok a → R a []) :
    PassesFrom c (liftM e : Reader α) R := by
  intro _ a later hread
  cases e with
  | error d => cases hread
  | ok a' =>
    cases hread
    exact ⟨[], .refl c, h a rfl⟩

/-! ## Looking -/

theorem PassesFrom.current {f : Token → Reader β} (h : PassesFrom c (f c.current) Q) :
    PassesFrom c (Reader.current >>= f) Q := h

theorem PassesFrom.kind {f : TokenKind → Reader β} (h : PassesFrom c (f c.current.kind) Q) :
    PassesFrom c (Reader.kind >>= f) Q := h

theorem PassesFrom.nextKind {f : TokenKind → Reader β}
    (h : PassesFrom c (f (c.lookahead 1).kind) Q) : PassesFrom c (Reader.nextKind >>= f) Q := h

theorem PassesFrom.position {f : Position → Reader β} (h : PassesFrom c (f c.current.start) Q) :
    PassesFrom c (Reader.position >>= f) Q := h

theorem PassesFrom.isAt {k : TokenKind} {f : Bool → Reader β}
    (h : PassesFrom c (f (c.current.kind == k)) Q) : PassesFrom c (Reader.isAt k >>= f) Q := h

/-! ## Moving on -/

/-- The token ahead is passed, and the one behind it is ahead. -/
theorem PassesFrom.advance {f : Unit → Reader β} (hc : c.current.kind ≠ .eof)
    (h : ∀ c₁, c₁.current = c.lookahead 1 →
      PassesFrom c₁ (f ()) fun b us => Q b (c.current :: us)) :
    PassesFrom c (Reader.advance >>= f) Q := by
  intro hstop b later hread
  have hone := Cursor.reaches_advance hstop hc
  obtain ⟨us, hus, hQ⟩ := h c.advance (Cursor.current_advance hstop hc) (by rw [hone.stop, hstop])
    b later hread
  exact ⟨c.current :: us, hone.trans hus, hQ⟩

/-- The token that is expected is the token ahead. -/
theorem passesFrom_expect {k : TokenKind} (hk : k ≠ .eof) (what : String) :
    PassesFrom c (Reader.expect k what) fun _ ts => ts = [c.current] ∧ c.current.kind = k := by
  rw [Reader.expect]
  refine .isAt ?_
  by_cases hc : (c.current.kind == k) = true
  · rw [if_pos hc]
    rw [beq_iff_eq] at hc
    exact PassesFrom.advance (f := Pure.pure) (hc ▸ hk) fun _ _ => .pure ⟨rfl, hc⟩
  · rw [if_neg hc]
    exact .unexpected

/-- All tokens that are passed satisfy the test. -/
theorem PassesFrom.skipWhile {p : Token → Bool} {R : Unit → List Token → Prop}
    (h : ∀ ts, (∀ t ∈ ts, p t = true) → R () ts) : PassesFrom c (Reader.skipWhile p) R := by
  intro _ a later hread
  cases hread
  exact ⟨_, c.reaches_advanceWhile p, h _ fun t ht => List.mem_takeWhile_imp ht⟩

/-- If the token ahead satisfies the test, it is passed. -/
theorem PassesFrom.skipWhile_of_pos {p : Token → Bool} (hc : c.current.kind ≠ .eof)
    (hp : p c.current = true) :
    PassesFrom c (Reader.skipWhile p) fun _ ts => ∃ us, ts = c.current :: us := by
  intro hstop a later hread
  cases hread
  have hreaches := c.reaches_advanceWhile p
  rw [Cursor.exists_rest hstop hc, List.takeWhile_cons_of_pos hp] at hreaches
  exact ⟨_, hreaches, _, rfl⟩

/-- What is left of a line is on the line of the token just passed. -/
theorem passesFrom_skipRestOfLine :
    PassesFrom c Reader.skipRestOfLine fun _ ts => ∀ t ∈ ts, c.lastLine? = some t.line := by
  intro _ a later hread
  cases hread
  exact c.reaches_skipRestOfLine

/-- A line starts with the token ahead. -/
theorem passesFrom_skipLine (hc : c.current.kind ≠ .eof) :
    PassesFrom c Reader.skipLine fun _ ts =>
      ∃ us, ts = c.current :: us ∧ ∀ t ∈ us, t.line = c.current.line := by
  intro hstop a later hread
  cases hread
  obtain ⟨us, hus, hline⟩ := c.reaches_skipLine hstop hc
  exact ⟨_, hus, us, rfl, hline⟩

/-- A bracketed group is passed as a whole. -/
theorem PassesFrom.skipGroup {b : Bracket} {R : Unit → List Token → Prop}
    (hc : c.current.kind = .opener b)
    (h : ∀ t ts, Token.Quiet [] (t :: ts) [] → t = c.current → R () (t :: ts)) :
    PassesFrom c Reader.skipGroup R := by
  intro hstop a later hread
  have hrest := Cursor.exists_rest hstop (c := c) (by rw [hc]; exact TokenKind.noConfusion)
  rw [Reader.skipGroup] at hread
  cases hgroup : c.skipGroup? with
  | none => rw [hgroup] at hread; cases hread
  | some later' =>
    rw [hgroup] at hread
    cases hread
    rw [Cursor.skipGroup?] at hgroup
    have hquiet : ∀ t, c.rest.head? = some t → t.kind.isQuiet = true := by
      intro t ht
      rw [hrest, List.head?_cons, Option.some.injEq] at ht
      rw [← ht, hc]
      rfl
    obtain ⟨ts, hts, hne, hquiet⟩ := Cursor.skipBrackets_spec rfl (.inr hquiet) hgroup
    cases ts with
    | nil => exact absurd rfl hne
    | cons t ts =>
      -- The first token that is passed is the one ahead.
      have hfirst := hrest.symm.trans hts.rest
      rw [List.cons_append, List.cons.injEq] at hfirst
      exact ⟨t :: ts, hts, h t ts hquiet hfirst.1.symm⟩

/-- Instead of the answer of a reader, the text that it has passed. -/
theorem PassesFrom.passedText {r : Reader Unit} {P : Unit → List Token → Prop}
    (hr : PassesFrom c r P) : PassesFrom c (Reader.passedText r) fun text ts =>
      P () ts ∧ r.Reads ts () ∧ text = Token.rowText ts := by
  intro hstop text later hread
  rw [Reader.passedText] at hread
  cases hr' : r c with
  | error d => rw [hr'] at hread; cases hread
  | ok a =>
    obtain ⟨⟨⟩, later'⟩ := a
    rw [hr'] at hread
    cases hread
    obtain ⟨ts, hts, hP⟩ := hr hstop () later hr'
    have htext : c.textUpTo later = Token.rowText ts := by
      rw [Cursor.textUpTo, hts.tokensUpTo_eq]
      rfl
    exact ⟨ts, hts, hP, ⟨c, later, hstop, hr', hts⟩, htext⟩

/-! ## Loops -/

/-- The invariant rule: `I` relates the state between rounds to the tokens that were passed since
the loop began. -/
theorem PassesFrom.iterate {I : σ → List Token → Prop} {step : σ → Reader (Round σ α)} {state : σ}
    (hstep : ∀ s ts c, I s ts → PassesFrom c (step s) fun round us =>
      match round with
      | .again s' => I s' (ts ++ us)
      | .done a => R a (ts ++ us))
    (hs : I state []) : PassesFrom c (Reader.iterate step state) R := by
  have loop : ∀ (bound : List Token) (s : σ) (ts : List Token) (c : Cursor), I s ts →
      PassesFrom c (iterateFor step bound s) fun a us => R a (ts ++ us) := by
    intro bound
    induction bound with
    | nil => intro s ts c _ _ a later h; simp [iterateFor] at h
    | cons t bound ih =>
      intro s ts c hI
      rw [iterateFor]
      refine (hstep s ts c hI).bind fun round us c₁ hround => ?_
      cases round with
      | again s' =>
        refine (ih s' (ts ++ us) c₁ hround).mono fun a vs h => ?_
        rwa [List.append_assoc] at h
      | done a => exact .pure (by rwa [List.append_nil])
  intro hstop a later hread
  exact loop c.bound state [] c hs hstop a later hread

end Reader

end IrRecords
