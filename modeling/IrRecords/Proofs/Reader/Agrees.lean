import IrRecords.Proofs.Reader.Passes
import IrRecords.Proofs.Token.Tiles
import Mathlib.Data.List.Forall2

/-!
# Reading two texts side by side

Two texts that differ in nothing but their spacing are cut into tokens that differ in their
positions and in the gaps between them (`Twins`). One of them may start further down than the other. What a reader makes of the one text it makes of
the other, too, up to these differences, and `Agrees` is the judgement for this: started in front of
the same tokens, both runs fail with the same fault at corresponding positions, or both succeed with
answers that are related and stop in front of the same tokens.

The judgement relates two readers because a reader may go on with what it has read so far, and that
need not be the same in the two runs. Where it is the same reader twice and its answer is the same,
the reader is `Steady`. Most of them are: all that is not the same in two runs are positions, and the
texts of constants, which are shown with the gaps inside of them.
-/

namespace IrRecords

/-- Two texts that are cut into the same tokens. -/
structure Twins where
  first : Token.Stream
  second : Token.Stream
  /-- Where what starts at the one position in the first text starts in the second. -/
  Moves : Position → Position → Prop
  /-- The texts of rows of tokens that may be shown in another way in the second text. -/
  Loose : String → Prop
  /-- How many lines further down the second text starts. -/
  lines : Nat
  tokens : List.Forall₂ (fun t t' => t'.kind = t.kind ∧ t'.text = t.text ∧ t'.line = t.line + lines
    ∧ Moves t.start t'.start) first.tokens second.tokens
  lexed : ∀ t ∈ first.tokens, t.Lexed
  lexed' : ∀ t ∈ second.tokens, t.Lexed
  stop : first.stop.kind = .eof
  stop' : second.stop.kind = .eof
  line : second.stop.line = first.stop.line + lines
  texts : ∀ k n, Token.rowText ((second.tokens.drop k).take n)
      = Token.rowText ((first.tokens.drop k).take n)
    ∨ Loose (Token.rowText ((first.tokens.drop k).take n))

namespace Twins

variable {α α' β β' σ σ' : Type}

/-- The same token in the two texts. -/
def SameToken (T : Twins) (t t' : Token) : Prop :=
  t'.kind = t.kind ∧ t'.text = t.text ∧ t'.line = t.line + T.lines ∧ T.Moves t.start t'.start

/-- The same place in the two texts, also at their ends. -/
def At (T : Twins) (p p' : Position) : Prop :=
  T.Moves p p' ∨ (p = T.first.stop.start ∧ p' = T.second.stop.start)

/-- The same text, or one that may be shown in another way. -/
def SameText (T : Twins) (text text' : String) : Prop := text' = text ∨ T.Loose text

/-- What is ahead in the two texts: the same token, or both ends. -/
structure Ahead (T : Twins) (t t' : Token) : Prop where
  kind : t'.kind = t.kind
  shown : t'.shown? = t.shown?
  line : t'.line = t.line + T.lines
  start : T.At t.start t'.start

/-- Both cursors stand in front of the same token. -/
structure Facing (T : Twins) (c c' : Cursor) : Prop where
  rest : List.Forall₂ T.SameToken c.rest c'.rest
  suffix : c.rest <:+ T.first.tokens
  suffix' : c'.rest <:+ T.second.tokens
  lastLine? : c'.lastLine? = c.lastLine?.map (· + T.lines)
  stop : c.stop = T.first.stop
  stop' : c'.stop = T.second.stop

/-- The same fault, but for the position that it mentions. -/
inductive SameFault (T : Twins) : Fault → Fault → Prop
  | refl (fault : Fault) : SameFault T fault fault
  | redefined (name : String) {p p' : Position} (h : T.Moves p p') :
      SameFault T (.functionRedefined name p) (.functionRedefined name p')

/-- Both computations fail with the same fault at the same place, or both succeed with answers that
are related by `A`. -/
inductive SameResult (T : Twins) (A : α → α' → Prop) :
    Except Diagnostic α → Except Diagnostic α' → Prop
  | failed {d d' : Diagnostic} (position : T.At d.position d'.position)
      (fault : T.SameFault d.fault d'.fault) : SameResult T A (.error d) (.error d')
  | ok {a : α} {a' : α'} (h : A a a') : SameResult T A (.ok a) (.ok a')

variable {T : Twins} {A : α → α' → Prop} {B : β → β' → Prop} {c c' : Cursor} {t t' : Token}

theorem SameResult.bind {e : Except Diagnostic α} {e' : Except Diagnostic α'}
    {f : α → Except Diagnostic β} {f' : α' → Except Diagnostic β'} (he : T.SameResult A e e')
    (hf : ∀ a a', A a a' → T.SameResult B (f a) (f' a')) :
    T.SameResult B (e >>= f) (e' >>= f') := by
  cases he with
  | failed position fault => exact .failed position fault
  | ok h => exact hf _ _ h

theorem SameResult.mono {A' : α → α' → Prop} {e : Except Diagnostic α} {e' : Except Diagnostic α'}
    (he : T.SameResult A e e') (h : ∀ a a', A a a' → A' a a') : T.SameResult A' e e' := by
  cases he with
  | failed position fault => exact .failed position fault
  | ok ha => exact .ok (h _ _ ha)

theorem SameResult.pure {a : α} {a' : α'} (h : A a a') :
    T.SameResult A (Pure.pure a) (Pure.pure a') := .ok h

/-- A walk along two rows that are related, element by element. -/
theorem SameResult.foldlM {R : β → β' → Prop} {f : α → β → Except Diagnostic α}
    {f' : α' → β' → Except Diagnostic α'} {bs : List β} {bs' : List β'} {a : α} {a' : α'}
    (hf : ∀ a a' b b', A a a' → R b b' → T.SameResult A (f a b) (f' a' b')) (ha : A a a')
    (h : List.Forall₂ R bs bs') : T.SameResult A (bs.foldlM f a) (bs'.foldlM f' a') := by
  induction h generalizing a a' with
  | nil => exact .pure ha
  | cons hb _ ih =>
    rw [List.foldlM_cons, List.foldlM_cons]
    exact (hf _ _ _ _ ha hb).bind fun _ _ ha => ih ha

theorem SameResult.mapM {f : α → Except Diagnostic β} {f' : α' → Except Diagnostic β'}
    {as : List α} {as' : List α'} (hf : ∀ a a', A a a' → T.SameResult B (f a) (f' a'))
    (h : List.Forall₂ A as as') : T.SameResult (List.Forall₂ B) (as.mapM f) (as'.mapM f') := by
  induction h with
  | nil => exact .pure .nil
  | cons ha _ ih =>
    rw [List.mapM_cons, List.mapM_cons]
    exact (hf _ _ ha).bind fun _ _ hb => ih.bind fun _ _ hbs => .pure (.cons hb hbs)

/-! ## Cursors -/

theorem SameToken.ahead (h : T.SameToken t t') : T.Ahead t t' := by
  obtain ⟨hkind, htext, hline, hstart⟩ := h
  exact ⟨hkind, by rw [Token.shown?, Token.shown?, hkind, htext], hline, .inl hstart⟩

theorem ahead_stop (T : Twins) : T.Ahead T.first.stop T.second.stop :=
  ⟨T.stop'.trans T.stop.symm, by rw [Token.shown?, Token.shown?, T.stop, T.stop'], T.line,
    .inr ⟨rfl, rfl⟩⟩

theorem ahead_headD {ts ts' : List Token} (h : List.Forall₂ T.SameToken ts ts') :
    T.Ahead (ts.headD T.first.stop) (ts'.headD T.second.stop) := by
  cases h with
  | nil => exact T.ahead_stop
  | cons ht _ => exact ht.ahead

theorem Facing.lookahead (h : T.Facing c c') (n : Nat) :
    T.Ahead (c.lookahead n) (c'.lookahead n) := by
  rw [Cursor.lookahead, Cursor.lookahead, h.stop, h.stop']
  exact ahead_headD (List.forall₂_drop n h.rest)

theorem Facing.current (h : T.Facing c c') : T.Ahead c.current c'.current := h.lookahead 0

/-- Both cursors go on to later places. -/
theorem Facing.move {last? : Option Nat} {ts ts' : List Token} (h : T.Facing c c')
    (hts : List.Forall₂ T.SameToken ts ts') (hsuffix : ts <:+ c.rest) (hsuffix' : ts' <:+ c'.rest) :
    T.Facing ⟨last?, ts, c.stop⟩ ⟨last?.map (· + T.lines), ts', c'.stop⟩ :=
  ⟨hts, hsuffix.trans h.suffix, hsuffix'.trans h.suffix', rfl, h.stop, h.stop'⟩

theorem Facing.advance (h : T.Facing c c') : T.Facing c.advance c'.advance := by
  obtain ⟨last?, ts, stop⟩ := c
  obtain ⟨last?', ts', stop'⟩ := c'
  have hrest := h.rest
  cases hrest with
  | nil => exact h
  | cons ht hts =>
    have hline := ht.2.2.1
    rw [Cursor.advance, Cursor.advance]
    dsimp only
    rw [hline]
    exact Facing.move h hts (List.suffix_cons _ _) (List.suffix_cons _ _)

theorem Facing.remaining (h : T.Facing c c') : c'.remaining = c.remaining := h.rest.length_eq.symm

theorem forall₂_takeWhile {R : Token → Token → Prop} {p p' : Token → Bool}
    (hp : ∀ t t', R t t' → p' t' = p t) {ts ts' : List Token} (h : List.Forall₂ R ts ts') :
    List.Forall₂ R (ts.takeWhile p) (ts'.takeWhile p')
      ∧ List.Forall₂ R (ts.dropWhile p) (ts'.dropWhile p') := by
  induction h with
  | nil => exact ⟨.nil, .nil⟩
  | @cons t t' ts ts' ht hts ih =>
    rw [List.takeWhile_cons, List.takeWhile_cons, List.dropWhile_cons, List.dropWhile_cons, hp t t' ht]
    by_cases hpt : p t = true
    · rw [if_pos hpt, if_pos hpt, if_pos hpt, if_pos hpt]
      exact ⟨.cons ht ih.1, ih.2⟩
    · rw [if_neg hpt, if_neg hpt, if_neg hpt, if_neg hpt]
      exact ⟨.nil, .cons ht hts⟩

theorem map_line_eq {ts ts' : List Token} (h : List.Forall₂ T.SameToken ts ts') :
    ts'.map Token.line = (ts.map Token.line).map (· + T.lines) := by
  induction h with
  | nil => rfl
  | cons ht _ ih => rw [List.map_cons, List.map_cons, List.map_cons, ht.2.2.1, ih]

theorem Facing.advanceWhile {p p' : Token → Bool} (h : T.Facing c c')
    (hp : ∀ t t', T.SameToken t t' → p' t' = p t) :
    T.Facing (c.advanceWhile p) (c'.advanceWhile p') := by
  obtain ⟨hpassed, hleft⟩ := forall₂_takeWhile hp h.rest
  have hlast : (c'.rest.takeWhile p').getLast?.map Token.line
      = ((c.rest.takeWhile p).getLast?.map Token.line).map (· + T.lines) := by
    rw [← List.getLast?_map, ← List.getLast?_map, map_line_eq hpassed, List.getLast?_map]
  rw [Cursor.advanceWhile, Cursor.advanceWhile, Cursor.advanceWhileIn_eq, Cursor.advanceWhileIn_eq,
    hlast, h.lastLine?, ← Option.map_or]
  exact h.move hleft (List.dropWhile_suffix p) (List.dropWhile_suffix p')

theorem sameLine {line : Nat} (t t' : Token) (h : T.SameToken t t') :
    (t'.line == line + T.lines) = (t.line == line) := by
  rw [h.2.2.1, Bool.eq_iff_iff, beq_iff_eq, beq_iff_eq, Nat.add_right_cancel_iff]

theorem Facing.skipLine (h : T.Facing c c') : T.Facing c.skipLine c'.skipLine := by
  rw [Cursor.skipLine, Cursor.skipLine, h.current.line]
  exact h.advanceWhile sameLine

theorem Facing.skipRestOfLine (h : T.Facing c c') :
    T.Facing c.skipRestOfLine c'.skipRestOfLine := by
  rw [Cursor.skipRestOfLine, Cursor.skipRestOfLine, h.lastLine?]
  cases c.lastLine? with
  | none => exact h
  | some line => exact h.advanceWhile sameLine

theorem Facing.skipBrackets {ts ts' : List Token} (h : T.Facing c c')
    (hts : List.Forall₂ T.SameToken ts ts') (hsuffix : ts <:+ c.rest) (hsuffix' : ts' <:+ c'.rest)
    (S : List Bracket) :
    Option.Rel T.Facing (Cursor.skipBrackets S c ts) (Cursor.skipBrackets S c' ts') := by
  induction hts generalizing c c' S with
  | nil => exact .none
  | @cons t t' ts ts' ht hts ih =>
    have hafter : Cursor.bracketsAfter S t' = Cursor.bracketsAfter S t := by
      unfold Cursor.bracketsAfter
      rw [ht.1]
    have hmove : T.Facing ⟨some t.line, ts, c.stop⟩ ⟨some (t.line + T.lines), ts', c'.stop⟩ :=
      h.move hts ((List.suffix_cons t ts).trans hsuffix) ((List.suffix_cons t' ts').trans hsuffix')
    rw [Cursor.skipBrackets, Cursor.skipBrackets, hafter, ht.2.2.1]
    split
    · exact .some hmove
    · exact ih hmove List.suffix_rfl List.suffix_rfl _

theorem Facing.skipGroup? (h : T.Facing c c') : Option.Rel T.Facing c.skipGroup? c'.skipGroup? :=
  h.skipBrackets h.rest List.suffix_rfl List.suffix_rfl []

/-- What is shown of the same tokens. -/
theorem Facing.textUpTo {later later' : Cursor} (h : T.Facing c c') (hlater : T.Facing later later') :
    T.SameText (c.textUpTo later) (c'.textUpTo later') := by
  have hrest := List.suffix_iff_eq_drop.mp h.suffix
  have hrest' := List.suffix_iff_eq_drop.mp h.suffix'
  have htexts := T.texts (T.first.tokens.length - c.rest.length) (c.remaining - later.remaining)
  rw [← hrest, T.tokens.length_eq, h.rest.length_eq, ← hrest'] at htexts
  rw [Cursor.textUpTo, Cursor.textUpTo, Cursor.tokensUpTo, Cursor.tokensUpTo, h.remaining,
    hlater.remaining]
  exact htexts

end Twins

/-! ## The judgement -/

namespace Reader

variable {α α' β β' σ σ' : Type} {T : Twins} {A : α → α' → Prop} {B : β → β' → Prop}

/-- Started in front of the same token, both readers fail alike, or they succeed with answers that
are related by `A` and stop in front of the same token. -/
def Agrees (T : Twins) (A : α → α' → Prop) (r : Reader α) (r' : Reader α') : Prop :=
  ∀ c c', T.Facing c c' → T.SameResult (fun x x' => A x.1 x'.1 ∧ T.Facing x.2 x'.2) (r c) (r' c')

/-- The reader answers related things in the two texts. -/
def Keeps (T : Twins) (A : α → α → Prop) (r : Reader α) : Prop := Agrees T A r r

/-- The reader answers the same in the two texts. -/
abbrev Steady (T : Twins) (r : Reader α) : Prop := Keeps T Eq r

/-! ### Sequencing -/

theorem Agrees.bind {r : Reader α} {r' : Reader α'} {f : α → Reader β} {f' : α' → Reader β'}
    (hr : Agrees T A r r') (hf : ∀ a a', A a a' → Agrees T B (f a) (f' a')) :
    Agrees T B (r >>= f) (r' >>= f') :=
  fun c c' hc => (hr c c' hc).bind fun x x' ⟨ha, hx⟩ => hf x.1 x'.1 ha x.2 x'.2 hx

/-- The rule for sequencing after a reader that answers the same. -/
theorem Agrees.after {r : Reader α} {f : α → Reader β} {f' : α → Reader β'} (hr : Steady T r)
    (hf : ∀ a, Agrees T B (f a) (f' a)) : Agrees T B (r >>= f) (r >>= f') :=
  Agrees.bind hr fun a _ ha => ha ▸ hf a

theorem Steady.bind {B : β → β → Prop} {r : Reader α} {f : α → Reader β} (hr : Steady T r)
    (hf : ∀ a, Keeps T B (f a)) : Keeps T B (r >>= f) :=
  Agrees.after hr hf

theorem Agrees.pure {a : α} {a' : α'} (h : A a a') : Agrees T A (Pure.pure a) (Pure.pure a') :=
  fun _ _ hc => .ok ⟨h, hc⟩

theorem Keeps.pure {A : α → α → Prop} {a : α} (h : A a a) : Keeps T A (Pure.pure a) := Agrees.pure h

theorem Agrees.mono {A' : α → α' → Prop} {r : Reader α} {r' : Reader α'} (hr : Agrees T A r r')
    (h : ∀ a a', A a a' → A' a a') : Agrees T A' r r' :=
  fun c c' hc => (hr c c' hc).mono fun _ _ ⟨ha, hx⟩ => ⟨h _ _ ha, hx⟩

/-- A computation that reads nothing. -/
theorem Agrees.lift {e : Except Diagnostic α} {e' : Except Diagnostic α'}
    (h : T.SameResult A e e') : Agrees T A (liftM e : Reader α) (liftM e' : Reader α') := by
  intro c c' hc
  cases h with
  | failed position fault => exact .failed position fault
  | ok ha => exact .ok ⟨ha, hc⟩

/-! ### Looking -/

theorem keeps_current : Keeps T T.Ahead Reader.current := fun _ _ hc => .ok ⟨hc.current, hc⟩

theorem steady_kind : Steady T Reader.kind := fun _ _ hc => .ok ⟨hc.current.kind.symm, hc⟩

theorem steady_nextKind : Steady T Reader.nextKind :=
  fun _ _ hc => .ok ⟨(hc.lookahead 1).kind.symm, hc⟩

theorem keeps_position : Keeps T T.At Reader.position := fun _ _ hc => .ok ⟨hc.current.start, hc⟩

theorem steady_isAt (k : TokenKind) : Steady T (Reader.isAt k) :=
  fun _ _ hc => .ok ⟨by rw [hc.current.kind], hc⟩

/-! ### Failing -/

theorem agrees_failAt {p p' : Position} (h : T.At p p') (fault : Fault) :
    Agrees T A (Reader.failAt p fault) (Reader.failAt p' fault) :=
  fun _ _ _ => .failed h (.refl fault)

theorem keeps_unexpected {A : α → α → Prop} (what : String) :
    Keeps T A (Reader.unexpected what) := by
  intro c c' hc
  rw [Reader.unexpected, Reader.unexpected, hc.current.shown]
  exact .failed hc.current.start (.refl _)

/-! ### Moving on -/

theorem steady_advance : Steady T Reader.advance := fun _ _ hc => .ok ⟨rfl, hc.advance⟩

theorem steady_skipWhile {p : Token → Bool} (hp : ∀ t t', T.SameToken t t' → p t' = p t) :
    Steady T (Reader.skipWhile p) :=
  fun _ _ hc => .ok ⟨rfl, hc.advanceWhile hp⟩

theorem steady_skipLine : Steady T Reader.skipLine := fun _ _ hc => .ok ⟨rfl, hc.skipLine⟩

theorem steady_skipRestOfLine : Steady T Reader.skipRestOfLine :=
  fun _ _ hc => .ok ⟨rfl, hc.skipRestOfLine⟩

theorem steady_skipGroup : Steady T Reader.skipGroup := by
  intro c c' hc
  rw [Reader.skipGroup, Reader.skipGroup]
  have hgroup := hc.skipGroup?
  generalize c.skipGroup? = later? at hgroup ⊢
  generalize c'.skipGroup? = later?' at hgroup ⊢
  cases hgroup with
  | none => exact .failed hc.current.start (.refl _)
  | some h => exact .ok ⟨rfl, h⟩

theorem steady_accept (k : TokenKind) : Steady T (Reader.accept k) := by
  rw [Reader.accept]
  refine (steady_isAt k).bind fun found => ?_
  split
  · exact steady_advance.bind fun _ => .pure rfl
  · exact .pure rfl

theorem steady_acceptWord (w : String) : Steady T (Reader.acceptWord w) := steady_accept _

theorem steady_expect (k : TokenKind) (what : String) : Steady T (Reader.expect k what) := by
  rw [Reader.expect]
  refine (steady_isAt k).bind fun found => ?_
  split
  · exact steady_advance
  · exact keeps_unexpected what

theorem steady_expectWord (w : String) : Steady T (Reader.expectWord w) := steady_expect _ _

theorem steady_expectComma : Steady T Reader.expectComma := steady_expect _ _

theorem steady_expectNumber (bound : Nat) (what : String) :
    Steady T (Reader.expectNumber bound what) := by
  rw [Reader.expectNumber]
  refine steady_kind.bind fun k => ?_
  split
  · split
    · exact steady_advance.bind fun _ => .pure rfl
    · exact keeps_unexpected what
  · exact keeps_unexpected what

theorem steady_skipWords (ws : List String) : Steady T (Reader.skipWords ws) :=
  steady_skipWhile fun t t' h => by rw [Reader.isWordOf, Reader.isWordOf, h.1]

/-- What is passed without a difference is shown alike. -/
theorem keeps_passedText {r : Reader Unit} (hr : Steady T r) :
    Keeps T T.SameText (Reader.passedText r) := by
  intro c c' hc
  rw [Reader.passedText, Reader.passedText]
  have hresult := hr c c' hc
  generalize r c = x at hresult ⊢
  generalize r c' = x' at hresult ⊢
  cases hresult with
  | failed position fault => exact .failed position fault
  | ok h => exact .ok ⟨hc.textUpTo h.2, h.2⟩

/-- What is known of the row that a reader passes is known of both rows, which are the same. -/
theorem Keeps.and_passes {A : α → α → Prop} {R : α → List Token → Prop} {r : Reader α}
    (hr : Keeps T A r) (hR : r.Passes R) : Keeps T (fun a a' => A a a' ∧ ∃ ts ts', R a ts ∧ R a' ts'
      ∧ List.Forall₂ T.SameToken ts ts' ∧ ts <:+: T.first.tokens ∧ ts' <:+: T.second.tokens) r := by
  intro c c' hc
  have hresult := hr c c' hc
  have hpasses := hR c (hc.stop ▸ T.stop)
  have hpasses' := hR c' (hc.stop' ▸ T.stop')
  cases hread : r c with
  | error d =>
    cases hread' : r c' with
    | error d' =>
      rw [hread, hread'] at hresult
      cases hresult with
      | failed position fault => exact .failed position fault
    | ok x' => rw [hread, hread'] at hresult; cases hresult
  | ok x =>
    cases hread' : r c' with
    | error d' => rw [hread, hread'] at hresult; cases hresult
    | ok x' =>
      rw [hread, hread'] at hresult
      cases hresult with
      | ok h =>
        obtain ⟨ts, hts, hRts⟩ := hpasses x.1 x.2 hread
        obtain ⟨ts', hts', hRts'⟩ := hpasses' x'.1 x'.2 hread'
        -- The readers pass equally many tokens, from rows that are the same.
        have hrows : List.Forall₂ T.SameToken ts ts' := by
          rw [← hts.tokensUpTo_eq, ← hts'.tokensUpTo_eq, Cursor.tokensUpTo, Cursor.tokensUpTo,
            hc.remaining, h.2.remaining]
          exact List.forall₂_take _ hc.rest
        have hslice : ts <:+: T.first.tokens :=
          ((hts.rest ▸ List.prefix_append ts _ : ts <+: c.rest).isInfix).trans hc.suffix.isInfix
        have hslice' : ts' <:+: T.second.tokens :=
          ((hts'.rest ▸ List.prefix_append ts' _ : ts' <+: c'.rest).isInfix).trans hc.suffix'.isInfix
        exact .ok ⟨⟨h.1, ts, ts', hRts, hRts', hrows, hslice, hslice'⟩, h.2⟩

/-! ### Loops -/

/-- What a round of a loop comes to in the two texts, if states are related by `I` and results by
`A`. -/
inductive SameRound (I : σ → σ' → Prop) (A : α → α' → Prop) : Round σ α → Round σ' α' → Prop
  | again {state : σ} {state' : σ'} (h : I state state') : SameRound I A (.again state) (.again state')
  | done {a : α} {a' : α'} (h : A a a') : SameRound I A (.done a) (.done a')

/-- The invariant rule. Both loops take the same number of rounds. -/
theorem Agrees.iterate {I : σ → σ' → Prop} {step : σ → Reader (Round σ α)}
    {step' : σ' → Reader (Round σ' α')} {state : σ} {state' : σ'}
    (hstep : ∀ s s', I s s' → Agrees T (SameRound I A) (step s) (step' s')) (hs : I state state') :
    Agrees T A (Reader.iterate step state) (Reader.iterate step' state') := by
  have loop : ∀ (bound bound' : List Token), bound.length = bound'.length → ∀ s s', I s s' →
      Agrees T A (Reader.iterateFor step bound s) (Reader.iterateFor step' bound' s') := by
    intro bound
    induction bound with
    | nil =>
      intro bound' hlength s s' hI c c' hc
      obtain rfl := List.eq_nil_of_length_eq_zero hlength.symm
      exact .failed hc.current.start (.refl _)
    | cons t bound ih =>
      intro bound' hlength s s' hI
      obtain ⟨t', bound', rfl⟩ := List.exists_cons_of_length_eq_add_one hlength.symm
      refine (hstep s s' hI).bind fun round round' hround => ?_
      cases hround with
      | again h => exact ih bound' (Nat.succ.inj hlength) _ _ h
      | done h => exact .pure h
  intro c c' hc
  exact loop c.bound c'.bound (congrArg (· + 1) hc.remaining.symm) _ _ hs c c' hc

theorem sameRound_eq {round round' : Round σ α} (h : round = round') :
    SameRound Eq Eq round round' := by
  subst h
  cases round with
  | again => exact .again rfl
  | done => exact .done rfl

/-- A loop whose rounds answer the same answers the same. -/
theorem Steady.iterate {step : σ → Reader (Round σ α)} (hstep : ∀ s, Steady T (step s)) (state : σ) :
    Steady T (Reader.iterate step state) :=
  Agrees.iterate (fun s _ hs => hs ▸ (hstep s).mono fun _ _ => sameRound_eq) rfl

/-- The items of two arrays are related, place by place. -/
def SameItems (A : α → α' → Prop) (as : Array α) (as' : Array α') : Prop :=
  List.Forall₂ A as.toList as'.toList

theorem SameItems.push {as : Array α} {as' : Array α'} {a : α} {a' : α'} (has : SameItems A as as')
    (ha : A a a') : SameItems A (as.push a) (as'.push a') := by
  rw [SameItems, Array.toList_push, Array.toList_push]
  exact List.rel_append has (.cons ha .nil)

theorem SameItems.pop {as : Array α} {as' : Array α'} (has : SameItems A as as') :
    SameItems A as.pop as'.pop := by
  rw [SameItems, Array.toList_pop, Array.toList_pop, List.dropLast_eq_take, List.dropLast_eq_take,
    has.length_eq]
  exact List.forall₂_take _ has

theorem SameItems.back? {as : Array α} {as' : Array α'} (has : SameItems A as as') :
    Option.Rel A as.back? as'.back? := by
  have hreverse := List.rel_reverse has
  rw [← Array.getLast?_toList, ← Array.getLast?_toList, List.getLast?_eq_head?_reverse,
    List.getLast?_eq_head?_reverse]
  generalize as.toList.reverse = xs at hreverse ⊢
  generalize as'.toList.reverse = xs' at hreverse ⊢
  cases hreverse with
  | nil => exact .none
  | cons ha _ => exact .some ha

theorem Agrees.commaSeparated {item : Reader α} {item' : Reader α'} (hitem : Agrees T A item item') :
    Agrees T (List.Forall₂ A) (Reader.commaSeparated item) (Reader.commaSeparated item') := by
  rw [Reader.commaSeparated, Reader.commaSeparated]
  refine Agrees.bind (A := SameItems A) (.iterate (I := SameItems A) (fun as as' has => ?_) .nil)
    fun as as' has => .pure has
  refine hitem.bind fun a a' ha => .after (steady_accept .comma) fun more => ?_
  cases more with
  | true => exact .pure (.again (has.push ha))
  | false => exact .pure (.done (has.push ha))

theorem Steady.commaSeparated {item : Reader α} (hitem : Steady T item) :
    Steady T (Reader.commaSeparated item) :=
  Agrees.mono (Agrees.commaSeparated hitem) fun _ _ h => List.forall₂_eq_eq_eq ▸ h

theorem steady_skipAttributes (isAttribute takesNumber : String → Bool) :
    Steady T (Reader.skipAttributes isAttribute takesNumber) := by
  rw [Reader.skipAttributes]
  refine .iterate (fun _ => steady_kind.bind fun k => ?_) ()
  split
  · split
    · refine steady_advance.bind fun _ => steady_kind.bind fun k => ?_
      dsimp only
      split
      · exact steady_skipGroup.bind fun _ => .pure rfl
      · split
        · exact steady_advance.bind fun _ => .pure rfl
        · exact .pure rfl
      · exact .pure rfl
    · exact .pure rfl
  · exact .pure rfl

end Reader

end IrRecords
