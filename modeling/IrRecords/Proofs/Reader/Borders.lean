import IrRecords.Proofs.Reader.Among

/-!
# Reading up to a border

A reader that is started in a part of a text may read that part by itself, or it may read it in front
of other parts. `Extends` says that this makes no difference: both runs answer the same and stop in
front of the same token, or both fail. What stands behind the part is known to begin as a part does
(`TokenKind.startsPart`), and not on the last line of it (`Border.Beside`).

There is one exception. If the part is not complete, reading it by itself fails because something is
missing (`Fault.wantsMore`), and nothing is known of the other run. So the judgement has a condition on
the end of the part: where the one run has come to the end and the other sees what stands behind, they
have to do the same, or else the first one has to fail for want of more (`Starves`), now or further down
(`Strays`).
-/

namespace IrRecords

/-- Whether the fault is that something is missing at the end of what is read. -/
def Fault.wantsMore : Fault → Bool
  | .expected _ none | .unbalancedBrackets | .stalled => true
  | _ => false

/-- Whether a part of a module or of a body may begin with a token of this kind: a definition of a
struct, a global, metadata, a label, the end of a body, or a word for anything else. -/
def TokenKind.startsPart : TokenKind → Bool
  | .localRef _ | .globalRef _ | .metadata _ | .label _ | .closer .curly | .eof => true
  | .word w => ["attributes", "declare", "define", "source_filename", "target"].contains w
  | _ => false

/-- The place behind a part of a text, and what stands there. -/
structure Border where
  /-- The tokens behind the part. -/
  behind : List Token
  /-- The end of the part by itself. -/
  stop : Token
  /-- The end of the whole text. -/
  stop' : Token
  /-- The part ends above this line. -/
  line : Nat
  below : ∀ b, behind.head? = some b → line ≤ b.line
  eof : stop.kind = .eof
  eof' : stop'.kind = .eof
  starts : (behind.headD stop').kind.startsPart = true
  /-- A reference is no operand but what a part defines. -/
  defines : ∀ id, (behind.headD stop').kind = .localRef id → (behind.tail.headD stop').kind = .equal

namespace Border

variable {α β : Type} {B : Border} {c c' : Cursor}

/-- Both cursors stand in front of the same token of the part, or at the end of it. The first one knows
the part only. -/
structure Beside (B : Border) (c c' : Cursor) : Prop where
  rest : c'.rest = c.rest ++ B.behind
  stop : c.stop = B.stop
  stop' : c'.stop = B.stop'
  /-- What has been passed in front of the part is on another line. -/
  last : c'.lastLine? = c.lastLine? ∨ c.lastLine? = none ∧ ∀ t ∈ c.rest, c'.lastLine? ≠ some t.line
  above : (∀ line, c'.lastLine? = some line → line < B.line) ∧ ∀ t ∈ c.rest, t.line < B.line

/-- What the two runs come to: the same, or a failure of both, unless the first one wants more. If it
does not, the second one does not either. -/
inductive Outcome (B : Border) :
    Except Diagnostic (α × Cursor) → Except Diagnostic (α × Cursor) → Prop
  | same {a : α} {c c' : Cursor} (h : B.Beside c c') : Outcome B (.ok (a, c)) (.ok (a, c'))
  | refused {d d' : Diagnostic} (h : d'.fault.wantsMore = false) : Outcome B (.error d) (.error d')
  | wants {d : Diagnostic} {e' : Except Diagnostic (α × Cursor)} (h : d.fault.wantsMore = true) :
      Outcome B (.error d) e'

/-! ## Cursors -/

/-- What stands behind the part is on another line. -/
theorem Beside.lines {b : Token} (h : B.Beside c c') (hb : B.behind.head? = some b) :
    c'.lastLine? ≠ some b.line ∧ ∀ t ∈ c.rest, t.line ≠ b.line := by
  have hbelow := B.below b hb
  refine ⟨fun hlast => ?_, fun t ht heq => ?_⟩
  · exact absurd (h.above.1 b.line hlast) (Nat.not_lt.mpr hbelow)
  · exact absurd (heq ▸ h.above.2 t ht) (Nat.not_lt.mpr hbelow)

/-- Both cursors go on to a later place in the part. -/
theorem Beside.pass {ts us : List Token} (h : B.Beside c c') (hrest : c.rest = ts ++ us) :
    B.Beside ⟨(ts.getLast?.map Token.line).or c.lastLine?, us, c.stop⟩
      ⟨(ts.getLast?.map Token.line).or c'.lastLine?, us ++ B.behind, c'.stop⟩ := by
  have hmem : ∀ t ∈ us, t ∈ c.rest := fun t ht => hrest ▸ List.mem_append_right ts ht
  refine ⟨rfl, h.stop, h.stop', ?_, fun line hline => ?_, fun t ht => h.above.2 t (hmem t ht)⟩
  · cases ts.getLast? with
    | none => exact h.last.imp_right fun ⟨hnone, hlines⟩ => ⟨hnone, fun t ht => hlines t (hmem t ht)⟩
    | some t => exact .inl rfl
  · cases hlast : ts.getLast? with
    | none =>
      rw [hlast] at hline
      exact h.above.1 line hline
    | some t =>
      rw [hlast] at hline
      cases hline
      exact h.above.2 t (hrest ▸ List.mem_append_left us (List.mem_of_getLast? hlast))

theorem Beside.advance (h : B.Beside c c') (hin : c.rest ≠ []) :
    B.Beside c.advance c'.advance := by
  obtain ⟨t, ts, hrest⟩ := List.exists_cons_of_ne_nil hin
  have hsplit : c.rest = [t] ++ ts := hrest
  have hpass := h.pass hsplit
  rw [Cursor.advance, Cursor.advance, h.rest, hrest]
  exact hpass

/-- In the part both cursors see the same. -/
theorem Beside.current (h : B.Beside c c') (hin : c.rest ≠ []) : c'.current = c.current := by
  obtain ⟨t, ts, hrest⟩ := List.exists_cons_of_ne_nil hin
  rw [Cursor.current, Cursor.current, h.rest, hrest]
  rfl

/-- At the end of the part the second cursor sees what is behind. -/
theorem Beside.current_end (h : B.Beside c c') (hend : c.rest = []) :
    c.current.kind = .eof ∧ c'.current.kind.startsPart = true := by
  rw [Cursor.current, Cursor.current, h.rest, hend, h.stop, h.stop', List.nil_append]
  exact ⟨B.eof, B.starts⟩

theorem Beside.eof (h : B.Beside c c') : c.stop.kind = .eof := h.stop ▸ B.eof

theorem takeWhile_dropWhile_append {p : Token → Bool} {ts us : List Token}
    (h : (∃ t ∈ ts, p t = false) ∨ ∀ u, us.head? = some u → p u = false) :
    (ts ++ us).takeWhile p = ts.takeWhile p ∧ (ts ++ us).dropWhile p = ts.dropWhile p ++ us := by
  induction ts with
  | nil =>
    rcases h with ⟨t, ht, _⟩ | h
    · cases ht
    cases us with
    | nil => exact ⟨rfl, rfl⟩
    | cons u us =>
      have hu : ¬ p u = true := by rw [h u rfl]; exact Bool.false_ne_true
      exact ⟨List.takeWhile_cons_of_neg hu, List.dropWhile_cons_of_neg hu⟩
  | cons t ts ih =>
    rw [List.cons_append, List.takeWhile_cons, List.takeWhile_cons, List.dropWhile_cons,
      List.dropWhile_cons]
    split
    · next ht =>
      -- The token at which the run stops is not the one that has just been passed.
      have hts : (∃ t ∈ ts, p t = false) ∨ ∀ u, us.head? = some u → p u = false := by
        refine h.imp_left fun ⟨u, hu, hpu⟩ => ?_
        rcases List.mem_cons.mp hu with rfl | hu
        · rw [ht] at hpu
          cases hpu
        · exact ⟨u, hu, hpu⟩
      exact ⟨congrArg _ (ih hts).1, (ih hts).2⟩
    · exact ⟨rfl, rfl⟩

theorem advanceWhile_of_head {p : Token → Bool} (h : ∀ t, c.rest.head? = some t → p t = false) :
    c.advanceWhile p = c := by
  obtain ⟨last?, rest, stop⟩ := c
  cases rest with
  | nil => rfl
  | cons t ts =>
    have ht : ¬ p t = true := by rw [h t rfl]; exact Bool.false_ne_true
    rw [Cursor.advanceWhile, Cursor.advanceWhileIn, if_neg ht]

/-- Passing tokens that are not like all of the part, or not like the first one behind it, does not go
on behind the part. -/
theorem Beside.advanceWhile {p : Token → Bool} (h : B.Beside c c')
    (hp : (∃ t ∈ c.rest, p t = false) ∨ ∀ b, B.behind.head? = some b → p b = false) :
    B.Beside (c.advanceWhile p) (c'.advanceWhile p) := by
  obtain ⟨htake, hdrop⟩ := takeWhile_dropWhile_append hp
  rw [Cursor.advanceWhile, Cursor.advanceWhile, Cursor.advanceWhileIn_eq, Cursor.advanceWhileIn_eq,
    h.rest, htake, hdrop]
  exact h.pass List.takeWhile_append_dropWhile.symm

/-- The rest of a line ends with the part. -/
theorem Beside.skipRestOfLine (h : B.Beside c c') :
    B.Beside c.skipRestOfLine c'.skipRestOfLine := by
  have hother : ∀ line, c'.lastLine? = some line → ∀ b, B.behind.head? = some b →
      (b.line == line) = false := by
    rintro line hline b hb
    rw [beq_eq_false_iff_ne]
    rintro rfl
    exact (h.lines hb).1 hline
  rw [Cursor.skipRestOfLine, Cursor.skipRestOfLine]
  rcases h.last with hlast | ⟨hnone, hlines⟩
  · rw [← hlast]
    cases hline : c'.lastLine? with
    | none => exact h
    | some line => exact h.advanceWhile (.inr (hother line hline))
  · rw [hnone]
    cases hline : c'.lastLine? with
    | none => exact h
    | some line =>
      -- The second cursor might pass what is left of the line that was passed before.
      have hstay : c'.advanceWhile (·.line == line) = c' := by
        refine advanceWhile_of_head fun t ht => ?_
        rw [beq_eq_false_iff_ne]
        rintro rfl
        rw [h.rest] at ht
        cases hrest : c.rest with
        | nil =>
          rw [hrest] at ht
          exact (h.lines ht).1 hline
        | cons u us =>
          rw [hrest, List.cons_append, List.head?_cons, Option.some.injEq] at ht
          exact hlines t (hrest ▸ ht ▸ List.mem_cons_self) hline
      dsimp only
      rw [hstay]
      exact h

theorem Beside.skipLine (h : B.Beside c c') (hin : c.rest ≠ []) :
    B.Beside c.skipLine c'.skipLine := by
  rw [Cursor.skipLine, Cursor.skipLine, h.current hin]
  refine h.advanceWhile (.inr fun b hb => ?_)
  obtain ⟨t, ts, hrest⟩ := List.exists_cons_of_ne_nil hin
  have ht : c.current = t := by rw [Cursor.current, hrest]; rfl
  rw [beq_eq_false_iff_ne, ht]
  exact fun heq => (h.lines hb).2 t (hrest ▸ List.mem_cons_self) heq.symm

/-- A group that is closed in the part is closed at the same place for both. -/
theorem Beside.skipBrackets {S : List Bracket} {ts : List Token} (h : B.Beside c c')
    (hts : c.rest = ts) {later : Cursor} (hgroup : Cursor.skipBrackets S c ts = some later) :
    ∃ later', Cursor.skipBrackets S c' (ts ++ B.behind) = some later' ∧ B.Beside later later' := by
  induction ts generalizing c c' S with
  | nil => cases hgroup
  | cons t ts ih =>
    have hsplit : c.rest = [t] ++ ts := hts
    have hpass := h.pass hsplit
    rw [Cursor.skipBrackets] at hgroup
    rw [List.cons_append, Cursor.skipBrackets]
    split at hgroup
    · cases hgroup
      exact ⟨_, rfl, hpass⟩
    · exact ih hpass rfl hgroup

theorem Beside.textUpTo {later later' : Cursor} (h : B.Beside c c') (h' : B.Beside later later') :
    c'.textUpTo later' = c.textUpTo later := by
  have htokens : c'.tokensUpTo later' = c.tokensUpTo later := by
    rw [Cursor.tokensUpTo, Cursor.tokensUpTo, Cursor.remaining, Cursor.remaining, Cursor.remaining,
      Cursor.remaining, h.rest, h'.rest, List.length_append, List.length_append,
      Nat.add_sub_add_right, List.take_append_of_le_length (Nat.sub_le _ _)]
  rw [Cursor.textUpTo, Cursor.textUpTo, htokens]

theorem Beside.bound_length_le (h : B.Beside c c') : c.bound.length ≤ c'.bound.length := by
  rw [Cursor.bound, Cursor.bound, h.rest, List.length_cons, List.length_cons, List.length_append]
  exact Nat.succ_le_succ (Nat.le_add_right _ _)

/-- What follows both runs. -/
theorem Outcome.bind {e e' : Except Diagnostic (α × Cursor)}
    {f f' : α × Cursor → Except Diagnostic (β × Cursor)} (he : B.Outcome e e')
    (hf : ∀ a c c', B.Beside c c' → B.Outcome (f (a, c)) (f' (a, c'))) :
    B.Outcome (e >>= f) (e' >>= f') := by
  cases he with
  | same h => exact hf _ _ _ h
  | refused h => exact .refused h
  | wants h => exact .wants h

/-- The same failure of both. -/
theorem Outcome.fails (d : Diagnostic) : B.Outcome (.error d : Except _ (α × Cursor)) (.error d) := by
  cases h : d.fault.wantsMore with
  | true => exact .wants h
  | false => exact .refused h

end Border

namespace Reader

variable {α β σ : Type} {B : Border} {P : α → Prop} {Q : β → Prop} {k : TokenKind}

/-! ## Readers at the end of a text -/

/-- At the end of a text the reader fails for want of more, or it stays there and answers something
that satisfies `P`. -/
def Ends (r : Reader α) (P : α → Prop) : Prop :=
  ∀ c, c.rest = [] → c.stop.kind = .eof →
    (∃ d, r c = .error d ∧ d.fault.wantsMore = true) ∨ ∃ a, r c = .ok (a, c) ∧ P a

/-- At the end of a text the reader fails for want of more. -/
abbrev Starves (r : Reader α) : Prop := r.Ends fun _ => False

theorem Ends.bind {r : Reader α} {f : α → Reader β} (hr : r.Ends P)
    (hf : ∀ a, P a → (f a).Ends Q) : (r >>= f).Ends Q := by
  intro c hend heof
  rcases hr c hend heof with ⟨d, hd, hwants⟩ | ⟨a, ha, hP⟩
  · refine .inl ⟨d, ?_, hwants⟩
    simp only [Bind.bind, StateT.bind, hd, Except.bind]
  · rw [bind_of_ok ha]
    exact hf a hP c hend heof

theorem Starves.bind {r : Reader α} {f : α → Reader β} (hr : r.Starves) : (r >>= f).Ends Q :=
  Ends.bind hr fun _ h => h.elim

theorem Ends.pure {a : α} (h : P a) : (Pure.pure a : Reader α).Ends P :=
  fun _ _ _ => .inr ⟨a, rfl, h⟩

theorem Ends.mono {r : Reader α} {P' : α → Prop} (hr : r.Ends P) (h : ∀ a, P a → P' a) :
    r.Ends P' :=
  fun c hend heof => (hr c hend heof).imp_right fun ⟨a, ha, hP⟩ => ⟨a, ha, h a hP⟩

theorem current_of_end {c : Cursor} (hend : c.rest = []) : c.current = c.stop := by
  rw [Cursor.current, hend]
  rfl

theorem Ends.current {f : Token → Reader β} (h : ∀ t, t.kind = .eof → (f t).Ends Q) :
    (Reader.current >>= f).Ends Q :=
  fun c hend heof => h c.current (by rw [current_of_end hend, heof]) c hend heof

theorem Ends.kind {f : TokenKind → Reader β} (h : (f .eof).Ends Q) : (Reader.kind >>= f).Ends Q :=
  Ends.current (f := fun t => f t.kind) fun t ht => by rw [ht]; exact h

theorem Ends.nextKind {f : TokenKind → Reader β} (h : ∀ k, (f k).Ends Q) :
    (Reader.nextKind >>= f).Ends Q :=
  fun c hend heof => h _ c hend heof

theorem Ends.position {f : Position → Reader β} (h : ∀ p, (f p).Ends Q) :
    (Reader.position >>= f).Ends Q :=
  fun c hend heof => h _ c hend heof

theorem Ends.isAt {f : Bool → Reader β} (hk : k ≠ .eof) (h : (f false).Ends Q) :
    (Reader.isAt k >>= f).Ends Q := by
  intro c hend heof
  have hkind : (c.current.kind == k) = false := by
    rw [current_of_end hend, heof, beq_eq_false_iff_ne]
    exact hk.symm
  have hc := h c hend heof
  rw [← hkind] at hc
  exact hc

theorem starves_unexpected (what : String) : (unexpected what : Reader α).Starves := by
  intro c hend heof
  refine .inl ⟨_, rfl, ?_⟩
  rw [current_of_end hend, Token.shown?, heof]
  rfl

theorem ends_accept (hk : k ≠ .eof) : (accept k).Ends (· = false) := by
  rw [accept]
  exact .isAt hk (.pure rfl)

theorem starves_expect (hk : k ≠ .eof) (what : String) : (expect k what).Starves := by
  rw [expect]
  exact .isAt hk (starves_unexpected what)

theorem ends_skipWhile (p : Token → Bool) : (skipWhile p).Ends fun _ => True := by
  intro c hend _
  refine .inr ⟨(), ?_, trivial⟩
  rw [skipWhile, Border.advanceWhile_of_head fun t ht => by rw [hend] at ht; cases ht]

theorem starves_skipGroup : skipGroup.Starves := by
  intro c hend _
  refine .inl ⟨⟨c.current.start, .unbalancedBrackets⟩, ?_, rfl⟩
  rw [skipGroup, Cursor.skipGroup?, hend]
  rfl

theorem starves_passedText {r : Reader Unit} (hr : r.Starves) : (passedText r).Starves := by
  intro c hend heof
  rcases hr c hend heof with ⟨d, hd, hwants⟩ | ⟨_, _, h⟩
  · refine .inl ⟨d, ?_, hwants⟩
    rw [passedText, hd]
  · exact h.elim

/-- A loop that is started at the end of a text ends with its first round. -/
theorem Ends.iterate {step : σ → Reader (Round σ α)} {s : σ}
    (h : (step s).Ends fun round => ∃ a, round = .done a ∧ P a) : (Reader.iterate step s).Ends P := by
  intro c hend heof
  rw [Reader.iterate, Cursor.bound, iterateFor]
  refine h.bind (fun round hround => ?_) c hend heof
  obtain ⟨a, rfl, hP⟩ := hround
  exact .pure hP

theorem starves_commaSeparated {item : Reader α} (hitem : item.Starves) :
    (commaSeparated item).Starves :=
  Starves.bind (.iterate (Starves.bind hitem))

/-! ## The judgement -/

/-- Reading by itself and in front of what is behind the part comes to the same. -/
def Extends (B : Border) (r r' : Reader α) : Prop :=
  ∀ c c', B.Beside c c' → B.Outcome (r c) (r' c')

/-- The same if both are started in the part and not at its end. -/
def ExtendsInside (B : Border) (r r' : Reader α) : Prop :=
  ∀ c c', B.Beside c c' → c.rest ≠ [] → B.Outcome (r c) (r' c')

/-- The same if both are started at the end of the part. -/
def ExtendsAtEnd (B : Border) (r r' : Reader α) : Prop :=
  ∀ c c', B.Beside c c' → c.rest = [] → B.Outcome (r c) (r' c')

/-- A reader that reads the same by itself. -/
abbrev Local (B : Border) (r : Reader α) : Prop := Extends B r r

variable {r r' : Reader α} {f f' : α → Reader β}

theorem Extends.inside (h : Extends B r r') : ExtendsInside B r r' := fun c c' hc _ => h c c' hc

theorem Extends.atEnd (h : Extends B r r') : ExtendsAtEnd B r r' := fun c c' hc _ => h c c' hc

theorem ExtendsInside.extends (h : ExtendsInside B r r') (hend : ExtendsAtEnd B r r') :
    Extends B r r' := by
  intro c c' hc
  by_cases hrest : c.rest = []
  · exact hend c c' hc hrest
  · exact h c c' hc hrest

/-- Nothing is asked of a reader that fails for want of more. -/
theorem Starves.atEnd (h : r.Starves) (r' : Reader α) : ExtendsAtEnd B r r' := by
  intro c c' hc hend
  rcases h c hend hc.eof with ⟨d, hd, hwants⟩ | ⟨_, _, h⟩
  · rw [hd]
    exact .wants hwants
  · exact h.elim

theorem Extends.bind (hr : Extends B r r') (hf : ∀ a, Extends B (f a) (f' a)) :
    Extends B (r >>= f) (r' >>= f') :=
  fun c c' hc => (hr c c' hc).bind fun a _ _ h => hf a _ _ h

theorem ExtendsInside.bind (hr : ExtendsInside B r r') (hf : ∀ a, Extends B (f a) (f' a)) :
    ExtendsInside B (r >>= f) (r' >>= f') :=
  fun c c' hc hin => (hr c c' hc hin).bind fun a _ _ h => hf a _ _ h

theorem extends_pure (a : α) : Extends B (Pure.pure a) (Pure.pure a) := fun _ _ hc => .same hc

theorem extends_lift (e : Except Diagnostic α) : Local B (liftM e : Reader α) := by
  intro c c' hc
  cases e with
  | error d => exact .fails d
  | ok a => exact .same hc

theorem extends_failAt (p : Position) (fault : Fault) : Local B (failAt p fault : Reader α) :=
  fun _ _ _ => .fails _

theorem extends_unexpected (what : String) : Local B (unexpected what : Reader α) := by
  refine ExtendsInside.extends (fun c c' hc hin => ?_) ((starves_unexpected what).atEnd _)
  rw [unexpected, unexpected, hc.current hin]
  exact .fails _

/-! ### Looking -/

theorem ExtendsInside.current {f f' : Token → Reader β} (h : ∀ t, ExtendsInside B (f t) (f' t)) :
    ExtendsInside B (Reader.current >>= f) (Reader.current >>= f') := by
  intro c c' hc hin
  have hsame := h c.current c c' hc hin
  rw [← congrArg f' (hc.current hin)] at hsame
  exact hsame

theorem ExtendsInside.kind {f f' : TokenKind → Reader β} (h : ∀ k, ExtendsInside B (f k) (f' k)) :
    ExtendsInside B (Reader.kind >>= f) (Reader.kind >>= f') :=
  ExtendsInside.current fun t => h t.kind

theorem ExtendsInside.position {f f' : Position → Reader β}
    (h : ∀ p, ExtendsInside B (f p) (f' p)) :
    ExtendsInside B (Reader.position >>= f) (Reader.position >>= f') :=
  ExtendsInside.current fun t => h t.start

theorem ExtendsInside.isAt {f f' : Bool → Reader β} (h : ∀ b, ExtendsInside B (f b) (f' b)) :
    ExtendsInside B (Reader.isAt k >>= f) (Reader.isAt k >>= f') :=
  ExtendsInside.current fun t => h (t.kind == k)

/-- The end of the part is seen, and the first token behind it. -/
theorem ExtendsAtEnd.kind {f f' : TokenKind → Reader β}
    (h : ∀ k, k.startsPart = true → ExtendsAtEnd B (f .eof) (f' k)) :
    ExtendsAtEnd B (Reader.kind >>= f) (Reader.kind >>= f') := by
  intro c c' hc hend
  obtain ⟨heof, hstarts⟩ := hc.current_end hend
  have hboth := h _ hstarts c c' hc hend
  rw [← heof] at hboth
  exact hboth

/-- No part begins with a token of this kind, so none is seen at the end of the part. -/
theorem ExtendsAtEnd.isAt {f f' : Bool → Reader β} (hk : k.startsPart = false)
    (h : ExtendsAtEnd B (f false) (f' false)) :
    ExtendsAtEnd B (Reader.isAt k >>= f) (Reader.isAt k >>= f') := by
  intro c c' hc hend
  obtain ⟨heof, hstarts⟩ := hc.current_end hend
  have hne : ∀ k', k'.startsPart = true → (k' == k) = false := by
    rintro k' hk'
    rw [beq_eq_false_iff_ne]
    rintro rfl
    rw [hk'] at hk
    cases hk
  change B.Outcome (f (c.current.kind == k) c) (f' (c'.current.kind == k) c')
  rw [hne _ hstarts, heof, hne .eof rfl]
  exact h c c' hc hend

/-- What is seen two tokens ahead does not matter at the end of the part. -/
theorem ExtendsAtEnd.nextKind {f f' : TokenKind → Reader β}
    (h : ∀ k k', ExtendsAtEnd B (f k) (f' k')) :
    ExtendsAtEnd B (Reader.nextKind >>= f) (Reader.nextKind >>= f') :=
  fun c c' hc hend => h _ _ c c' hc hend

/-- Two tokens ahead there is another one of the part, or the end of it and what is behind. In the first
case both tokens may be passed. -/
theorem ExtendsInside.nextKind_pair {f f' : TokenKind → Reader β}
    (h : ∀ k c c', B.Beside c c' → 2 ≤ c.rest.length → B.Outcome (f k c) (f' k c'))
    (hlast : ExtendsInside B (f .eof) (f' .eof)) (hend : ∀ k, k.startsPart = true → f' k = f' .eof) :
    ExtendsInside B (Reader.nextKind >>= f) (Reader.nextKind >>= f') := by
  intro c c' hc hin
  obtain ⟨t, ts, hrest⟩ := List.exists_cons_of_ne_nil hin
  change B.Outcome (f (c.lookahead 1).kind c) (f' (c'.lookahead 1).kind c')
  rw [Cursor.lookahead, Cursor.lookahead, hc.rest, hrest, List.cons_append, List.drop_one,
    List.drop_one, List.tail_cons, List.tail_cons]
  cases ts with
  | nil =>
    rw [List.nil_append, List.headD_nil, hc.stop, hc.stop', B.eof, hend _ B.starts]
    exact hlast c c' hc hin
  | cons u us => exact h u.kind c c' hc (hrest ▸ Nat.le_add_left 2 us.length)

theorem ExtendsInside.nextKind {f f' : TokenKind → Reader β}
    (h : ∀ k, ExtendsInside B (f k) (f' k)) (hend : ∀ k, k.startsPart = true → f' k = f' .eof) :
    ExtendsInside B (Reader.nextKind >>= f) (Reader.nextKind >>= f') :=
  .nextKind_pair (fun k c c' hc htwo => h k c c' hc (List.ne_nil_of_length_pos (by omega))) (h .eof)
    hend

theorem Extends.kind {f f' : TokenKind → Reader β} (h : ∀ k, ExtendsInside B (f k) (f' k))
    (hend : ∀ k, k.startsPart = true → ExtendsAtEnd B (f .eof) (f' k)) :
    Extends B (Reader.kind >>= f) (Reader.kind >>= f') :=
  (ExtendsInside.kind h).extends (.kind hend)

theorem Extends.kind_of_starves {f f' : TokenKind → Reader β}
    (h : ∀ k, ExtendsInside B (f k) (f' k)) (hend : (f .eof).Starves) :
    Extends B (Reader.kind >>= f) (Reader.kind >>= f') :=
  .kind h fun _ _ => hend.atEnd _

theorem Extends.position {f f' : Position → Reader β} (h : ∀ p, ExtendsInside B (f p) (f' p))
    (hend : ∀ p, (f p).Starves) :
    Extends B (Reader.position >>= f) (Reader.position >>= f') :=
  (ExtendsInside.position h).extends (Starves.atEnd (.position hend) _)

theorem Extends.isAt {f f' : Bool → Reader β} (hk : k.startsPart = false)
    (h : ∀ b, ExtendsInside B (f b) (f' b)) (hend : ExtendsAtEnd B (f false) (f' false)) :
    Extends B (Reader.isAt k >>= f) (Reader.isAt k >>= f') :=
  (ExtendsInside.isAt h).extends (.isAt hk hend)

/-- The rule where neither way of going on passes a token without having seen it. -/
theorem Extends.isAt_all {f f' : Bool → Reader β} (hk : k.startsPart = false)
    (h : ∀ b, Extends B (f b) (f' b)) : Extends B (Reader.isAt k >>= f) (Reader.isAt k >>= f') :=
  .isAt hk (fun b => (h b).inside) (h false).atEnd

/-! ### Moving on -/

theorem extendsInside_advance : ExtendsInside B advance advance :=
  fun _ _ hc hin => .same (hc.advance hin)

theorem extends_accept (hk : k.startsPart = false) : Local B (accept k) := by
  rw [accept]
  refine .isAt hk (fun b => ?_) (extends_pure false).atEnd
  split
  · exact extendsInside_advance.bind fun _ => extends_pure true
  · exact (extends_pure false).inside

theorem extends_acceptWord {w : String} (hw : (TokenKind.word w).startsPart = false) :
    Local B (acceptWord w) :=
  extends_accept hw

/-- A token with which a part may begin is accepted, and without it more is wanted. -/
theorem Extends.accept {f f' : Bool → Reader β} (hk : k ≠ .eof) (h : ∀ b, Extends B (f b) (f' b))
    (hend : (f false).Starves) : Extends B (Reader.accept k >>= f) (Reader.accept k >>= f') := by
  have hin : ExtendsInside B (Reader.accept k) (Reader.accept k) := by
    rw [Reader.accept]
    refine .isAt fun b => ?_
    split
    · exact extendsInside_advance.bind fun _ => extends_pure true
    · exact (extends_pure false).inside
  refine (hin.bind h).extends (Starves.atEnd ?_ _)
  exact (ends_accept hk).bind fun b hb => hb ▸ hend

theorem extends_expect (hk : k ≠ .eof) (what : String) : Local B (expect k what) := by
  refine ExtendsInside.extends ?_ ((starves_expect hk what).atEnd _)
  rw [expect]
  refine .isAt fun b => ?_
  split
  · exact extendsInside_advance
  · exact (extends_unexpected what).inside

theorem extends_expectWord (w : String) : Local B (expectWord w) :=
  extends_expect TokenKind.noConfusion _

theorem extends_expectComma : Local B expectComma := extends_expect TokenKind.noConfusion _

theorem extends_expectNumber (bound : Nat) (what : String) : Local B (expectNumber bound what) := by
  rw [expectNumber]
  refine .kind_of_starves (fun k => ?_) (starves_unexpected what)
  split
  · split
    · exact extendsInside_advance.bind fun _ => extends_pure _
    · exact (extends_unexpected what).inside
  · exact (extends_unexpected what).inside

/-- Where no part begins with what is passed, passing stops at the end of the part. -/
theorem extends_skipWhile {p : Token → Bool} (hp : ∀ t, t.kind.startsPart = true → p t = false) :
    Local B (skipWhile p) := by
  refine fun c c' hc => .same (hc.advanceWhile (.inr fun b hb => hp b ?_))
  have hstarts := B.starts
  rwa [List.headD_eq_head?_getD, hb] at hstarts

/-- The words are none that a part begins with. -/
theorem extends_skipWords {ws : List String}
    (hws : ws.all fun w => !(TokenKind.word w).startsPart) : Local B (skipWords ws) := by
  refine extends_skipWhile fun t ht => ?_
  rw [isWordOf]
  split
  · next w hw =>
    rw [hw] at ht
    cases hmem : ws.contains w with
    | false => rfl
    | true =>
      have hno := List.all_eq_true.mp hws w (List.contains_iff_mem.mp hmem)
      rw [ht] at hno
      cases hno
  · rfl

theorem extendsInside_skipLine : ExtendsInside B skipLine skipLine :=
  fun _ _ hc hin => .same (hc.skipLine hin)

theorem extends_skipRestOfLine : Local B skipRestOfLine := fun _ _ hc => .same hc.skipRestOfLine

theorem extends_skipGroup : Local B skipGroup := by
  intro c c' hc
  rw [skipGroup, skipGroup, Cursor.skipGroup?, Cursor.skipGroup?, hc.rest]
  cases hgroup : Cursor.skipBrackets [] c c.rest with
  | none => exact .wants rfl
  | some later =>
    obtain ⟨later', hgroup', hlater⟩ := hc.skipBrackets rfl hgroup
    rw [hgroup']
    exact .same hlater

theorem Extends.passedText {r r' : Reader Unit} (hr : Extends B r r') :
    Extends B (Reader.passedText r) (Reader.passedText r') := by
  intro c c' hc
  have hresult := hr c c' hc
  rw [Reader.passedText, Reader.passedText]
  generalize r c = x at hresult ⊢
  generalize r' c' = x' at hresult ⊢
  cases hresult with
  | same h =>
    dsimp only
    rw [hc.textUpTo h]
    exact .same h
  | refused h => exact .refused h
  | wants h => exact .wants h

/-- Two tokens that are there are passed. -/
theorem outcome_advance_two {c c' : Cursor} (hc : B.Beside c c') (htwo : 2 ≤ c.rest.length)
    {f f' : Unit → Reader β} (hf : Extends B (f ()) (f' ())) :
    B.Outcome ((Reader.advance >>= fun _ => Reader.advance >>= f) c)
      ((Reader.advance >>= fun _ => Reader.advance >>= f') c') := by
  have hin : c.rest ≠ [] := List.ne_nil_of_length_pos (by omega)
  obtain ⟨t, ts, hrest⟩ := List.exists_cons_of_ne_nil hin
  have hnext : c.advance.rest ≠ [] := by
    rw [Cursor.advance, hrest]
    rw [hrest, List.length_cons] at htwo
    exact List.ne_nil_of_length_pos (Nat.le_of_succ_le_succ htwo)
  exact hf _ _ ((hc.advance hin).advance hnext)

/-- A comma belongs to what follows it if that is something with which no part begins. -/
theorem Extends.item {starts : TokenKind → Bool} {yes yes' no no' : Reader α}
    (hstarts : ∀ k, k.startsPart = true → starts k = false) (hyes : Extends B yes yes')
    (hno : Extends B no no') :
    Extends B
      (Reader.isAt .comma >>= fun more => Reader.nextKind >>= fun k =>
        if (more && starts k) = true then Reader.advance >>= fun _ => yes else no)
      (Reader.isAt .comma >>= fun more => Reader.nextKind >>= fun k =>
        if (more && starts k) = true then Reader.advance >>= fun _ => yes' else no') := by
  refine .isAt rfl (fun more => .nextKind (fun k => ?_) fun k hk => ?_) ?_
  · split
    · exact extendsInside_advance.bind fun _ => hyes
    · exact hno.inside
  · rw [hstarts k hk, hstarts .eof rfl]
  · exact .nextKind fun k k' => hno.atEnd

/-! ### Loops -/

/-- The rule for two loops, of which the second may have more rounds left. What holds of a loop that has
none left, and of a round and what follows it whenever it holds of what follows, holds of both loops. -/
theorem iterateFor_rule {P : Reader α → Reader α → Prop} {step step' : σ → Reader (Round σ α)}
    (hstalls : ∀ r r', (∀ c, r c = .error ⟨c.current.start, .stalled⟩) → P r r')
    (hround : ∀ k k' : Round σ α → Reader α, (∀ s, P (k (.again s)) (k' (.again s))) →
      (∀ a, k (.done a) = Pure.pure a ∧ k' (.done a) = Pure.pure a) →
      ∀ s, P (step s >>= k) (step' s >>= k'))
    {bound bound' : List Token} (hbound : bound.length ≤ bound'.length) (s : σ) :
    P (iterateFor step bound s) (iterateFor step' bound' s) := by
  induction bound generalizing bound' s with
  | nil => exact hstalls _ _ fun _ => rfl
  | cons t bound ih =>
    obtain ⟨t', bound', rfl⟩ : ∃ t' bound'', bound' = t' :: bound'' :=
      List.exists_cons_of_length_pos (Nat.lt_of_lt_of_le (Nat.succ_pos _) hbound)
    rw [iterateFor, iterateFor]
    exact hround _ _ (fun s => ih (Nat.le_of_succ_le_succ hbound) s) (fun _ => ⟨rfl, rfl⟩) s

/-- The loop by itself may have fewer rounds left than the other one. If it uses them up, it wants
more. -/
theorem Extends.iterate {step step' : σ → Reader (Round σ α)}
    (hstep : ∀ s, Extends B (step s) (step' s)) (s : σ) :
    Extends B (Reader.iterate step s) (Reader.iterate step' s) := by
  have hloop : ∀ {bound bound' : List Token}, bound.length ≤ bound'.length →
      Extends B (iterateFor step bound s) (iterateFor step' bound' s) := by
    intro bound bound' hbound
    refine iterateFor_rule (P := Extends B) (fun r r' hstalls c c' _ => ?_)
      (fun k k' hagain hdone s => (hstep s).bind fun round => ?_) hbound s
    · rw [hstalls]
      exact .wants rfl
    · cases round with
      | again s' => exact hagain s'
      | done a =>
        rw [(hdone a).1, (hdone a).2]
        exact extends_pure a
  exact fun c c' hc => hloop hc.bound_length_le c c' hc

theorem Extends.commaSeparated {item item' : Reader α} (hitem : Extends B item item') :
    Extends B (Reader.commaSeparated item) (Reader.commaSeparated item') := by
  rw [Reader.commaSeparated, Reader.commaSeparated]
  refine Extends.bind (.iterate (fun items => hitem.bind fun a => ?_) #[]) fun _ => extends_pure _
  refine (extends_accept rfl).bind fun more => ?_
  split <;> exact extends_pure _

/-! ## Readers that may stray -/

/-- Both runs come to the same, or else the first one has come to the end of the part, with an answer
that satisfies `P`. -/
def Strays (B : Border) (P : α → Prop) (r r' : Reader α) : Prop :=
  ∀ c c', B.Beside c c' → B.Outcome (r c) (r' c')
    ∨ ∃ a c₁, r c = .ok (a, c₁) ∧ c₁.rest = [] ∧ c₁.stop.kind = .eof ∧ P a

theorem Extends.strays (h : Extends B r r') : Strays B P r r' := fun c c' hc => .inl (h c c' hc)

theorem Strays.bind {P : α → Prop} (hr : Strays B P r r') (hf : ∀ a, Strays B Q (f a) (f' a))
    (hend : ∀ a, P a → (f a).Ends Q) : Strays B Q (r >>= f) (r' >>= f') := by
  intro c c' hc
  rcases hr c c' hc with hsame | ⟨a, c₁, ha, hc₁, heof, hP⟩
  · have hboth : ∀ {e : Except Diagnostic (α × Cursor)} {e'}, B.Outcome e e' → r c = e → r' c' = e' →
        B.Outcome ((r >>= f) c) ((r' >>= f') c') ∨ ∃ b c₂, (r >>= f) c = .ok (b, c₂) ∧ c₂.rest = []
          ∧ c₂.stop.kind = .eof ∧ Q b := by
      intro e e' h he he'
      simp only [Bind.bind, StateT.bind, he, he', Except.bind]
      cases h with
      | same h => exact hf _ _ _ h
      | refused h => exact .inl (.refused h)
      | wants h => exact .inl (.wants h)
    exact hboth hsame rfl rfl
  · rw [bind_of_ok ha]
    rcases hend a hP c₁ hc₁ heof with ⟨d, hd, hwants⟩ | ⟨b, hb, hQ⟩
    · rw [hd]
      exact .inl (.wants hwants)
    · exact .inr ⟨b, c₁, hb, hc₁, heof, hQ⟩

/-- A reader may stray if what follows it wants more at the end of the part. -/
theorem Strays.extends (hr : Strays B P r r') (hf : ∀ a, Extends B (f a) (f' a))
    (hend : ∀ a, P a → (f a).Starves) : Extends B (r >>= f) (r' >>= f') := by
  intro c c' hc
  rcases hr.bind (fun a => (hf a).strays) hend c c' hc with h | ⟨_, _, _, _, _, hfalse⟩
  · exact h
  · exact hfalse.elim

/-- A loop may stray in its last round. -/
theorem Strays.iterate {step step' : σ → Reader (Round σ α)}
    (hstep : ∀ s, Strays B (fun round => ∃ a, round = .done a ∧ P a) (step s) (step' s)) (s : σ) :
    Strays B P (Reader.iterate step s) (Reader.iterate step' s) := by
  have hloop : ∀ {bound bound' : List Token}, bound.length ≤ bound'.length →
      Strays B P (iterateFor step bound s) (iterateFor step' bound' s) := by
    intro bound bound' hbound
    refine iterateFor_rule (P := Strays B P) (fun r r' hstalls c c' _ => .inl ?_)
      (fun k k' hagain hdone s => (hstep s).bind (fun round => ?_) ?_) hbound s
    · rw [hstalls]
      exact .wants rfl
    · cases round with
      | again s' => exact hagain s'
      | done a =>
        rw [(hdone a).1, (hdone a).2]
        exact (extends_pure a).strays
    · rintro _ ⟨a, rfl, hP⟩
      rw [(hdone a).1]
      exact .pure hP
  exact fun c c' hc => hloop hc.bound_length_le c c' hc

theorem ExtendsInside.strays (h : ExtendsInside B r r') (hend : r.Ends P) : Strays B P r r' := by
  intro c c' hc
  by_cases hrest : c.rest = []
  · rcases hend c hrest hc.eof with ⟨d, hd, hwants⟩ | ⟨a, ha, hP⟩
    · rw [hd]
      exact .inl (.wants hwants)
    · exact .inr ⟨a, c, ha, hrest, hc.eof, hP⟩
  · exact .inl (h c c' hc hrest)

theorem Strays.position {f f' : Position → Reader β} (h : ∀ p, Strays B Q (f p) (f' p))
    (hend : ∀ p, (f p).Starves) : Strays B Q (Reader.position >>= f) (Reader.position >>= f') := by
  intro c c' hc
  by_cases hrest : c.rest = []
  · exact .inl (Starves.atEnd (.position hend) _ c c' hc hrest)
  · have hsame := h c.current.start c c' hc
    rw [← congrArg (fun t : Token => f' t.start) (hc.current hrest)] at hsame
    exact hsame

/-- The part may be passed as a whole. -/
theorem strays_skipWhile (p : Token → Bool) :
    Strays B (fun _ => True) (skipWhile p) (skipWhile p) := by
  intro c c' hc
  by_cases hall : ∀ t ∈ c.rest, p t = true
  · refine .inr ⟨(), _, rfl, ?_, ?_, trivial⟩
    · rw [Cursor.advanceWhile, Cursor.advanceWhileIn_eq]
      exact List.dropWhile_eq_nil_iff.mpr hall
    · rw [Cursor.advanceWhile, Cursor.advanceWhileIn_eq]
      exact hc.eof
  · simp only [not_forall, Bool.not_eq_true, exists_prop] at hall
    exact .inl (.same (hc.advanceWhile (.inl hall)))

/-- One round of `skipAttributes`. -/
def skipAttribute (isAttribute takesNumber : String → Bool) : Reader (Round Unit Unit) := do
  match ← kind with
  | .word w =>
    if isAttribute w then
      advance
      match ← kind with
      | .opener .round => skipGroup
      | .int _ => if takesNumber w then advance
      | _ => pure ()
      return .again ()
    else return .done ()
  | _ => return .done ()

variable {isAttribute takesNumber : String → Bool}

theorem skipAttributes_eq (isAttribute takesNumber : String → Bool) :
    skipAttributes isAttribute takesNumber
      = iterate (fun () => skipAttribute isAttribute takesNumber) () := rfl

theorem extendsInside_skipAttribute :
    ExtendsInside B (skipAttribute isAttribute takesNumber)
      (skipAttribute isAttribute takesNumber) := by
  rw [skipAttribute]
  refine .kind fun k => ?_
  split
  · split
    · refine extendsInside_advance.bind fun _ => .kind (fun k => ?_) fun k hk => ?_
      · split
        · exact (extends_skipGroup.bind fun _ => extends_pure _).inside
        · split
          · exact extendsInside_advance.bind fun _ => extends_pure _
          · exact (extends_pure _).inside
        · exact (extends_pure _).inside
      · -- Neither a group nor a numeral is a part.
        cases k
        all_goals first | exact (extends_pure _).atEnd | cases hk
    · exact (extends_pure _).inside
  · exact (extends_pure _).inside

theorem strays_skipAttributes (isAttribute takesNumber : String → Bool) :
    Strays B (fun _ => True) (skipAttributes isAttribute takesNumber)
      (skipAttributes isAttribute takesNumber) := by
  rw [skipAttributes_eq]
  refine .iterate (fun _ => extendsInside_skipAttribute.strays ?_) ()
  exact .kind (.pure ⟨(), rfl, trivial⟩)

end Reader

end IrRecords
