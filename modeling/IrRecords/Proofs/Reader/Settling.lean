import IrRecords.Proofs.Reader.Passes
import IrRecords.Proofs.Reader.Borders
import IrRecords.Proofs.Ty.Reading

/-!
# How readers end

A reader answers or it fails, and both ways are bounded by the text it runs on. `Reader.Settles` is
the judgement for this. Where a reader starts inside the tokens of a text it stops inside them, and
its postcondition tells the answer and how many tokens are still ahead. Where it fails, it fails at
a position of the text, for a fault that makes sense: a loop that does not get to its end
(`Fault.stalled`) is none, and neither is a clash of a type with itself.

The positions of a text are taken from a `Scene`, which marks the starts of its tokens and maybe
others. Readers keep positions in their answers and fail at them much later, so a postcondition also
says that the positions in an answer are marked; `Reader.Within` is the usual one.

A loop needs no invariant to end. Every round that is not the last one leaves fewer tokens ahead than
it found (`RoundWithin`), and the row of tokens that bounds the loop is longer than the row ahead.
-/

namespace IrRecords

/-- The fault is one that a source text can have. -/
def Fault.IsSound : Fault → Prop
  | .stalled => False
  | .typeMismatch _ defined used => defined ≠ used
  | _ => True

/-- The tokens of a text, and positions among which are the starts of all of them. -/
structure Scene where
  stream : Token.Stream
  Marked : Position → Prop
  eof : stream.stop.kind = .eof
  starts : ∀ t ∈ stream.tokens ++ [stream.stop], Marked t.start

namespace Scene

variable {α : Type} {S : Scene} {c c' : Cursor} {ts : List Token}

/-- The cursor stands between two tokens of the text. -/
structure Holds (S : Scene) (c : Cursor) : Prop where
  rest : c.rest <:+ S.stream.tokens
  stop : c.stop = S.stream.stop

/-- The diagnostic tells a sound fault at a marked position. -/
structure Excuses (S : Scene) (d : Diagnostic) : Prop where
  position : S.Marked d.position
  fault : d.fault.IsSound

/-- The result is a failure that the scene excuses, or it satisfies `P`. -/
def Allows (S : Scene) (P : α → Prop) : Except Diagnostic α → Prop
  | .error d => S.Excuses d
  | .ok a => P a

/-- The result of a reader is a failure that the scene excuses, or an answer and a cursor inside the
text; `Q` is asked of the answer and of the number of tokens ahead of the cursor. -/
def Admits (S : Scene) (Q : α → Nat → Prop) (result : Except Diagnostic (α × Cursor)) : Prop :=
  S.Allows (fun r => S.Holds r.2 ∧ Q r.1 r.2.remaining) result

theorem Allows.bind {β : Type} {P : α → Prop} {Q : β → Prop} {e : Except Diagnostic α}
    {f : α → Except Diagnostic β} (he : S.Allows P e) (hf : ∀ a, P a → S.Allows Q (f a)) :
    S.Allows Q (e >>= f) := by
  cases e with
  | error d => exact he
  | ok a => exact hf a he

theorem Allows.mono {P P' : α → Prop} {e : Except Diagnostic α} (he : S.Allows P e)
    (h : ∀ a, P a → P' a) : S.Allows P' e := by
  cases e with
  | error d => exact he
  | ok a => exact h a he

/-- The cursor in front of a text. -/
theorem holds_start (S : Scene) : S.Holds ⟨none, S.stream.tokens, S.stream.stop⟩ :=
  ⟨List.suffix_rfl, rfl⟩

/-- The tokens ahead of a cursor, for statements about no positions. -/
def around (c : Cursor) (hstop : c.stop.kind = .eof) : Scene where
  stream := ⟨c.rest, c.stop⟩
  Marked _ := True
  eof := hstop
  starts _ _ := trivial

theorem holds_around (c : Cursor) (hstop : c.stop.kind = .eof) : (around c hstop).Holds c :=
  ⟨List.suffix_rfl, rfl⟩

theorem Holds.eof (h : S.Holds c) : c.stop.kind = .eof := h.stop ▸ S.eof

/-- Going forward does not leave the text. -/
theorem Holds.of_reaches (h : S.Holds c) (hts : c.Reaches ts c') :
    S.Holds c' ∧ c'.remaining + ts.length = c.remaining := by
  refine ⟨⟨?_, hts.stop.trans h.stop⟩, ?_⟩
  · exact (hts.rest ▸ List.suffix_append ts c'.rest).trans h.rest
  · rw [Cursor.remaining, Cursor.remaining, hts.rest, List.length_append, Nat.add_comm]

/-- The token ahead is a token of the text. -/
theorem Holds.current_mem (h : S.Holds c) : c.current ∈ S.stream.tokens ++ [S.stream.stop] := by
  have hrest := h.rest
  rw [Cursor.current]
  cases hc : c.rest with
  | nil => exact List.mem_append_right _ (List.mem_singleton.mpr h.stop)
  | cons t rest =>
    rw [hc] at hrest
    exact List.mem_append_left _ (hrest.subset List.mem_cons_self)

theorem Holds.marked (h : S.Holds c) : S.Marked c.current.start := S.starts _ h.current_mem

/-- Unless the text has ended, there is a token ahead. -/
theorem Holds.remaining_pos (h : S.Holds c) (hc : c.current.kind ≠ .eof) : 0 < c.remaining := by
  rw [Cursor.remaining, Cursor.exists_rest h.eof hc]
  exact Nat.succ_pos _

theorem Holds.advance (h : S.Holds c) : S.Holds c.advance := by
  rw [Cursor.advance]
  split
  · exact h
  · next t rest hrest =>
    exact ⟨(List.suffix_cons t rest).trans (hrest ▸ h.rest), h.stop⟩

end Scene

namespace Cursor

theorem remaining_advance (c : Cursor) : c.advance.remaining = c.remaining - 1 := by
  rw [advance]
  split
  · next hrest => rw [remaining, hrest]; rfl
  · next t rest hrest => rw [remaining, remaining, hrest]; rfl

/-- A bracketed group has a token at least. -/
theorem exists_reaches_skipBrackets {c later : Cursor} {S : List Bracket} {ts : List Token}
    (hts : c.rest = ts) (h : skipBrackets S c ts = some later) :
    ∃ us, c.Reaches us later ∧ us ≠ [] := by
  induction ts generalizing c S with
  | nil => rw [skipBrackets] at h; cases h
  | cons t ts ih =>
    have hfirst : c.Reaches [t] { c with lastLine? := some t.line, rest := ts } := ⟨hts, rfl, rfl⟩
    rw [skipBrackets] at h
    split at h
    · cases h
      exact ⟨[t], hfirst, List.cons_ne_nil _ _⟩
    · obtain ⟨us, hus, _⟩ := ih rfl h
      exact ⟨t :: us, hfirst.trans hus, List.cons_ne_nil _ _⟩

end Cursor

namespace Reader

variable {α β σ : Type} {S : Scene} {n : Nat} {P : α → Prop} {Q : α → Nat → Prop}
  {R : β → Nat → Prop} {P' : β → Prop}

/-! ## The judgement -/

/-- Wherever `r` starts in the text with `n` tokens ahead, its result is one that the scene
admits. -/
def Settles (S : Scene) (n : Nat) (r : Reader α) (Q : α → Nat → Prop) : Prop :=
  ∀ c, S.Holds c → c.remaining = n → S.Admits Q (r c)

/-- There are no more than `n` tokens ahead, and the answer satisfies `P`. -/
def Within (n : Nat) (P : α → Prop) : α → Nat → Prop := fun a m => m ≤ n ∧ P a

/-- A round that is not the last one leaves fewer tokens ahead. -/
def RoundWithin (n : Nat) (I : σ → Prop) (P : α → Prop) : Round σ α → Nat → Prop
  | .again s, m => m < n ∧ I s
  | .done a, m => m ≤ n ∧ P a

/-- The reader settles wherever it starts, and goes forward. -/
def Goes (S : Scene) (r : Reader α) (P : α → Prop) : Prop := ∀ n, Settles S n r (Within n P)

/-- The same wherever fewer than `n` tokens are ahead. -/
def GoesBelow (S : Scene) (n : Nat) (r : Reader α) (P : α → Prop) : Prop :=
  ∀ m, m < n → Settles S m r (Within m P)

theorem Settles.mono {r : Reader α} {Q' : α → Nat → Prop} (hr : Settles S n r Q)
    (h : ∀ a m, Q a m → Q' a m) : Settles S n r Q' := by
  intro c hc hn
  have hresult := hr c hc hn
  revert hresult
  cases r c with
  | error d => exact id
  | ok result => exact fun hresult => ⟨hresult.1, h _ _ hresult.2⟩

theorem Goes.mono {r : Reader α} {P₁ : α → Prop} (hr : Goes S r P) (h : ∀ a, P a → P₁ a) :
    Goes S r P₁ :=
  fun n => (hr n).mono fun a _ ha => ⟨ha.1, h a ha.2⟩

/-! ## Sequencing -/

theorem Settles.pure {a : α} (h : Q a n) : Settles S n (Pure.pure a) Q :=
  fun _ hc hn => ⟨hc, hn ▸ h⟩

/-- The rule for sequencing. -/
theorem Settles.bind {r : Reader α} {f : α → Reader β} (hr : Settles S n r Q)
    (hf : ∀ a m, Q a m → Settles S m (f a) R) : Settles S n (r >>= f) R := by
  intro c hc hn
  have hfirst := hr c hc hn
  revert hfirst
  simp only [Bind.bind, StateT.bind]
  cases r c with
  | error d => exact id
  | ok result => exact fun hfirst => hf _ _ hfirst.2 _ hfirst.1 rfl

theorem Goes.pure {a : α} (h : P a) : Goes S (Pure.pure a) P := fun _ => .pure ⟨Nat.le_refl _, h⟩

theorem Goes.below {r : Reader α} (hr : Goes S r P) : GoesBelow S n r P := fun m _ => hr m

theorem GoesBelow.pure {a : α} (h : P a) : GoesBelow S n (Pure.pure a) P := (Goes.pure h).below

theorem GoesBelow.bind {r : Reader α} {f : α → Reader β} (hr : GoesBelow S n r P)
    (hf : ∀ a, P a → GoesBelow S n (f a) P') : GoesBelow S n (r >>= f) P' :=
  fun m hm => (hr m hm).bind fun a k h =>
    (hf a h.2 k (Nat.lt_of_le_of_lt h.1 hm)).mono fun _ _ hb => ⟨Nat.le_trans hb.1 h.1, hb.2⟩

theorem GoesBelow.skip {r : Reader α} {f : α → Reader β} (hr : GoesBelow S n r P)
    (hf : ∀ a, GoesBelow S n (f a) P') : GoesBelow S n (r >>= f) P' :=
  hr.bind fun a _ => hf a

theorem GoesBelow.goes {r : Reader α} (h : ∀ n, GoesBelow S n r P) : Goes S r P :=
  fun n => h (n + 1) n (Nat.lt_succ_self n)

theorem Goes.bind {r : Reader α} {f : α → Reader β} (hr : Goes S r P)
    (hf : ∀ a, P a → Goes S (f a) P') : Goes S (r >>= f) P' :=
  GoesBelow.goes fun _ => hr.below.bind fun a ha => (hf a ha).below

/-- The rule for sequencing after a reader whose answer does not matter. -/
theorem Goes.skip {r : Reader α} {f : α → Reader β} (hr : Goes S r P)
    (hf : ∀ a, Goes S (f a) P') : Goes S (r >>= f) P' :=
  hr.bind fun a _ => hf a

/-- A reader that starts with at most `n` tokens ahead settles within them. -/
theorem Goes.within {r : Reader α} {m : Nat} (hr : Goes S r P) (h : m ≤ n) :
    Settles S m r (Within n P) :=
  (hr m).mono fun _ _ ha => ⟨Nat.le_trans ha.1 h, ha.2⟩

/-- A computation that reads nothing leaves the tokens as they are. -/
theorem Goes.lift {e : Except Diagnostic α} (h : S.Allows P e) : Goes S (liftM e : Reader α) P := by
  intro n c hc hn
  cases e with
  | error d => exact h
  | ok a => exact ⟨hc, Nat.le_of_eq hn, h⟩

/-! ## Looking -/

theorem goes_current : Goes S current fun _ => True :=
  fun _ _ hc hn => ⟨hc, Nat.le_of_eq hn, trivial⟩

theorem goes_kind : Goes S kind fun _ => True :=
  fun _ _ hc hn => ⟨hc, Nat.le_of_eq hn, trivial⟩

theorem goes_nextKind : Goes S nextKind fun _ => True :=
  fun _ _ hc hn => ⟨hc, Nat.le_of_eq hn, trivial⟩

theorem goes_isAt (k : TokenKind) : Goes S (isAt k) fun _ => True :=
  fun _ _ hc hn => ⟨hc, Nat.le_of_eq hn, trivial⟩

/-- The position of the token ahead is marked. -/
theorem goes_position : Goes S position S.Marked :=
  fun _ _ hc hn => ⟨hc, Nat.le_of_eq hn, hc.marked⟩

/-- Looking leaves all tokens ahead, and there is one unless the text has ended. -/
theorem settles_kind : Settles S n kind fun k m => m = n ∧ (k ≠ .eof → 0 < n) :=
  fun _ hc hn => ⟨hc, hn, fun h => hn ▸ hc.remaining_pos h⟩

theorem settles_nextKind : Settles S n nextKind fun _ m => m = n := fun _ hc hn => ⟨hc, hn⟩

theorem settles_isAt {k : TokenKind} (hk : k ≠ .eof) :
    Settles S n (isAt k) fun b m => m = n ∧ (b = true → 0 < n) :=
  fun _ hc hn => ⟨hc, hn, fun h => hn ▸ hc.remaining_pos (beq_iff_eq.mp h ▸ hk)⟩

/-- Where the text has not ended there is a token ahead. -/
theorem settles_isAt_eof : Settles S n (isAt .eof) fun b m => m = n ∧ (b = false → 0 < n) :=
  fun _ hc hn => ⟨hc, hn, fun h => hn ▸ hc.remaining_pos (beq_eq_false_iff_ne.mp h)⟩

/-! ## Failing -/

theorem Settles.failAt {p : Position} {fault : Fault} (hp : S.Marked p) (hfault : fault.IsSound) :
    Settles S n (failAt p fault : Reader α) Q :=
  fun _ _ _ => ⟨hp, hfault⟩

theorem Settles.unexpected {what : String} : Settles S n (unexpected what : Reader α) Q :=
  fun _ hc _ => ⟨hc.marked, trivial⟩

theorem Goes.failAt {p : Position} {fault : Fault} (hp : S.Marked p) (hfault : fault.IsSound) :
    Goes S (Reader.failAt p fault : Reader α) P :=
  fun _ => .failAt hp hfault

theorem Goes.unexpected {what : String} : Goes S (Reader.unexpected what : Reader α) P :=
  fun _ => .unexpected

/-! ## Moving on -/

/-- One token is passed, unless the text has ended. -/
theorem settles_advance : Settles S n advance fun _ m => m = n - 1 :=
  fun c hc hn => ⟨hc.advance, by rw [c.remaining_advance, hn]⟩

theorem goes_advance : Goes S advance fun _ => True :=
  fun _ => settles_advance.mono fun _ _ hm => ⟨by omega, trivial⟩

/-- A reader that always answers, and passes tokens only. -/
theorem goes_of_reaches {r : Reader Unit} {go : Cursor → Cursor} (hr : ∀ c, r c = .ok ((), go c))
    (h : ∀ c : Cursor, ∃ ts, c.Reaches ts (go c)) : Goes S r fun _ => True := by
  intro n c hc hn
  obtain ⟨ts, hts⟩ := h c
  obtain ⟨hlater, hlength⟩ := hc.of_reaches hts
  have hle : (go c).remaining ≤ n := by omega
  rw [hr]
  exact ⟨hlater, hle, trivial⟩

theorem goes_skipWhile (p : Token → Bool) : Goes S (skipWhile p) fun _ => True :=
  goes_of_reaches (fun _ => rfl) fun c => ⟨_, c.reaches_advanceWhile p⟩

theorem goes_skipWords (ws : List String) : Goes S (skipWords ws) fun _ => True :=
  goes_skipWhile _

theorem goes_skipRestOfLine : Goes S skipRestOfLine fun _ => True :=
  goes_of_reaches (fun _ => rfl) fun c => by
    obtain ⟨ts, hts, _⟩ := c.reaches_skipRestOfLine
    exact ⟨ts, hts⟩

/-- The token ahead is passed if it satisfies the test. -/
theorem holds_advanceWhile {c : Cursor} {p : Token → Bool} (hc : S.Holds c)
    (hpos : 0 < c.remaining) (hp : p c.current = true) :
    S.Holds (c.advanceWhile p) ∧ (c.advanceWhile p).remaining < c.remaining := by
  obtain ⟨hlater, hlength⟩ := hc.of_reaches (c.reaches_advanceWhile p)
  have hne : c.rest.takeWhile p ≠ [] := by
    cases hrest : c.rest with
    | nil => rw [Cursor.remaining, hrest] at hpos; cases hpos
    | cons t rest =>
      have ht : p t = true := by rwa [Cursor.current, hrest] at hp
      rw [List.takeWhile_cons_of_pos ht]
      exact List.cons_ne_nil _ _
  have := List.length_pos_iff.mpr hne
  exact ⟨hlater, by omega⟩

/-- A line has the token in it that it is passed from. -/
theorem settles_skipLine (hn : 0 < n) : Settles S n skipLine fun _ m => m < n :=
  fun _ hc hcn => hcn ▸ holds_advanceWhile hc (hcn ▸ hn) (beq_self_eq_true _)

/-- A group in brackets is passed as a whole, or the text fails at its opening bracket. -/
theorem settles_skipGroup : Settles S n skipGroup fun _ m => m < n := by
  intro c hc hn
  rw [skipGroup]
  cases hgroup : c.skipGroup? with
  | none => exact ⟨hc.marked, trivial⟩
  | some later =>
    obtain ⟨ts, hts, hne⟩ := Cursor.exists_reaches_skipBrackets rfl hgroup
    obtain ⟨hlater, hlength⟩ := hc.of_reaches hts
    have hpos := List.length_pos_iff.mpr hne
    have hlt : later.remaining < n := by omega
    exact ⟨hlater, hlt⟩

theorem goes_skipGroup : Goes S skipGroup fun _ => True :=
  fun _ => settles_skipGroup.mono fun _ _ h => ⟨Nat.le_of_lt h, trivial⟩

/-- What is accepted is passed. -/
theorem settles_accept {k : TokenKind} (hk : k ≠ .eof) :
    Settles S n (accept k) fun b m => m ≤ n ∧ (b = true → m < n) := by
  rw [accept]
  refine (settles_isAt hk).bind fun b m h => ?_
  obtain ⟨rfl, hpos⟩ := h
  cases b with
  | true =>
    refine settles_advance.bind fun _ m' hm' => .pure ?_
    have := hpos rfl
    exact ⟨by omega, fun _ => by omega⟩
  | false => exact .pure ⟨Nat.le_refl _, fun h => by cases h⟩

theorem goes_accept (k : TokenKind) : Goes S (accept k) fun _ => True := by
  rw [accept]
  refine (goes_isAt k).skip fun b => ?_
  cases b with
  | true => exact goes_advance.skip fun _ => .pure trivial
  | false => exact .pure trivial

theorem goes_acceptWord (w : String) : Goes S (acceptWord w) fun _ => True := goes_accept _

/-- What is expected is passed, or the text fails in front of it. -/
theorem settles_expect {k : TokenKind} (hk : k ≠ .eof) (what : String) :
    Settles S n (expect k what) fun _ m => m < n := by
  rw [expect]
  refine (settles_isAt hk).bind fun b m h => ?_
  obtain ⟨rfl, hpos⟩ := h
  cases b with
  | true =>
    have := hpos rfl
    exact settles_advance.mono fun _ m' hm' => by omega
  | false => exact .unexpected

theorem goes_expect (k : TokenKind) (what : String) : Goes S (expect k what) fun _ => True := by
  rw [expect]
  refine (goes_isAt k).skip fun b => ?_
  cases b with
  | true => exact goes_advance
  | false => exact .unexpected

theorem goes_expectWord (w : String) : Goes S (expectWord w) fun _ => True := goes_expect _ _

theorem goes_expectComma : Goes S expectComma fun _ => True := goes_expect _ _

theorem goes_expectNumber (bound : Nat) (what : String) :
    Goes S (expectNumber bound what) fun _ => True := by
  rw [expectNumber]
  refine goes_kind.skip fun k => ?_
  split
  · split
    · exact goes_advance.skip fun _ => .pure trivial
    · exact .unexpected
  · exact .unexpected

/-- Instead of the answer, the text that was passed. -/
theorem goes_passedText {r : Reader Unit} (hr : Goes S r fun _ => True) :
    Goes S (passedText r) fun _ => True := by
  intro n c hc hn
  have hresult := hr n c hc hn
  revert hresult
  rw [passedText]
  cases r c with
  | error d => exact id
  | ok result => exact fun hresult => ⟨hresult.1, hresult.2.1, trivial⟩

/-! ## Loops -/

/-- **A loop gets to its end**: its rounds leave fewer and fewer tokens ahead, so it takes no more of
them than there are tokens ahead, and one more. -/
theorem Settles.iterateFor {I : σ → Prop} {step : σ → Reader (Round σ α)} {bound : List Token} {s : σ}
    (hstep : ∀ m, m ≤ n → ∀ s, I s → Settles S m (step s) (RoundWithin m I P)) (hs : I s)
    (hbound : n < bound.length) : Settles S n (iterateFor step bound s) (Within n P) := by
  induction bound generalizing n s with
  | nil => cases hbound
  | cons t bound ih =>
    rw [Reader.iterateFor]
    refine (hstep n (Nat.le_refl n) s hs).bind fun round m hround => ?_
    cases round with
    | done a => exact .pure hround
    | again s' =>
      obtain ⟨hlt, hs'⟩ := hround
      have hrest : Settles S m (Reader.iterateFor step bound s') (Within m P) :=
        ih (fun k hk => hstep k (by omega)) hs' (Nat.lt_of_lt_of_le hlt (Nat.le_of_lt_succ hbound))
      exact hrest.mono fun a k h => ⟨Nat.le_trans h.1 (Nat.le_of_lt hlt), h.2⟩

theorem Settles.iterate {I : σ → Prop} {step : σ → Reader (Round σ α)} {s : σ}
    (hstep : ∀ m, m ≤ n → ∀ s, I s → Settles S m (step s) (RoundWithin m I P)) (hs : I s) :
    Settles S n (iterate step s) (Within n P) :=
  fun c hc hn => Settles.iterateFor hstep hs (hn ▸ Nat.lt_succ_self _) c hc hn

theorem Goes.iterate {I : σ → Prop} {step : σ → Reader (Round σ α)} {s : σ}
    (hstep : ∀ m s, I s → Settles S m (step s) (RoundWithin m I P)) (hs : I s) :
    Goes S (iterate step s) P :=
  fun _ => .iterate (fun m _ => hstep m) hs

/-- An item, and what comes of the comma behind it. -/
theorem Settles.item {item : Reader α} {f : α → Bool → Reader β}
    (hitem : Settles S n item (Within n P))
    (hf : ∀ a more m, P a → m ≤ n → (more = true → m < n) → Settles S m (f a more) R) :
    Settles S n (item >>= fun a => accept .comma >>= f a) R := by
  refine hitem.bind fun a m ha => (settles_accept (by simp)).bind fun more m' h => ?_
  exact hf a more m' ha.2 (Nat.le_trans h.1 ha.1) fun hmore => Nat.lt_of_lt_of_le (h.2 hmore) ha.1

/-- One more item, which a comma follows or does not. -/
theorem settles_itemStep {item : Reader α} {items : Array α}
    (hitem : Settles S n item (Within n P)) (hitems : ∀ a ∈ items, P a) :
    Settles S n (itemStep item items)
      (RoundWithin n (fun s => ∀ a ∈ s, P a) fun s => ∀ a ∈ s, P a) := by
  rw [itemStep]
  refine hitem.item fun a more m ha hm hlt => ?_
  cases more with
  | true => exact .pure ⟨hlt rfl, Array.forall_mem_push.mpr ⟨ha, hitems⟩⟩
  | false => exact .pure ⟨hm, Array.forall_mem_push.mpr ⟨ha, hitems⟩⟩

theorem goesBelow_commaSeparated {item : Reader α} (hitem : GoesBelow S n item P) :
    GoesBelow S n (commaSeparated item) fun items => ∀ a ∈ items, P a := by
  intro m hm
  have hloop : Settles S m (iterate (itemStep item) #[]) (Within m fun items => ∀ a ∈ items, P a) :=
    .iterate (fun k hk s hs => settles_itemStep (hitem k (Nat.lt_of_le_of_lt hk hm)) hs) (by simp)
  exact hloop.bind fun items k h => .pure ⟨h.1, fun a ha => h.2 a (Array.mem_toList_iff.mp ha)⟩

theorem goes_commaSeparated {item : Reader α} (hitem : Goes S item P) :
    Goes S (commaSeparated item) fun items => ∀ a ∈ items, P a :=
  GoesBelow.goes fun _ => goesBelow_commaSeparated hitem.below

/-- One more parameter, which a comma follows or does not, or three points. -/
theorem settles_paramStep {item : Reader α} {params : Array α}
    (hitem : GoesBelow S (n + 1) item P) (hparams : ∀ a ∈ params, P a) :
    Settles S n (paramStep item params)
      (RoundWithin n (fun s => ∀ a ∈ s, P a) fun result => ∀ a ∈ result.1, P a) := by
  rw [paramStep]
  refine (settles_accept (by simp)).bind fun dots m h => ?_
  cases dots with
  | true => exact .pure ⟨h.1, hparams⟩
  | false =>
    refine (hitem m (Nat.lt_succ_of_le h.1)).item fun a more m' ha hm hlt => ?_
    cases more with
    | true => exact .pure ⟨Nat.lt_of_lt_of_le (hlt rfl) h.1, Array.forall_mem_push.mpr ⟨ha, hparams⟩⟩
    | false => exact .pure ⟨Nat.le_trans hm h.1, Array.forall_mem_push.mpr ⟨ha, hparams⟩⟩

/-- Parameters are read behind their opening parenthesis. -/
theorem settles_paramList {item : Reader α} (hitem : GoesBelow S n item P) :
    Settles S n (paramList item) fun result m => m < n ∧ ∀ a ∈ result.1, P a := by
  rw [paramList]
  refine (settles_expect (by simp) _).bind fun _ m hm => ?_
  refine (settles_accept (by simp)).bind fun none m₁ h₁ => ?_
  cases none with
  | true => exact .pure ⟨Nat.lt_of_le_of_lt h₁.1 hm, by simp⟩
  | false =>
    have hloop : Settles S m₁ (iterate (paramStep item) #[])
        (Within m₁ fun result => ∀ a ∈ result.1, P a) :=
      .iterate (fun k hk s hs => settles_paramStep (fun j hj => hitem j (by omega)) hs) (by simp)
    refine hloop.bind fun result m₂ h₂ => ?_
    obtain ⟨params, vararg⟩ := result
    refine (settles_expect (by simp) _).bind fun _ m₃ h₃ => .pure ⟨?_, ?_⟩
    · have := h₂.1
      omega
    · exact fun a ha => h₂.2 a (Array.mem_toList_iff.mp ha)

/-- One attribute with what belongs to it, if one is ahead. -/
theorem settles_skipAttribute (isAttribute takesNumber : String → Bool) :
    Settles S n (skipAttribute isAttribute takesNumber)
      (RoundWithin n (fun _ => True) fun _ => True) := by
  rw [skipAttribute]
  refine settles_kind.bind fun k m h => ?_
  obtain ⟨rfl, hpos⟩ := h
  split
  · have hm := hpos (by simp)
    split
    · refine settles_advance.bind fun _ m' hm' => ?_
      -- What belongs to the attribute is passed as well, but one token is enough.
      refine (goes_kind.within (Nat.le_refl m')).bind fun k₁ m₁ h₁ => ?_
      have hlt : m₁ < m := by have := h₁.1; omega
      split
      · exact settles_skipGroup.bind fun _ m₂ h₂ => .pure ⟨Nat.lt_trans h₂ hlt, trivial⟩
      · split
        · exact (goes_advance m₁).bind fun _ m₂ h₂ => .pure ⟨Nat.lt_of_le_of_lt h₂.1 hlt, trivial⟩
        · exact .pure ⟨hlt, trivial⟩
      · exact .pure ⟨hlt, trivial⟩
    · exact .pure ⟨Nat.le_refl _, trivial⟩
  · exact .pure ⟨Nat.le_refl _, trivial⟩

theorem goes_skipAttributes (isAttribute takesNumber : String → Bool) :
    Goes S (skipAttributes isAttribute takesNumber) fun _ => True := by
  rw [skipAttributes_eq]
  exact .iterate (fun m _ _ => settles_skipAttribute isAttribute takesNumber) trivial

/-! ## Readers that stall -/

/-- The reader `r` further on than `c` in the same text. Elsewhere it stalls. -/
def beyond (c : Cursor) (r : Reader α) : Reader α := fun later =>
  if later.rest <:+ c.rest ∧ later.remaining < c.remaining ∧ later.stop = c.stop then r later
  else .error ⟨later.current.start, .stalled⟩

/-- `r` does what `r'` does, or it stalls. -/
def Follows (r r' : Reader α) : Prop := ∀ c, r c = r' c ∨ ∃ p, r c = .error ⟨p, .stalled⟩

theorem Follows.refl (r : Reader α) : Follows r r := fun _ => .inl rfl

/-- A reader that stalls makes the whole stall. -/
theorem Follows.bind {r r' : Reader α} {f f' : α → Reader β} (hr : Follows r r')
    (hf : ∀ a, Follows (f a) (f' a)) : Follows (r >>= f) (r' >>= f') := by
  intro c
  simp only [Bind.bind, StateT.bind]
  rcases hr c with h | ⟨p, h⟩
  · rw [h]
    cases r' c with
    | error d => exact .inl rfl
    | ok result => exact hf result.1 result.2
  · rw [h]
    exact .inr ⟨p, rfl⟩

/-- A longer bound changes nothing but where a loop stalls. -/
theorem Follows.iterateFor {step step' : σ → Reader (Round σ α)}
    (hstep : ∀ s, Follows (step s) (step' s)) {bound bound' : List Token}
    (h : bound.length ≤ bound'.length) (s : σ) :
    Follows (iterateFor step bound s) (iterateFor step' bound' s) := by
  refine iterateFor_rule (P := Follows) (fun r r' hstalls c => .inr ⟨_, hstalls c⟩)
    (fun k k' hagain hdone s => (hstep s).bind fun round => ?_) h s
  cases round with
  | again s' => exact hagain s'
  | done a =>
    rw [(hdone a).1, (hdone a).2]
    exact .refl _

theorem Follows.iterate {step step' : σ → Reader (Round σ α)}
    (hstep : ∀ s, Follows (step s) (step' s)) (s : σ) :
    Follows (Reader.iterate step s) (Reader.iterate step' s) :=
  fun c => Follows.iterateFor hstep (Nat.le_refl c.bound.length) s c

/-- A reader that settles does not stall. -/
theorem Settles.eq_of_follows {r r' : Reader α} {c : Cursor} (hr : Settles S n r Q)
    (h : Follows r r') (hc : S.Holds c) (hn : c.remaining = n) : r c = r' c := by
  refine (h c).resolve_right ?_
  rintro ⟨p, hstalls⟩
  have hresult := hr c hc hn
  rw [hstalls] at hresult
  exact hresult.fault

theorem GoesBelow.beyond {r : Reader α} {c : Cursor} {hstop : c.stop.kind = .eof}
    (hr : GoesBelow (.around c hstop) c.remaining r P) :
    GoesBelow (.around c hstop) c.remaining (Reader.beyond c r) P := by
  intro m hm later hlater hn
  rw [Reader.beyond, if_pos ⟨hlater.rest, hn ▸ hm, hlater.stop⟩]
  exact hr m hm later hlater hn

end Reader

end IrRecords
