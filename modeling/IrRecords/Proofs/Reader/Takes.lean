import IrRecords.Proofs.Reader.Yields
import IrRecords.Proofs.Token.Cuts

/-!
# What readers accept

`Reader.Yields` says what a reader answers if it succeeds. `Reader.Takes` says that it does succeed,
and where it stops: in front of tokens of the kinds `ks` the reader passes exactly these and answers
something that satisfies a postcondition. What comes behind them matters to some readers, because a
type goes on as long as suffixes follow; so the judgement has a condition on the kind of the first
token behind (`F`), which is asked of the end of the text as well.

The rules follow the readers line by line, as those of `Yields` do. A loop is unrolled from the
front (`iterate_again`, `iterate_done`): each round but the last passes a token, so the
row of tokens that bounds the loop is long enough for the rounds that are left.
-/

namespace IrRecords

/-! ## Tokens ahead -/

namespace Cursor

/-- Passes `n` tokens. -/
def past : Nat → Cursor → Cursor
  | 0, c => c
  | n + 1, c => past n c.advance

/-- The first tokens ahead look like `ms`. -/
def Sees (c : Cursor) (ms : List Mark) : Prop :=
  ∃ ts more, c.rest = ts ++ more ∧ List.Forall₂ Token.Shows ts ms

theorem past_add (m n : Nat) (c : Cursor) : c.past (m + n) = (c.past m).past n := by
  induction m generalizing c with
  | zero => rw [Nat.zero_add, past]
  | succ m ih => rw [Nat.succ_add, past, past, ih]

/-- Going forward does not change where the text ends. -/
theorem stop_past (n : Nat) (c : Cursor) : (c.past n).stop = c.stop := by
  induction n generalizing c with
  | zero => rfl
  | succ n ih =>
    rw [past, ih, advance]
    split <;> rfl

theorem sees_nil (c : Cursor) : c.Sees [] := ⟨[], c.rest, rfl, .nil⟩

/-- The first token ahead and the others. -/
theorem Sees.uncons {c : Cursor} {m : Mark} {ms : List Mark} (h : c.Sees (m :: ms)) :
    ∃ t, c.rest = t :: c.advance.rest ∧ c.current = t ∧ t.Shows m
      ∧ c.advance.lastLine? = some m.line ∧ c.advance.Sees ms := by
  obtain ⟨ts, more, hrest, hms⟩ := h
  cases hms with
  | @cons t _ ts _ ht hts =>
    have hadvance : c.advance = { c with lastLine? := some t.line, rest := ts ++ more } := by
      rw [advance, hrest]
      rfl
    refine ⟨t, ?_, ?_, ht, ?_, ts, more, ?_, hts⟩
    · rw [hadvance, hrest]
      rfl
    · rw [current, hrest]
      rfl
    · rw [hadvance, ← ht.line]
    · rw [hadvance]

theorem Sees.split {c : Cursor} {ms ms' : List Mark} (h : c.Sees (ms ++ ms')) :
    c.Sees ms ∧ (c.past ms.length).Sees ms' := by
  induction ms generalizing c with
  | nil => exact ⟨c.sees_nil, h⟩
  | cons m ms ih =>
    obtain ⟨t, hrest, _, ht, _, hms⟩ := Sees.uncons h
    obtain ⟨⟨ts, more, hts, hshows⟩, hafter⟩ := ih hms
    refine ⟨⟨t :: ts, more, ?_, .cons ht hshows⟩, hafter⟩
    rw [hrest, hts, List.cons_append]

/-- Passing tokens that are there makes the row ahead shorter by as many. -/
theorem Sees.remaining {c : Cursor} {ms : List Mark} (h : c.Sees ms) :
    (c.past ms.length).remaining + ms.length = c.remaining := by
  induction ms generalizing c with
  | nil => rfl
  | cons m ms ih =>
    obtain ⟨t, hrest, _, _, _, hms⟩ := h.uncons
    have hlength := congrArg List.length hrest
    rw [List.length_cons] at hlength
    have hrec := ih hms
    -- Both sides of the equation have a row ahead that is to be opened.
    rw [Cursor.remaining] at hrec ⊢
    rw [Cursor.remaining] at hrec ⊢
    rw [List.length_cons, past]
    omega

end Cursor

namespace Reader

variable {α β σ : Type} {P : α → Prop} {Q : β → Prop} {F G : TokenKind → Prop}
  {k : TokenKind} {ks js : List TokenKind}

/-- In front of tokens of the kinds `ks`, and of one behind them of a kind that satisfies `F`, the
reader passes the former and answers something that satisfies `P`. -/
def Takes (r : Reader α) (ks : List TokenKind) (P : α → Prop) (F : TokenKind → Prop) : Prop :=
  ∀ (c : Cursor) (ms : List Mark), ms.map (·.kind) = ks → c.Sees ms →
    F (c.past ks.length).current.kind → ∃ a, r c = .ok (a, c.past ks.length) ∧ P a

/-! ## Sequencing -/

/-- What stands behind the first of two rows: the first of the second, or what stands behind
both. -/
theorem kind_past {c : Cursor} {ms : List Mark} (h : c.Sees ms) :
    c.current.kind = (ms.map (·.kind)).headD (c.past ms.length).current.kind := by
  cases ms with
  | nil => rfl
  | cons m ms =>
    obtain ⟨t, _, hcurrent, ht, _⟩ := h.uncons
    rw [hcurrent, ht.kind]
    rfl

/-- The rule for sequencing: the first reader stops where the second starts. -/
theorem Takes.bind {r : Reader α} {f : α → Reader β} (hr : r.Takes ks P F)
    (hF : ∀ k, G k → F (js.headD k)) (hf : ∀ a, P a → (f a).Takes js Q G) :
    (r >>= f).Takes (ks ++ js) Q G := by
  intro c ms hms hc hG
  obtain ⟨ms₁, ms₂, rfl, rfl, rfl⟩ := List.map_eq_append_iff.mp hms
  obtain ⟨h₁, h₂⟩ := hc.split
  rw [List.length_append, Cursor.past_add] at hG ⊢
  rw [List.length_map, List.length_map] at hG ⊢
  -- What is behind the first reader is the first token of the second row, if there is one.
  have hbehind := hF _ hG
  rw [← kind_past h₂] at hbehind
  obtain ⟨a, ha, hP⟩ := hr c ms₁ rfl h₁ (by rw [List.length_map]; exact hbehind)
  obtain ⟨b, hb, hQ⟩ := hf a hP _ ms₂ rfl h₂ (by rw [List.length_map]; exact hG)
  rw [List.length_map] at ha hb
  exact ⟨b, bind_eq_ok_iff.mpr ⟨a, _, ha, hb⟩, hQ⟩

/-- The rule for sequencing behind a reader of one token, to which it does not matter what comes
behind. -/
theorem Takes.cons {r : Reader α} {f : α → Reader β} (hr : r.Takes [k] P fun _ => True)
    (hf : ∀ a, P a → (f a).Takes ks Q F) : (r >>= f).Takes (k :: ks) Q F :=
  hr.bind (fun _ _ => trivial) hf

/-- The rule for sequencing where nothing is left to be passed. -/
theorem Takes.last {r : Reader α} {f : α → Reader β} (hr : r.Takes ks P F)
    (hF : ∀ k, G k → F k) (hf : ∀ a, P a → (f a).Takes [] Q G) : (r >>= f).Takes ks Q G := by
  have h : (r >>= f).Takes (ks ++ []) Q G := hr.bind hF hf
  rwa [List.append_nil] at h

/-- The rule for sequencing behind a reader that passes nothing. -/
theorem Takes.skip {r : Reader α} {f : α → Reader β} (hr : r.Takes [] P F)
    (hF : ∀ k, G k → F (js.headD k)) (hf : ∀ a, P a → (f a).Takes js Q G) :
    (r >>= f).Takes js Q G :=
  hr.bind hF hf

theorem Takes.pure {a : α} (h : P a) : Takes (Pure.pure a) [] P F :=
  fun _ _ _ _ _ => ⟨a, rfl, h⟩

theorem Takes.mono {r : Reader α} {P' : α → Prop} {F' : TokenKind → Prop} (hr : r.Takes ks P F)
    (hP : ∀ a, P a → P' a) (hF : ∀ k, F' k → F k) : r.Takes ks P' F' := by
  intro c ms hms hc hF'
  obtain ⟨a, ha, hPa⟩ := hr c ms hms hc (hF _ hF')
  exact ⟨a, ha, hP a hPa⟩

/-- A computation that reads nothing and does not fail. -/
theorem Takes.lift {e : Except Diagnostic α} {a : α} (he : e = .ok a) (h : P a) :
    Takes (liftM e : Reader α) [] P F := by
  subst he
  exact fun c _ _ _ _ => ⟨a, rfl, h⟩

/-! ## Looking -/

/-- A reader that only looks leaves everything to what comes after it. -/
theorem Takes.look {γ : Type} {r : Reader γ} {g : Cursor → γ} {f : γ → Reader β}
    (hr : ∀ c, r c = .ok (g c, c)) (hf : ∀ a, (f a).Takes ks Q F) : (r >>= f).Takes ks Q F := by
  intro c ms hms hc hF
  obtain ⟨b, hb, hQ⟩ := hf (g c) c ms hms hc hF
  exact ⟨b, bind_eq_ok_iff.mpr ⟨_, _, hr c, hb⟩, hQ⟩

theorem Takes.position {f : Position → Reader β} (hf : ∀ p, (f p).Takes ks Q F) :
    (Reader.position >>= f).Takes ks Q F :=
  .look (fun _ => rfl) hf

theorem Takes.nextKind {f : TokenKind → Reader β} (hf : ∀ k, (f k).Takes ks Q F) :
    (Reader.nextKind >>= f).Takes ks Q F :=
  .look (fun _ => rfl) hf

/-- The kind of the token ahead is known: the first of those to be passed, or what comes behind if
there are none. -/
theorem Takes.kind {f : TokenKind → Reader β} (hf : ∀ k, F k → (f (ks.headD k)).Takes ks Q F) :
    (Reader.kind >>= f).Takes ks Q F := by
  intro c ms hms hc hF
  obtain ⟨b, hb, hQ⟩ := hf _ hF c ms hms hc hF
  refine ⟨b, bind_eq_ok_iff.mpr ⟨_, _, rfl, ?_⟩, hQ⟩
  subst hms
  rw [List.length_map] at hb ⊢
  rwa [kind_past hc]

theorem Takes.isAt {f : Bool → Reader β} (hf : ∀ k', F k' → (f (ks.headD k' == k)).Takes ks Q F) :
    (Reader.isAt k >>= f).Takes ks Q F := by
  have hkind : (Reader.isAt k >>= f) = (Reader.kind >>= fun k' => f (k' == k)) := rfl
  rw [hkind]
  exact .kind hf

/-- The kind of the token behind the first of those to be passed. -/
theorem Takes.nextKind_cons {f : TokenKind → Reader β}
    (hf : ∀ k', F k' → (f (ks.headD k')).Takes (k :: ks) Q F) :
    (Reader.nextKind >>= f).Takes (k :: ks) Q F := by
  intro c ms hms hc hF
  obtain ⟨b, hb, hQ⟩ := hf _ hF c ms hms hc hF
  refine ⟨b, bind_eq_ok_iff.mpr ⟨_, _, rfl, ?_⟩, hQ⟩
  cases ms with
  | nil => cases hms
  | cons m ms =>
    cases hms
    obtain ⟨t, hrest, _, _, _, hmore⟩ := hc.uncons
    have hnext : (c.lookahead 1).kind = c.advance.current.kind := by
      rw [Cursor.lookahead, Cursor.current, Cursor.advance, hrest]
      rfl
    rw [List.length_cons, List.length_map, Cursor.past] at hb ⊢
    rw [hnext, kind_past hmore]
    exact hb

/-! ## Moving on -/

theorem Takes.advance : Reader.advance.Takes [k] (fun _ => True) F :=
  fun _ _ _ _ _ => ⟨(), rfl, trivial⟩

/-- A token of the wanted kind is passed. -/
theorem Takes.accept_true {f : Bool → Reader β} (hf : (f true).Takes ks Q F) :
    (Reader.accept k >>= f).Takes (k :: ks) Q F := by
  have haccept : (Reader.accept k).Takes [k] (· = true) fun _ => True := by
    rw [Reader.accept]
    refine .isAt fun _ _ => ?_
    rw [List.headD_cons, beq_self_eq_true, if_pos rfl]
    exact Takes.cons .advance fun _ _ => .pure rfl
  exact haccept.cons fun a ha => ha ▸ hf

/-- A token of another kind is left. -/
theorem Takes.accept_false {f : Bool → Reader β} (hne : ∀ k', F k' → ks.headD k' ≠ k)
    (hf : (f false).Takes ks Q F) : (Reader.accept k >>= f).Takes ks Q F := by
  intro c ms hms hc hF
  obtain ⟨b, hb, hQ⟩ := hf c ms hms hc hF
  refine ⟨b, bind_eq_ok_iff.mpr ⟨false, c, ?_, hb⟩, hQ⟩
  -- The token ahead is the first of `ks`, or the one behind if there is none.
  have hkind : (c.current.kind == k) = false := by
    rw [beq_eq_false_iff_ne, kind_past hc, hms]
    subst hms
    rw [List.length_map] at hF
    exact hne _ hF
  rw [Reader.accept]
  exact bind_eq_ok_iff.mpr ⟨_, c, rfl, by rw [hkind]; rfl⟩

theorem Takes.expect {what : String} : (Reader.expect k what).Takes [k] (fun _ => True) F := by
  rw [Reader.expect]
  refine .isAt fun _ _ => ?_
  rw [List.headD_cons, beq_self_eq_true, if_pos rfl]
  exact .advance

theorem Takes.expectNumber {bound n : Nat} {what text : String}
    (h : Text.decimal? bound text.toList = some n) :
    (Reader.expectNumber bound what).Takes [.int text] (· = n) F := by
  rw [Reader.expectNumber]
  refine .kind fun _ _ => ?_
  simp only [List.headD_cons, h]
  exact Takes.cons .advance fun _ _ => .pure rfl

/-- Where the first token does not satisfy `p`, nothing is passed. -/
theorem Takes.skipWhile {p : Token → Bool} (hp : ∀ t : Token, F t.kind → p t = false) :
    (Reader.skipWhile p).Takes [] (fun _ => True) F := by
  intro c ms _ _ hF
  refine ⟨(), ?_, trivial⟩
  rw [Reader.skipWhile, Cursor.advanceWhile]
  rw [List.length_nil, Cursor.past] at hF ⊢
  cases hrest : c.rest with
  | nil =>
    rw [Cursor.advanceWhileIn, ← hrest]
  | cons t rest =>
    have ht : c.current = t := by rw [Cursor.current, hrest]; rfl
    rw [Cursor.advanceWhileIn, ← ht, hp _ hF, ht, ← hrest]
    rfl

/-! ## Loops -/

/-- A longer bound does not change where a loop ends that ends within a shorter one. -/
theorem iterateFor_mono {step : σ → Reader (Round σ α)} {bound bound' : List Token} {s : σ}
    {c : Cursor} {r : α × Cursor} (h : iterateFor step bound s c = .ok r)
    (hle : bound.length ≤ bound'.length) : iterateFor step bound' s c = .ok r := by
  induction bound generalizing bound' s c with
  | nil => cases h
  | cons t bound ih =>
    cases bound' with
    | nil => cases hle
    | cons t' bound' =>
      rw [iterateFor] at h ⊢
      obtain ⟨a, c'⟩ := r
      obtain ⟨round, c₁, hround, h⟩ := bind_eq_ok_iff.mp h
      refine bind_eq_ok_iff.mpr ⟨round, c₁, hround, ?_⟩
      -- A round that is not the last leaves both bounds shorter by one.
      cases round with
      | again s' => exact ih h (Nat.le_of_succ_le_succ hle)
      | done a => exact h

/-- The last round. -/
theorem iterate_done {step : σ → Reader (Round σ α)} {s : σ} {a : α} {c c' : Cursor}
    (h : step s c = .ok (.done a, c')) : iterate step s c = .ok (a, c') := by
  rw [iterate, Cursor.bound, iterateFor]
  exact bind_eq_ok_iff.mpr ⟨_, _, h, rfl⟩

/-- A round that is not the last one. It passed a token, so the bound of what is left is not longer
than the rest of ours. -/
theorem iterate_again {step : σ → Reader (Round σ α)} {s s' : σ} {c c' : Cursor} {r : α × Cursor}
    (h : step s c = .ok (.again s', c')) (hlt : c'.remaining < c.remaining)
    (hrest : iterate step s' c' = .ok r) : iterate step s c = .ok r := by
  rw [iterate, Cursor.bound, iterateFor]
  refine bind_eq_ok_iff.mpr ⟨_, _, h, iterateFor_mono hrest ?_⟩
  rw [Cursor.bound, List.length_cons]
  exact hlt

theorem Takes.iterate_done {step : σ → Reader (Round σ α)} {s : σ}
    (hstep : (step s).Takes ks (fun r => ∃ a, r = .done a ∧ P a) F) :
    (iterate step s).Takes ks P F := by
  intro c ms hms hc hF
  obtain ⟨round, hround, a, rfl, hP⟩ := hstep c ms hms hc hF
  exact ⟨a, Reader.iterate_done hround, hP⟩

theorem Takes.iterate_again {step : σ → Reader (Round σ α)} {s : σ} {I : σ → Prop}
    (hstep : (step s).Takes ks (fun r => ∃ s', r = .again s' ∧ I s') F) (hne : ks ≠ [])
    (hF : ∀ k, G k → F (js.headD k)) (hrest : ∀ s', I s' → (iterate step s').Takes js P G) :
    (iterate step s).Takes (ks ++ js) P G := by
  intro c ms hms hc hG
  obtain ⟨ms₁, ms₂, rfl, rfl, rfl⟩ := List.map_eq_append_iff.mp hms
  obtain ⟨h₁, h₂⟩ := hc.split
  rw [List.length_append, Cursor.past_add] at hG ⊢
  rw [List.length_map, List.length_map] at hG ⊢
  have hbehind := hF _ hG
  rw [← kind_past h₂] at hbehind
  obtain ⟨round, hround, s', rfl, hI⟩ :=
    hstep c ms₁ rfl h₁ (by rw [List.length_map]; exact hbehind)
  obtain ⟨a, ha, hP⟩ := hrest s' hI _ ms₂ rfl h₂ (by rw [List.length_map]; exact hG)
  rw [List.length_map] at hround ha
  -- The round has passed `ks`, which is not empty, so fewer tokens are left.
  refine ⟨a, Reader.iterate_again hround ?_ ha, hP⟩
  have hlength := h₁.remaining
  have hpos : 0 < ms₁.length := by
    rw [List.length_pos_iff]
    rintro rfl
    exact hne rfl
  omega

end Reader

end IrRecords
