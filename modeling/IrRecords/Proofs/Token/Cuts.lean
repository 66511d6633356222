import IrRecords.Token.Lexer
import Mathlib.Data.List.Forall2

/-!
# Cutting texts that were put together

A text that is put together from words, names, numerals and punctuation is cut into the same pieces
again, as long as no piece runs into the next. Punctuation and blanks end whatever is in front of
them; so a piece is safe if nothing follows it or a delimiter does (`Delimited`).

`Cut p cs ms` says what cutting `cs` from the position `p` on gives, and `Cuts w ks` that `w` is a
piece of one line: in front of every text where it is safe, it gives tokens of the kinds `ks`.
Of a token only its kind and its line are kept (`Mark`), and that a numeral has its own text. Pieces
compose (`Cuts.append`), so that what a long text is cut into follows from how it was put together.
-/

namespace IrRecords

/-- What is seen of an answer is seen only if there is one. -/
theorem exists_ok_of_toOption {ε α β : Type} {e : Except ε α} {f : α → β} {b : β}
    (h : e.toOption.map f = some b) : ∃ a, e = .ok a ∧ f a = b := by
  cases e with
  | error _ => cases h
  | ok a => exact ⟨a, rfl, Option.some.inj h⟩

theorem exists_ok_of_bind {ε α β : Type} {e : Except ε α} {f : α → Option β} {b : β}
    (h : (e.toOption >>= f) = some b) : ∃ a, e = .ok a ∧ f a = some b := by
  cases e with
  | error _ => cases h
  | ok a => exact ⟨a, rfl, h⟩

/-- What readers see of a token. -/
structure Mark where
  kind : TokenKind
  line : Nat
  deriving DecidableEq

/-- The token looks like this, and if it is a numeral it has the text that its kind says. -/
structure Token.Shows (t : Token) (m : Mark) : Prop where
  kind : t.kind = m.kind
  line : t.line = m.line
  numeral : ∀ s, m.kind = .int s → t.text = s.toList

namespace Token

/-! ## Whole texts -/

/-- Cutting a text that is nothing but a gap. -/
theorem scanFrom_end {p : Position} {cs : List Char} (h : cs.drop (gapLength cs) = []) :
    scanFrom p cs
      = .ok ⟨[], ⟨.eof, cs.take (gapLength cs), [], p.after (cs.take (gapLength cs))⟩⟩ := by
  rw [scanFrom]
  dsimp only
  split
  · rfl
  · next hcons => rw [h] at hcons; cases hcons

/-- Cutting a text that has a character behind the gap. -/
theorem scanFrom_token {p : Position} {cs rest : List Char} {c : Char}
    (h : cs.drop (gapLength cs) = c :: rest) :
    scanFrom p cs = match lexeme c rest with
      | .error fault => .error ⟨p.after (cs.take (gapLength cs)), fault⟩
      | .ok (kind, used) =>
        match scanFrom ((p.after (cs.take (gapLength cs))).after (c :: rest.take used))
            (rest.drop used) with
        | .error d => .error d
        | .ok stream => .ok (stream.cons ⟨kind, cs.take (gapLength cs), c :: rest.take used,
            p.after (cs.take (gapLength cs))⟩) := by
  rw [scanFrom]
  dsimp only
  split
  · next hnil => rw [h] at hnil; cases hnil
  · next d rest' hcons =>
    rw [h] at hcons
    cases hcons
    rfl

/-- The text `cs` is cut, from the position `p` on, into tokens that look like `ms`. -/
def Cut (p : Position) (cs : List Char) (ms : List Mark) : Prop :=
  ∃ s, scanFrom p cs = .ok s ∧ List.Forall₂ Shows s.tokens ms ∧ s.stop.kind = .eof

/-- Nothing is cut into nothing. -/
theorem Cut.nil (p : Position) : Cut p [] [] := ⟨_, scanFrom_end rfl, .nil, rfl⟩

/-- A token in front of a text. -/
theorem Cut.token {p : Position} {c : Char} {w cs : List Char} {kind : TokenKind} {ms : List Mark}
    (hgap : gapLength (c :: (w ++ cs)) = 0) (hlex : lexeme c (w ++ cs) = .ok (kind, w.length))
    (hnumeral : ∀ s, kind = .int s → c :: w = s.toList) (h : Cut (p.after (c :: w)) cs ms) :
    Cut p (c :: (w ++ cs)) (⟨kind, p.line⟩ :: ms) := by
  obtain ⟨s, hs, hms, hstop⟩ := h
  refine ⟨s.cons ⟨kind, [], c :: w, p⟩, ?_, .cons ⟨rfl, rfl, hnumeral⟩ hms, hstop⟩
  have hdrop : (c :: (w ++ cs)).drop (gapLength (c :: (w ++ cs))) = c :: (w ++ cs) := by
    rw [hgap, List.drop_zero]
  rw [scanFrom_token hdrop, hlex, hgap]
  dsimp only
  rw [List.take_left, List.drop_left, List.take_zero, Position.after_nil, hs]

/-- A blank in front of a text is added to the first gap, and what the text is cut into looks the
same. -/
theorem Cut.gap {p : Position} {c : Char} {cs : List Char} {ms : List Mark}
    (hc : ∀ cs, gapLength (c :: cs) = gapLength cs + 1) (h : Cut (p.next c) cs ms) :
    Cut p (c :: cs) ms := by
  obtain ⟨s, hs, hms, hstop⟩ := h
  have hdrop : (c :: cs).drop (gapLength (c :: cs)) = cs.drop (gapLength cs) := by
    rw [hc, List.drop_succ_cons]
  have hafter : p.after ((c :: cs).take (gapLength (c :: cs)))
      = (p.next c).after (cs.take (gapLength cs)) := by
    rw [hc, List.take_succ_cons, Position.after_cons]
  -- The gap is one character longer and everything behind it is the same, so both scans find the
  -- same first token.
  cases hrest : cs.drop (gapLength cs) with
  | nil =>
    rw [scanFrom_end hrest] at hs
    cases hs
    exact ⟨_, scanFrom_end (hdrop.trans hrest), hms, rfl⟩
  | cons d rest =>
    rw [scanFrom_token hrest] at hs
    rw [Cut, scanFrom_token (hdrop.trans hrest), hafter]
    cases hlex : lexeme d rest with
    | error fault => rw [hlex] at hs; cases hs
    | ok r =>
      rw [hlex] at hs
      dsimp only at hs ⊢
      cases hscan : scanFrom (((p.next c).after (cs.take (gapLength cs))).after
          (d :: rest.take r.2)) (rest.drop r.2) with
      | error fault => rw [hscan] at hs; cases hs
      | ok stream =>
        rw [hscan] at hs
        cases hs
        cases hms with
        | cons hfirst hmore =>
          exact ⟨_, rfl, .cons ⟨hfirst.kind, hfirst.line, hfirst.numeral⟩ hmore, hstop⟩

/-! ## Pieces of one line -/

/-- Whether a character ends whatever is in front of it. -/
def isDelimiter (c : Char) : Bool := c == ' ' || c == '\n' || (punctuation? c).isSome

/-- Nothing follows, or a delimiter does. -/
def Delimited (cs : List Char) : Prop := ∀ c, cs.head? = some c → isDelimiter c = true

/-- The text `w` is a piece of a line, and where it is safe it is cut into tokens of the kinds
`ks`. -/
structure Cuts (w : List Char) (ks : List TokenKind) : Prop where
  /-- All tokens are on one line. -/
  flat : '\n' ∉ w
  cut : ∀ p cs ms, Delimited cs → Cut (p.after w) cs ms →
    Cut p (w ++ cs) (ks.map (⟨·, p.line⟩) ++ ms)

/-- Without a line break the line stays the same. -/
theorem line_after {w : List Char} (h : '\n' ∉ w) (p : Position) : (p.after w).line = p.line := by
  induction w generalizing p with
  | nil => rfl
  | cons c w ih =>
    rw [List.mem_cons, not_or] at h
    rw [Position.after_cons, ih h.2, Position.next, if_neg (Ne.symm h.1)]

theorem Cuts.nil : Cuts [] [] := ⟨by simp, fun _ _ _ _ h => h⟩

/-- A delimiter in front makes a text safe to follow anything. -/
theorem delimited_cons {c : Char} {cs : List Char} (hc : isDelimiter c = true) :
    Delimited (c :: cs) := by
  intro d hd
  rw [List.head?_cons, Option.some.injEq] at hd
  exact hd ▸ hc

/-- Pieces compose where the second starts with a delimiter. -/
theorem Cuts.append {v w : List Char} {js ks : List TokenKind} (hv : Cuts v js) (hw : Cuts w ks)
    (hd : ∀ cs, Delimited cs → Delimited (w ++ cs)) : Cuts (v ++ w) (js ++ ks) := by
  refine ⟨by simp [hv.flat, hw.flat], fun p cs ms hcs h => ?_⟩
  rw [Position.after_append] at h
  have hsecond := hw.cut _ cs ms hcs h
  -- The second piece is on the line of the first.
  rw [line_after hv.flat] at hsecond
  have hboth := hv.cut p _ _ (hd cs hcs) hsecond
  rwa [List.append_assoc, List.map_append, List.append_assoc]

/-- A delimiter may stand in front of anything. -/
theorem Delimited.cons_append {c : Char} {w : List Char} (hc : isDelimiter c = true) :
    ∀ cs, Delimited cs → Delimited (c :: w ++ cs) :=
  fun _ _ => delimited_cons hc

/-! ### Blanks and punctuation -/

theorem Cuts.blank {w : List Char} {ks : List TokenKind} (h : Cuts w ks) :
    Cuts (' ' :: w) ks := by
  refine ⟨?_, fun p cs ms hcs hcut => ?_⟩
  · rw [List.mem_cons, not_or]
    exact ⟨by decide, h.flat⟩
  · have hline : (p.next ' ').line = p.line := rfl
    have hrest := h.cut (p.next ' ') cs ms hcs hcut
    rw [hline] at hrest
    exact .gap (fun _ => rfl) hrest

/-- A line break ends a line, and the next one starts. -/
theorem Cut.newline {p : Position} {cs : List Char} {ms : List Mark}
    (h : Cut (p.next '\n') cs ms) : Cut p ('\n' :: cs) ms :=
  .gap (fun _ => rfl) h

/-- What starts a gap is no punctuation. -/
theorem gapLength_of_punctuation {c : Char} {kind : TokenKind} (h : punctuation? c = some kind)
    (cs : List Char) : gapLength (c :: cs) = 0 := by
  unfold punctuation? at h
  split at h
  all_goals first | rfl | cases h

/-- Punctuation is safe in front of everything. -/
theorem Cuts.punctuation {c : Char} {kind : TokenKind} {w : List Char} {ks : List TokenKind}
    (hc : punctuation? c = some kind) (h : Cuts w ks) : Cuts (c :: w) (kind :: ks) := by
  have hflat : c ≠ '\n' := by
    rintro rfl
    cases hc
  -- Punctuation is no numeral, so nothing is asked of its text.
  have hint : ∀ s, kind ≠ .int s := by
    rintro s rfl
    unfold punctuation? at hc
    split at hc
    all_goals cases hc
  refine ⟨?_, fun p cs ms hcs hcut => ?_⟩
  · rw [List.mem_cons, not_or]
    exact ⟨Ne.symm hflat, h.flat⟩
  · have hline : (p.next c).line = p.line := by rw [Position.next, if_neg hflat]
    have hrest := h.cut (p.next c) cs ms hcs hcut
    rw [hline] at hrest
    have hlex : lexeme c ([] ++ (w ++ cs)) = .ok (kind, 0) := by rw [lexeme, hc]
    exact Cut.token (w := []) (gapLength_of_punctuation hc _) hlex
      (fun s hs => absurd hs (hint s)) hrest

end Token

end IrRecords
