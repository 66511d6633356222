import IrRecords.Proofs.Token.Tiles
import Mathlib.Data.List.DropRight

/-!
# The lexer call by call

Cutting a text is asking for the next token until the end of the text is answered. `Token.next` is
one such call and `Token.Calls` a row of them, so that one can speak of the place that a call starts
at, also of a call that fails. A call that answers a token takes characters off the text, and so there
are no more tokens than bytes.

Lines and columns come from the characters in front of a place alone (`Position.start_after`).
-/

namespace IrRecords

/-! ## Bytes in front of a place -/

namespace Text

/-- The number of bytes of some characters. -/
def byteLength (cs : List Char) : Nat := (String.ofList cs).utf8ByteSize

/-- The characters behind the last line break. -/
def lastLine (cs : List Char) : List Char := cs.rtakeWhile (· ≠ '\n')

theorem byteLength_append (cs ds : List Char) :
    byteLength (cs ++ ds) = byteLength cs + byteLength ds := by
  rw [byteLength, String.ofList_append, String.utf8ByteSize_append, byteLength, byteLength]

theorem byteLength_singleton (c : Char) : byteLength [c] = c.utf8Size := by
  rw [byteLength, ← String.singleton_eq_ofList, String.utf8ByteSize_singleton]

/-- A character is a byte at least. -/
theorem length_le_byteLength (cs : List Char) : cs.length ≤ byteLength cs := by
  induction cs with
  | nil => exact Nat.zero_le _
  | cons c cs ih =>
    have hc : 0 < c.utf8Size := c.utf8Size_pos
    have hsplit : byteLength (c :: cs) = byteLength [c] + byteLength cs := byteLength_append [c] cs
    rw [List.length_cons, hsplit, byteLength_singleton]
    omega

end Text

open Text

/-- **The offset, the line and the column of a place are those of the characters in front of it.** -/
theorem Position.start_after (front : List Char) : start.after front
    = ⟨byteLength front, 1 + front.count '\n', 1 + byteLength (lastLine front)⟩ := by
  -- From the end, where the last line is.
  induction front using List.reverseRecOn with
  | nil => rfl
  | append_singleton front c ih =>
    rw [after_append, ih, after_cons, after_nil, Position.next, byteLength_append,
      byteLength_singleton, List.count_append]
    by_cases hc : c = '\n'
    · subst hc
      have hlast : lastLine (front ++ ['\n']) = [] := List.rtakeWhile_concat_neg _ _ _ (by simp)
      rw [if_pos rfl, hlast]
      rfl
    · have hlast : lastLine (front ++ [c]) = lastLine front ++ [c] :=
        List.rtakeWhile_concat_pos _ _ _ (by simpa using hc)
      have hcount : [c].count '\n' = 0 := List.count_eq_zero.mpr (by simpa using Ne.symm hc)
      rw [if_neg hc, hlast, byteLength_append, byteLength_singleton, hcount, Nat.add_zero,
        Nat.add_assoc]

namespace Token

/-! ## One call -/

/-- The token at the start of a text, and the text behind it. The text starts at `p`. -/
def next (p : Position) (cs : List Char) : Except Diagnostic (Token × List Char) :=
  let gap := cs.take (gapLength cs)
  let start := p.after gap
  match cs.drop (gapLength cs) with
  | [] => .ok (⟨.eof, gap, [], start⟩, [])
  | c :: rest =>
    match lexeme c rest with
    | .error fault => .error ⟨start, fault⟩
    | .ok (kind, used) => .ok (⟨kind, gap, c :: rest.take used, start⟩, rest.drop used)

variable {p q : Position} {cs rest : List Char} {t : Token} {ts : List Token} {d : Diagnostic}
  {s : Stream}

/-- What a call answers stands at the start of the text, and it has a character unless it is the end
of the text. -/
theorem next_spec (h : next p cs = .ok (t, rest)) :
    cs = t.piece ++ rest ∧ t.gap = cs.take (gapLength cs) ∧ t.start = p.after t.gap
      ∧ (t.kind ≠ .eof → t.text ≠ []) ∧ (t.kind = .eof → t.text = [] ∧ rest = []) := by
  have hcs : cs.take (gapLength cs) ++ cs.drop (gapLength cs) = cs := List.take_append_drop _ cs
  rw [next] at h
  split at h
  · next hdrop =>
    cases h
    rw [hdrop, List.append_nil] at hcs
    exact ⟨by rw [piece, List.append_nil, List.append_nil, hcs], rfl, rfl,
      fun hne => absurd rfl hne, fun _ => ⟨rfl, rfl⟩⟩
  · next c rest' hdrop =>
    split at h
    · cases h
    · next kind used hlex =>
      cases h
      have hlexed : Lexed ⟨kind, cs.take (gapLength cs), c :: rest'.take used,
        p.after (cs.take (gapLength cs))⟩ := ⟨c, rest', used, rfl, hlex⟩
      refine ⟨?_, rfl, rfl, fun _ => List.cons_ne_nil _ _, fun heof => absurd heof hlexed.kind_ne_eof⟩
      rw [piece, List.append_assoc, List.cons_append, List.take_append_drop, ← hdrop, hcs]

/-- A call fails where the gap in front of the token ends. -/
theorem next_error (h : next p cs = .error d) : d.position = p.after (cs.take (gapLength cs)) := by
  rw [next] at h
  split at h
  · cases h
  · split at h
    · cases h
      rfl
    · cases h

/-- Cutting a text is one call, and cutting what is left unless the text has ended. -/
theorem scanFrom_eq (p : Position) (cs : List Char) : scanFrom p cs = match next p cs with
    | .error d => .error d
    | .ok (t, rest) =>
      if t.kind = .eof then .ok ⟨[], t⟩
      else match scanFrom (t.start.after t.text) rest with
        | .error d => .error d
        | .ok s => .ok (s.cons t) := by
  cases hdrop : cs.drop (gapLength cs) with
  | nil =>
    rw [scanFrom_end hdrop, next, hdrop]
    rfl
  | cons c rest =>
    rw [scanFrom_token hdrop, next, hdrop]
    dsimp only
    cases hlex : lexeme c rest with
    | error fault => rfl
    | ok r =>
      obtain ⟨kind, used⟩ := r
      have hlexed : Lexed ⟨kind, cs.take (gapLength cs), c :: rest.take used,
        p.after (cs.take (gapLength cs))⟩ := ⟨c, rest, used, rfl, hlex⟩
      dsimp only
      refine Eq.trans ?_ (if_neg hlexed.kind_ne_eof).symm
      cases scanFrom ((p.after (cs.take (gapLength cs))).after (c :: rest.take used))
        (rest.drop used) <;> rfl

/-! ## Rows of calls -/

/-- Calls that answer the tokens `ts` lead from the start of a text, which is at `p`, to the rest of
it, which is at `q`. -/
inductive Calls : Position → List Char → List Token → Position → List Char → Prop
  | nil (p : Position) (cs : List Char) : Calls p cs [] p cs
  | cons {p q : Position} {cs cs₁ rest : List Char} {t : Token} {ts : List Token}
      (h : next p cs = .ok (t, cs₁)) (hne : t.kind ≠ .eof)
      (hrest : Calls (t.start.after t.text) cs₁ ts q rest) : Calls p cs (t :: ts) q rest

/-- What has been answered is what is in front of the rest. -/
theorem Calls.text (h : Calls p cs ts q rest) :
    cs = ts.flatMap piece ++ rest ∧ q = p.after (ts.flatMap piece) := by
  induction h with
  | nil p cs => exact ⟨rfl, rfl⟩
  | @cons p q cs cs₁ rest t ts h hne hrest ih =>
    obtain ⟨hcs, _, hstart, _⟩ := next_spec h
    rw [List.flatMap_cons, List.append_assoc, ← ih.1, Position.after_append, ih.2, hstart, piece,
      Position.after_append]
    exact ⟨hcs, rfl⟩

/-- Every token that was answered has a byte at least. -/
theorem Calls.length_le (h : Calls p cs ts q rest) :
    ts.length + byteLength rest ≤ byteLength cs := by
  induction h with
  | nil p cs => exact Nat.le_of_eq (Nat.zero_add _)
  | @cons p q cs cs₁ rest t ts h hne hrest ih =>
    obtain ⟨hcs, _, _, htext, _⟩ := next_spec h
    have hpos : 0 < byteLength t.text :=
      Nat.lt_of_lt_of_le (List.length_pos_iff.mpr (htext hne)) (length_le_byteLength _)
    rw [hcs, byteLength_append, piece, byteLength_append, List.length_cons]
    omega

/-- Calls go on until one fails, or answers the end of the text. -/
theorem exists_calls (p : Position) (cs : List Char) : ∃ ts q rest, Calls p cs ts q rest
    ∧ ((∃ d, next q rest = .error d) ∨ ∃ stop, next q rest = .ok (stop, []) ∧ stop.kind = .eof) := by
  -- The induction is on the length of the text, which every call makes shorter.
  induction hn : cs.length using Nat.strongRecOn generalizing p cs with
  | ind n ih =>
    cases hnext : next p cs with
    | error d => exact ⟨[], p, cs, .nil p cs, .inl ⟨d, hnext⟩⟩
    | ok r =>
      obtain ⟨t, rest⟩ := r
      obtain ⟨hcs, _, _, htext, hend⟩ := next_spec hnext
      by_cases heof : t.kind = .eof
      · exact ⟨[], p, cs, .nil p cs, .inr ⟨t, (hend heof).2 ▸ hnext, heof⟩⟩
      · have hpos := List.length_pos_iff.mpr (htext heof)
        have hlength : rest.length < n := by
          rw [← hn, hcs, List.length_append, piece, List.length_append]
          omega
        obtain ⟨ts, q, rest', hcalls, hlast⟩ := ih _ hlength (t.start.after t.text) rest rfl
        exact ⟨t :: ts, q, rest', .cons hnext heof hcalls, hlast⟩

/-- A row of calls that gets to one that fails is a text that cannot be cut. -/
theorem Calls.scanFrom_error (h : Calls p cs ts q rest) (hfail : next q rest = .error d) :
    scanFrom p cs = .error d := by
  induction h with
  | nil p cs => rw [Token.scanFrom_eq, hfail]
  | @cons p q cs cs₁ rest t ts h hne _ ih =>
    rw [Token.scanFrom_eq, h]
    dsimp only
    rw [if_neg hne, ih hfail]

/-- Behind a row of calls the text is cut as if it began there. -/
theorem Calls.scanFrom_eq (h : Calls p cs ts q rest) (hs : scanFrom q rest = .ok s) :
    scanFrom p cs = .ok ⟨ts ++ s.tokens, s.stop⟩ := by
  induction h with
  | nil p cs => exact hs
  | @cons p q cs cs₁ rest t ts h hne _ ih =>
    rw [Token.scanFrom_eq, h]
    dsimp only
    rw [if_neg hne, ih hs]
    rfl

theorem scanFrom_of_eof {stop : Token} (h : next q rest = .ok (stop, [])) (heof : stop.kind = .eof) :
    scanFrom q rest = .ok ⟨[], stop⟩ := by
  rw [scanFrom_eq, h]
  exact if_pos heof

/-- A text that cannot be cut has a call in it that fails. -/
theorem exists_calls_of_error (h : scanFrom p cs = .error d) :
    ∃ ts q rest, Calls p cs ts q rest ∧ next q rest = .error d := by
  obtain ⟨ts, q, rest, hcalls, ⟨d', hfail⟩ | ⟨stop, hstop, heof⟩⟩ := exists_calls p cs
  · rw [hcalls.scanFrom_error hfail] at h
    cases h
    exact ⟨ts, q, rest, hcalls, hfail⟩
  · rw [hcalls.scanFrom_eq (scanFrom_of_eof hstop heof)] at h
    cases h

/-- The tokens of a text are what the calls answer. -/
theorem calls_of_scanFrom (h : scanFrom p cs = .ok s) :
    ∃ q rest, Calls p cs s.tokens q rest ∧ next q rest = .ok (s.stop, []) := by
  obtain ⟨ts, q, rest, hcalls, ⟨d, hfail⟩ | ⟨stop, hstop, heof⟩⟩ := exists_calls p cs
  · rw [hcalls.scanFrom_error hfail] at h
    cases h
  · rw [hcalls.scanFrom_eq (scanFrom_of_eof hstop heof), List.append_nil] at h
    cases h
    exact ⟨q, rest, hcalls, hstop⟩

/-- Every token of a row is the answer to a call behind the tokens in front of it. -/
theorem Calls.split (h : Calls p cs ts q rest) {u : Token} {rest' : List Char}
    (hlast : next q rest = .ok (u, rest')) {pre post : List Token}
    (hsplit : ts ++ [u] = pre ++ t :: post) :
    ∃ q₁ cs₁ cs₂, Calls p cs pre q₁ cs₁ ∧ next q₁ cs₁ = .ok (t, cs₂) := by
  induction h generalizing pre with
  | nil p cs =>
    obtain rfl : pre = [] := by
      have hlength := congrArg List.length hsplit
      simp only [List.length_append, List.length_cons, List.length_nil] at hlength
      exact List.eq_nil_of_length_eq_zero (by omega)
    obtain ⟨rfl, -⟩ := List.cons.inj hsplit
    exact ⟨p, cs, _, .nil p cs, hlast⟩
  | @cons p q cs cs₁ rest t₀ ts hfirst hne _ ih =>
    cases pre with
    | nil =>
      obtain ⟨rfl, -⟩ := List.cons.inj hsplit
      exact ⟨p, cs, _, .nil p cs, hfirst⟩
    | cons t₁ pre =>
      obtain ⟨rfl, hrest⟩ := List.cons.inj hsplit
      obtain ⟨q₁, cs₂, cs₃, hcalls, hnext⟩ := ih hlast hrest
      exact ⟨q₁, cs₂, cs₃, .cons hfirst hne hcalls, hnext⟩

/-! ## The tokens of a source text -/

/-- The tokens of a text are those of its stream, and its end. -/
theorem tokenize_eq (source : String) :
    tokenize source = (scan source).map fun s => s.tokens ++ [s.stop] := by
  rw [tokenize]
  cases scan source <;> rfl

theorem exists_scan_of_tokenize {source : String} (h : tokenize source = .ok ts) :
    ∃ s, scan source = .ok s ∧ ts = s.tokens ++ [s.stop] := by
  rw [tokenize_eq] at h
  cases hs : scan source with
  | error d => rw [hs] at h; cases h
  | ok s => rw [hs] at h; cases h; exact ⟨s, rfl, rfl⟩

end Token

end IrRecords
