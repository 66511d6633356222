import IrRecords.Proofs.Token.Calls
import IrRecords.Proofs.Token.Lines

/-!
# Texts joined by a line break

Two texts with a line break between them are cut as each of them is alone, as long as the first one can be
cut (`joins_of_tokenize`). The tokens of the second text are the same, so many bytes and lines further down,
and a fault in it is reported that much further down as well. Columns stay, because a line break is in
front.

That the first text can be cut is needed: a quote that it leaves open would be closed by the second one.
-/

namespace IrRecords

/-- The diagnostic of a text that starts further down. -/
def Diagnostic.lower (bytes lines : Nat) (d : Diagnostic) : Diagnostic :=
  { d with position := d.position.lower bytes lines }

/-- Behind a text and a line break a new line starts. -/
theorem Position.start_after_newline (cs : List Char) : start.after (cs ++ ['\n'])
    = start.lower (Text.byteLength cs + 1) (cs.count '\n' + 1) := by
  rw [after_append, start_after]
  simp only [after_cons, after_nil, next, if_pos, lower, start, Nat.zero_add, Nat.add_assoc]

namespace Token

variable {p q : Position} {bytes lines : Nat} {cs rest : List Char} {t : Token} {ts us : List Token}
  {d : Diagnostic} {a b : String} {s : Stream}

/-! ## Faults further down -/

/-- A call answers the same further down. -/
theorem next_lower (bytes lines : Nat) (p : Position) (cs : List Char) :
    next (p.lower bytes lines) cs = match next p cs with
      | .error d => .error (d.lower bytes lines)
      | .ok (t, rest) => .ok (t.lower bytes lines, rest) := by
  rw [next, next, Position.after_lower]
  cases cs.drop (gapLength cs) with
  | nil => rfl
  | cons c rest =>
    dsimp only
    cases lexeme c rest <;> rfl

theorem Calls.lower (h : Calls p cs ts q rest) (bytes lines : Nat) :
    Calls (p.lower bytes lines) cs (ts.map (Token.lower bytes lines)) (q.lower bytes lines) rest := by
  induction h with
  | nil p cs => exact .nil _ _
  | cons h hne _ ih =>
    refine .cons (by rw [next_lower, h]) hne ?_
    rwa [← Position.after_lower] at ih

/-- **A text that cannot be cut cannot be cut further down**, for the same fault. -/
theorem scanFrom_lower_error (bytes lines : Nat) (h : scanFrom p cs = .error d) :
    scanFrom (p.lower bytes lines) cs = .error (d.lower bytes lines) := by
  obtain ⟨ts, q, rest, hcalls, hfail⟩ := exists_calls_of_error h
  exact (hcalls.lower bytes lines).scanFrom_error (by rw [next_lower, hfail])

/-! ## Two texts -/

/-- The stream of a text, a line break and another text. -/
theorem scan_append_newline (ha : scan a = .ok s) (b : String) :
    scan (a ++ "\n" ++ b) = match scan b with
      | .error d => .error (d.lower (a.utf8ByteSize + 1) (a.toList.count '\n' + 1))
      | .ok x => .ok (s.followedBy (x.lower (a.utf8ByteSize + 1) (a.toList.count '\n' + 1))) := by
  have hsource : (a ++ "\n" ++ b).toList = a.toList ++ '\n' :: b.toList := by
    simp only [String.toList_append, List.append_assoc]
    rfl
  have hbytes : Text.byteLength a.toList = a.utf8ByteSize := by
    rw [Text.byteLength, String.ofList_toList]
  rw [scan, hsource, scanFrom_append_newline ha, Position.start_after_newline, hbytes]
  cases hb : scan b with
  | error d => rw [scanFrom_lower_error _ _ hb]; rfl
  | ok x => rw [scanFrom_lower _ _ hb]; rfl

theorem row_lower (bytes lines : Nat) (x : Stream) : (x.lower bytes lines).tokens
    ++ [(x.lower bytes lines).stop] = (x.tokens ++ [x.stop]).map (Token.lower bytes lines) := by
  rw [List.map_append]
  rfl

theorem row_followedBy (s x : Stream) : (s.followedBy x).tokens ++ [(s.followedBy x).stop]
    = s.tokens ++ Token.widen (s.stop.gap ++ ['\n']) (x.tokens ++ [x.stop]) := by
  obtain ⟨tokens, stop⟩ := x
  cases tokens <;> simp [Stream.followedBy, Stream.widen, Token.widen]

/-- **The tokens of a text, a line break and another text.** The first gap of the other text goes on from
what the first text ends with. -/
theorem tokenize_append_newline (ha : scan a = .ok s) (b : String) :
    tokenize (a ++ "\n" ++ b) = match tokenize b with
      | .error d => .error (d.lower (a.utf8ByteSize + 1) (a.toList.count '\n' + 1))
      | .ok us => .ok (s.tokens ++ Token.widen (s.stop.gap ++ ['\n'])
          (us.map (Token.lower (a.utf8ByteSize + 1) (a.toList.count '\n' + 1)))) := by
  rw [tokenize_eq, tokenize_eq, scan_append_newline ha]
  cases scan b with
  | error d => rfl
  | ok x => exact congrArg Except.ok ((row_followedBy s _).trans (by rw [row_lower]))

/-! ## The second text in its place -/

/-- The token `t'` is the token `t` in a text that starts so many bytes and lines further down. -/
structure Below (bytes lines : Nat) (t t' : Token) : Prop where
  kind : t'.kind = t.kind
  text : t'.text = t.text
  start : t'.start.offset = t.start.offset + bytes
  stop : t'.stop = t.stop + bytes
  line : t'.start.line = t.start.line + lines
  column : t'.start.column = t.start.column

/-- A token that starts further down stops further down. -/
theorem below_lower (bytes lines : Nat) (t : Token) : Below bytes lines t (t.lower bytes lines) := by
  have hstop : (t.lower bytes lines).stop = t.stop + bytes := by
    rw [stop, stop, lower, Position.after_lower]
    rfl
  exact ⟨rfl, rfl, rfl, hstop, rfl, rfl⟩

/-- The gap in front of the first token does not matter. -/
theorem forall₂_below_widen (h : List.Forall₂ (Below bytes lines) ts us) (margin : List Char) :
    List.Forall₂ (Below bytes lines) ts (Token.widen margin us) := by
  cases h with
  | nil => exact .nil
  | cons ht hts => exact .cons ⟨ht.kind, ht.text, ht.start, ht.stop, ht.line, ht.column⟩ hts

/-- What is told of the text `b` behind the text `a`, whose tokens are `ts`, and a line break. -/
structure Joins (a b : String) (ts : List Token) : Prop where
  /-- The end of the first text is told once, behind its other tokens. -/
  ends : ∃ front stop, ts = front ++ [stop] ∧ stop.kind = .eof ∧ ∀ t ∈ front, t.kind ≠ .eof
  /-- The whole text can be cut if and only if the second one can. -/
  succeeds : (∃ ws, tokenize (a ++ "\n" ++ b) = .ok ws) ↔ ∃ us, tokenize b = .ok us
  /-- The tokens are those of the first text, but for its end, and those of the second one. -/
  tokens : ∀ us, tokenize b = .ok us → ∃ vs, tokenize (a ++ "\n" ++ b) = .ok (ts.dropLast ++ vs)
    ∧ List.Forall₂ (Below (a.utf8ByteSize + 1) (a.toList.count '\n' + 1)) us vs
  /-- A fault is that of the second text. -/
  fails : ∀ d, tokenize b = .error d → tokenize (a ++ "\n" ++ b)
    = .error (d.lower (a.utf8ByteSize + 1) (a.toList.count '\n' + 1))

/-- **A line break keeps two texts apart.** -/
theorem joins_of_tokenize (ha : tokenize a = .ok ts) (b : String) : Joins a b ts := by
  obtain ⟨s, hs, rfl⟩ := exists_scan_of_tokenize ha
  have hjoin := tokenize_append_newline hs b
  have htiles := scanFrom_spec hs
  refine ⟨⟨s.tokens, s.stop, rfl, htiles.stop, fun t ht => (htiles.lexed t ht).kind_ne_eof⟩, ?_, ?_, ?_⟩
  · cases hb : tokenize b with
    | error d =>
      rw [hb] at hjoin
      rw [hjoin]
      exact ⟨fun ⟨_, h⟩ => (nomatch h), fun ⟨_, h⟩ => (nomatch h)⟩
    | ok us =>
      rw [hb] at hjoin
      exact ⟨fun _ => ⟨us, rfl⟩, fun _ => ⟨_, hjoin⟩⟩
  · intro us hb
    rw [hb] at hjoin
    rw [List.dropLast_concat]
    refine ⟨_, hjoin, forall₂_below_widen ?_ _⟩
    exact List.forall₂_map_right_iff.mpr (List.forall₂_same.mpr fun t _ => below_lower _ _ t)
  · intro d hb
    rw [hb] at hjoin
    exact hjoin

/-- A line break between quotes, a comment with a quote in it, and at the end of the text a letter that a sign
and digits would make an exponent of. -/
def openEndedText : String := "c\"a\n\" \u00e9 ; \"\n 1.5e"

theorem joins_of_tokenize_exponent : ∃ ts, tokenize openEndedText = .ok ts
    ∧ ts.map Token.kind = [.chars "a\n", .other '\u00e9', .float "1.5", .word "e", .eof]
    ∧ Joins openEndedText "+3" ts ∧ Joins openEndedText "\n @" ts
    ∧ tokenize (openEndedText ++ "\n" ++ "\n @") = .error ⟨⟨21, 5, 2⟩, .nameMissing '@'⟩ := by
  have hsome : (tokenize openEndedText).toOption.map (·.map Token.kind)
      = some [.chars "a\n", .other '\u00e9', .float "1.5", .word "e", .eof] := by decide +kernel
  have hfault : tokenize "\n @" = .error ⟨⟨2, 2, 2⟩, .nameMissing '@'⟩ := by decide +kernel
  obtain ⟨ts, hts, hkinds⟩ := exists_ok_of_toOption hsome
  have hplace : (⟨⟨2, 2, 2⟩, .nameMissing '@'⟩ : Diagnostic).lower (openEndedText.utf8ByteSize + 1)
      (openEndedText.toList.count '\n' + 1) = ⟨⟨21, 5, 2⟩, .nameMissing '@'⟩ := by decide +kernel
  refine ⟨ts, hts, hkinds, joins_of_tokenize hts _, joins_of_tokenize hts _, ?_⟩
  rw [(joins_of_tokenize hts _).fails _ hfault, hplace]

end Token

end IrRecords
