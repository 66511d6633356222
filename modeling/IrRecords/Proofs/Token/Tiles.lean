import IrRecords.Proofs.Token.Branches
import IrRecords.Proofs.Token.Cuts
import IrRecords.Text.Blank

/-!
# What cutting a text gives

The tokens of a text are the text. Each of them has its own characters and the gap in front of it,
and in a row these are all there is (`Tiles`). So a row of neighbouring tokens has a place in the
source text, and what is shown of them is shown of that place.

The first character of a token tells something about its kind, whatever stands behind: the sigils
start references and nothing else does, and a blank character starts only what is no token of the
language at all. That is enough to know how the text of a row of tokens begins.
-/

namespace IrRecords

/-- Whether a token of this kind neither refers to anything nor ends the text. -/
def TokenKind.isPlain : TokenKind → Bool
  | .localRef _ | .globalRef _ | .eof => false
  | _ => true

namespace Token

/-! ## First characters -/

theorem isPlain_punctuation {c : Char} {kind : TokenKind} (h : punctuation? c = some kind) :
    kind.isPlain = true := by
  unfold punctuation? at h
  split at h
  all_goals cases h
  all_goals rfl

theorem isPlain_wordOrLabel (c : Char) (cs : List Char) (used : Nat) :
    (wordOrLabel c cs used).1.isPlain = true := by
  rw [wordOrLabel]
  split <;> rfl

theorem isPlain_numeralKind (isFloat : Bool) (cs : List Char) :
    (numeralKind isFloat cs).isPlain = true := by
  cases isFloat <;> rfl

/-- Only a sigil starts a reference. -/
theorem isPlain_lexeme {c : Char} {cs : List Char} {kind : TokenKind} {used : Nat}
    (h : lexeme c cs = .ok (kind, used)) (hlocal : c ≠ '%') (hglobal : c ≠ '@') :
    kind.isPlain = true := by
  cases lexes_of_lexeme h with
  | punctuation hp => exact isPlain_punctuation hp
  | localRef hc _ => exact absurd hc hlocal
  | globalRef hc _ => exact absurd hc hglobal
  | negative _ _ _ => exact isPlain_numeralKind _ _
  | numeral _ _ _ => exact isPlain_numeralKind _ _
  | word _ _ hword =>
    have hplain := isPlain_wordOrLabel c cs (runLength Text.isNameChar cs)
    rwa [hword] at hplain
  | _ => rfl

/-- The sigil of locals starts references to locals. -/
theorem exists_localRef {cs : List Char} {kind : TokenKind} {used : Nat}
    (h : lexeme '%' cs = .ok (kind, used)) : ∃ id, kind = .localRef id := by
  rw [lexeme_percent] at h
  obtain ⟨r, _, hmake⟩ := exists_of_map_reference h
  cases hmake
  exact ⟨r.1, rfl⟩

/-- The sigil of globals starts references to globals. -/
theorem exists_globalRef {cs : List Char} {kind : TokenKind} {used : Nat}
    (h : lexeme '@' cs = .ok (kind, used)) : ∃ id, kind = .globalRef id := by
  rw [lexeme_at] at h
  obtain ⟨r, _, hmake⟩ := exists_of_map_reference h
  cases hmake
  exact ⟨r.1, rfl⟩

/-- No character of a name is blank. -/
theorem isBlank_of_isNameChar {c : Char} (h : Text.isNameChar c = true) :
    Text.isBlank c = false := by
  simp only [Text.isNameChar, Bool.or_eq_true, beq_iff_eq] at h
  rcases h with (((h | rfl) | rfl) | rfl) | rfl
  · -- Letters and digits lie in three ranges that no blank character is in.
    change ((decide ('A'.val ≤ c.val ∧ c.val ≤ 'Z'.val)
      || (decide ('a'.val ≤ c.val) && decide (c.val ≤ 'z'.val)))
      || (decide ('0'.val ≤ c.val) && decide (c.val ≤ '9'.val))) = true at h
    simp only [Bool.or_eq_true, Bool.and_eq_true, decide_eq_true_eq, UInt32.le_iff_toNat_le] at h
    have hnat : c.toNat = c.val.toNat := rfl
    have hA : 'A'.val.toNat = 65 := rfl
    have hZ : 'Z'.val.toNat = 90 := rfl
    have ha : 'a'.val.toNat = 97 := rfl
    have hz : 'z'.val.toNat = 122 := rfl
    have h0 : '0'.val.toNat = 48 := rfl
    have h9 : '9'.val.toNat = 57 := rfl
    simp only [Text.isBlank, Text.blankRanges, List.any_cons, List.any_nil, Bool.or_false,
      Bool.or_eq_false_iff, Bool.and_eq_false_iff, decide_eq_false_iff_not]
    omega
  all_goals decide

theorem isBlank_of_punctuation {c : Char} (h : (punctuation? c).isSome = true) :
    Text.isBlank c = false := by
  unfold punctuation? at h
  split at h
  all_goals first | decide | cases h

/-- A blank character that is cut off for a token is a token of its own. -/
theorem lexeme_of_isBlank {c : Char} (h : Text.isBlank c = true) (cs : List Char) :
    lexeme c cs = .ok (.other c, 0) := by
  have hne : ∀ d, Text.isBlank d = false → c ≠ d := by
    rintro d hd rfl
    rw [hd] at h
    cases h
  have hname : Text.isNameChar c = false := by
    cases hc : Text.isNameChar c with
    | false => rfl
    | true => rw [isBlank_of_isNameChar hc] at h; cases h
  refine lexeme_of_other hname ?_ ?_
  · simp [hne '%' (by decide), hne '@' (by decide), hne '!' (by decide), hne '#' (by decide),
      hne '"' (by decide)]
  · rintro (hp | ⟨rfl, _⟩ | ⟨rfl, _⟩ | ⟨rfl, _⟩)
    · rw [isBlank_of_punctuation hp] at h
      cases h
    all_goals cases h

/-! ## Whole texts -/

/-- The token was cut off the front of some text. -/
def Lexed (t : Token) : Prop :=
  ∃ c rest used, t.text = c :: rest.take used ∧ lexeme c rest = .ok (t.kind, used)

/-- How the text of a token begins: with the sigil of its kind, if it has one, and never with a
blank unless it is one. -/
theorem Lexed.exists_first {t : Token} (h : t.Lexed) : ∃ c cs, t.text = c :: cs
    ∧ ((∀ d, t.kind ≠ .other d) → Text.isBlank c = false)
    ∧ (c = '%' ↔ ∃ id, t.kind = .localRef id) ∧ (c = '@' ↔ ∃ id, t.kind = .globalRef id) := by
  obtain ⟨c, rest, used, htext, hlex⟩ := h
  -- A reference has one of the two sigils, and each sigil has its own kind of references.
  have hsigil : t.kind.isPlain = false → c = '%' ∨ c = '@' := by
    intro hplain
    by_contra hc
    rw [not_or] at hc
    rw [isPlain_lexeme hlex hc.1 hc.2] at hplain
    cases hplain
  refine ⟨c, _, htext, fun hother => ?_, ⟨?_, ?_⟩, ⟨?_, ?_⟩⟩
  · cases hblank : Text.isBlank c with
    | false => rfl
    | true =>
      rw [lexeme_of_isBlank hblank, Except.ok.injEq, Prod.mk.injEq] at hlex
      exact absurd hlex.1.symm (hother c)
  · rintro rfl
    exact exists_localRef hlex
  · rintro ⟨id, hid⟩
    rcases hsigil (by rw [hid]; rfl) with rfl | rfl
    · rfl
    · obtain ⟨id', hid'⟩ := exists_globalRef hlex
      rw [hid] at hid'
      cases hid'
  · rintro rfl
    exact exists_globalRef hlex
  · rintro ⟨id, hid⟩
    rcases hsigil (by rw [hid]; rfl) with rfl | rfl
    · obtain ⟨id', hid'⟩ := exists_localRef hlex
      rw [hid] at hid'
      cases hid'
    · rfl

/-- The end of the text is no token that was cut off. -/
theorem Lexed.kind_ne_eof {t : Token} (h : t.Lexed) : t.kind ≠ .eof := by
  intro heof
  obtain ⟨c, rest, used, _, hlex⟩ := h
  by_cases hlocal : c = '%'
  · subst hlocal
    obtain ⟨id, hid⟩ := exists_localRef hlex
    rw [heof] at hid
    cases hid
  by_cases hglobal : c = '@'
  · subst hglobal
    obtain ⟨id, hid⟩ := exists_globalRef hlex
    rw [heof] at hid
    cases hid
  have hplain := isPlain_lexeme hlex hlocal hglobal
  rw [heof] at hplain
  cases hplain

/-- A token with the gap in front of it. -/
def piece (t : Token) : List Char := t.gap ++ t.text

/-- The tokens of a stream are the text `cs`, cut in pieces. The text starts at `p`, and each token
knows where it stands. -/
structure Tiles (p : Position) (cs : List Char) (s : Stream) : Prop where
  text : cs = s.tokens.flatMap piece ++ s.stop.gap
  lexed : ∀ t ∈ s.tokens, t.Lexed
  placed : ∀ pre t post, s.tokens = pre ++ t :: post →
    t.start = p.after (pre.flatMap piece ++ t.gap)
  stop : s.stop.kind = .eof

/-- A token in front of a text that is cut in pieces. -/
theorem Tiles.cons {p : Position} {cs : List Char} {s : Stream} {t : Token} (ht : t.Lexed)
    (hstart : t.start = p.after t.gap) (h : Tiles (t.start.after t.text) cs s) :
    Tiles p (t.piece ++ cs) (s.cons t) := by
  have htokens : (s.cons t).tokens = t :: s.tokens := rfl
  have hafter : p.after t.piece = t.start.after t.text := by
    rw [piece, Position.after_append, hstart]
  refine ⟨?_, ?_, fun pre u post hu => ?_, h.stop⟩
  · rw [htokens, List.flatMap_cons, List.append_assoc]
    exact congrArg (t.piece ++ ·) h.text
  · rw [htokens]
    exact List.forall_mem_cons.mpr ⟨ht, h.lexed⟩
  · rw [htokens] at hu
    cases pre with
    | nil =>
      rw [List.nil_append, List.cons.injEq] at hu
      exact hu.1 ▸ hstart
    | cons first pre =>
      rw [List.cons_append, List.cons.injEq] at hu
      obtain ⟨rfl, hu⟩ := hu
      rw [h.placed pre u post hu, ← hafter, ← Position.after_append, List.flatMap_cons,
        List.append_assoc]

/-- The text behind a token is shorter than the text from its gap on. -/
theorem length_drop_lt {cs rest : List Char} {c : Char} (h : cs.drop (gapLength cs) = c :: rest)
    (used : Nat) : (rest.drop used).length < cs.length := by
  have hlength := congrArg List.length h
  rw [List.length_drop, List.length_cons] at hlength
  rw [List.length_drop]
  omega

theorem gapFrom_le (comment : Bool) (cs : List Char) : gapFrom comment cs ≤ cs.length := by
  induction cs generalizing comment with
  | nil => exact Nat.le_refl 0
  | cons c cs ih =>
    rw [gapFrom]
    split_ifs
    · exact Nat.succ_le_succ (ih false)
    · exact Nat.succ_le_succ (ih true)
    · exact Nat.succ_le_succ (ih true)
    · exact Nat.succ_le_succ (ih false)
    · exact Nat.zero_le _

/-- Whatever holds of a gap without a token behind it, and of a token in front of a text of which
it holds, holds of every text that can be cut. -/
theorem scanFrom_induction {P : Position → List Char → Stream → Prop}
    (hstop : ∀ p gap, gapLength gap = gap.length → P p gap ⟨[], ⟨.eof, gap, [], p.after gap⟩⟩)
    (htoken : ∀ p gap c rest kind used s, gapLength (gap ++ c :: rest) = gap.length →
      lexeme c rest = .ok (kind, used) →
      P ((p.after gap).after (c :: rest.take used)) (rest.drop used) s →
      P p (gap ++ c :: rest) (s.cons ⟨kind, gap, c :: rest.take used, p.after gap⟩))
    {p : Position} {cs : List Char} {s : Stream} (h : scanFrom p cs = .ok s) : P p cs s := by
  -- The induction is on the length of the text, which is what the scan recurses on.
  induction hn : cs.length using Nat.strongRecOn generalizing p cs s with
  | ind n ih =>
    have hgap : cs.take (gapLength cs) ++ cs.drop (gapLength cs) = cs := List.take_append_drop _ cs
    have hlength : (cs.take (gapLength cs)).length = gapLength cs :=
      List.length_take_of_le (gapFrom_le false cs)
    cases hrest : cs.drop (gapLength cs) with
    | nil =>
      rw [scanFrom_end hrest] at h
      cases h
      rw [hrest, List.append_nil] at hgap
      have hall := hstop p (cs.take (gapLength cs)) (by rw [hlength, hgap])
      rwa [hgap] at hall ⊢
    | cons c rest =>
      rw [scanFrom_token hrest] at h
      cases hlex : lexeme c rest with
      | error fault => rw [hlex] at h; cases h
      | ok r =>
        obtain ⟨kind, used⟩ := r
        rw [hlex] at h
        dsimp only at h
        cases hscan : scanFrom ((p.after (cs.take (gapLength cs))).after (c :: rest.take used))
            (rest.drop used) with
        | error d => rw [hscan] at h; cases h
        | ok stream =>
          rw [hscan] at h
          cases h
          have hall := htoken p (cs.take (gapLength cs)) c rest kind used stream
            (by rw [← hrest, hgap, hlength]) hlex (ih _ (hn ▸ length_drop_lt hrest used) hscan rfl)
          rwa [← hrest, hgap] at hall

/-- **Nothing is lost when a text is cut.** -/
theorem scanFrom_spec {p : Position} {cs : List Char} {s : Stream} (h : scanFrom p cs = .ok s) :
    Tiles p cs s := by
  refine scanFrom_induction (fun p gap _ => ?_) (fun p gap c rest kind used s _ hlex hs => ?_) h
  · exact ⟨rfl, by simp, fun pre t post h => by simp at h, rfl⟩
  · have hall := Tiles.cons (p := p) (t := ⟨kind, gap, c :: rest.take used, p.after gap⟩)
      ⟨c, rest, used, rfl, hlex⟩ rfl hs
    rwa [piece, List.append_assoc, List.cons_append, List.take_append_drop] at hall

end Token

end IrRecords
