import IrRecords.Proofs.Token.Calls
import IrRecords.Proofs.Token.Endings
import IrRecords.Proofs.Token.Lines

/-!
# Putting tokens into a text

A row of calls ends where the next one begins, so that tokens may be put in between two of them
(`Calls.append`, `Calls.before`). What stands behind is cut as before, at another place: its tokens keep their
lines, and begin in the first column if they did (`exists_scanFrom_of_aligned`). The stream that comes of it
is a `Splice` of the first one.
-/

namespace IrRecords

/-! ## Places on the same line -/

/-- Two places on the same line, both or neither at its beginning. -/
structure Position.Aligned (p p' : Position) : Prop where
  line : p'.line = p.line
  first : p'.column = 1 ↔ p.column = 1
  pos : 0 < p.column
  pos' : 0 < p'.column

namespace Position

variable {p p' : Position}

theorem Aligned.refl (h : 0 < p.column) : p.Aligned p := ⟨rfl, .rfl, h, h⟩

theorem Aligned.next (h : p.Aligned p') (c : Char) : (p.next c).Aligned (p'.next c) := by
  have hsize := c.utf8Size_pos
  have hpos := h.pos
  have hpos' := h.pos'
  rw [Position.next, Position.next]
  split
  · exact ⟨congrArg (· + 1) h.line, .rfl, Nat.one_pos, Nat.one_pos⟩
  · refine ⟨h.line, ?_, Nat.add_pos_left hpos _, Nat.add_pos_left hpos' _⟩
    dsimp only
    omega

/-- Behind a line break both places are at the beginning of a line. -/
theorem aligned_newline (h : p'.line = p.line) : (p.after ['\n']).Aligned (p'.after ['\n']) :=
  ⟨congrArg (· + 1) h, .rfl, Nat.one_pos, Nat.one_pos⟩

theorem Aligned.after (h : p.Aligned p') (cs : List Char) : (p.after cs).Aligned (p'.after cs) := by
  induction cs generalizing p p' with
  | nil => exact h
  | cons c cs ih => exact ih (h.next c)

/-- Behind a character of a line the place is not at its beginning. -/
theorem column_lt_after {w : List Char} (h : '\n' ∉ w) (hw : w ≠ []) (hp : 0 < p.column) :
    1 < (p.after w).column := by
  have hle : ∀ {w : List Char} {p : Position}, '\n' ∉ w → p.column ≤ (p.after w).column := by
    intro w
    induction w with
    | nil => exact fun _ => Nat.le_refl _
    | cons c w ih =>
      intro p h
      rw [List.mem_cons, not_or] at h
      refine Nat.le_trans ?_ (ih h.2)
      rw [Position.next, if_neg (Ne.symm h.1)]
      exact Nat.le_add_right _ _
  cases w with
  | nil => exact absurd rfl hw
  | cons c w =>
    rw [List.mem_cons, not_or] at h
    have hsize := c.utf8Size_pos
    have hnext : (p.next c).column = p.column + c.utf8Size := by rw [Position.next, if_neg (Ne.symm h.1)]
    have hrest := hle (p := p.next c) h.2
    rw [after_cons]
    omega

/-- Where the line has not changed, there is no line break. -/
theorem newline_not_mem_of_line {w : List Char} (h : (p.after w).line = p.line) : '\n' ∉ w := by
  intro hmem
  obtain ⟨front, behind, rfl⟩ := List.append_of_mem hmem
  have hfront := line_le_after p front
  have hbehind := line_le_after ((p.after front).next '\n') behind
  have hnext : ((p.after front).next '\n').line = (p.after front).line + 1 := rfl
  rw [after_append, after_cons] at h
  omega

theorem column_pos_after (hp : 0 < p.column) (cs : List Char) : 0 < (p.after cs).column :=
  ((Aligned.refl hp).after cs).pos

end Position

namespace Token

variable {p p' q : Position} {cs rest gap w : List Char} {c d : Char} {t : Token}
  {ts us : List Token} {s x : Stream} {kind : TokenKind}

/-! ## Rows of calls -/

/-- The first tokens of a text are what calls answer, and the others those of what the calls leave. -/
theorem exists_calls_of_append (h : scanFrom p cs = .ok s) (hs : s.tokens = ts ++ us) :
    ∃ q rest, Calls p cs ts q rest ∧ scanFrom q rest = .ok ⟨us, s.stop⟩ := by
  induction ts generalizing p cs s with
  | nil =>
    obtain ⟨tokens, stop⟩ := s
    obtain rfl : tokens = us := hs
    exact ⟨p, cs, .nil p cs, h⟩
  | cons t ts ih =>
    rw [Token.scanFrom_eq] at h
    cases hnext : next p cs with
    | error d => rw [hnext] at h; cases h
    | ok r =>
      obtain ⟨t', rest⟩ := r
      rw [hnext] at h
      dsimp only at h
      -- The end of the text is no token, so none of `t :: ts` is answered by it.
      split at h
      · cases h
        cases hs
      · next hne =>
        cases hscan : scanFrom (t'.start.after t'.text) rest with
        | error d => rw [hscan] at h; cases h
        | ok s' =>
          rw [hscan] at h
          cases h
          obtain ⟨rfl, hrow⟩ := List.cons.inj hs
          obtain ⟨q, rest', hcalls, hrest⟩ := ih hscan hrow
          exact ⟨q, rest', .cons hnext hne hcalls, hrest⟩

theorem Calls.append {q' : Position} {rest' : List Char} (h : Calls p cs ts q rest)
    (h' : Calls q rest us q' rest') : Calls p cs (ts ++ us) q' rest' := by
  induction h with
  | nil p cs => exact h'
  | cons h hne _ ih => exact .cons h hne (ih h')

/-- A call answers the token that begins behind the gap. -/
theorem next_of_lexeme (gap : List Char) (hgap : gapLength (gap ++ c :: (w ++ rest)) = gap.length)
    (hlex : lexeme c (w ++ rest) = .ok (kind, w.length)) (p : Position) :
    next p (gap ++ c :: (w ++ rest)) = .ok (⟨kind, gap, c :: w, p.after gap⟩, rest) := by
  rw [next, hgap, List.take_left, List.drop_left]
  dsimp only
  rw [hlex]
  dsimp only
  rw [List.take_left, List.drop_left]

/-- What a call answers begins behind the gap. -/
theorem exists_lexeme_of_next (h : next p cs = .ok (t, rest)) (hne : t.kind ≠ .eof) :
    ∃ c w, t = ⟨t.kind, t.gap, c :: w, p.after t.gap⟩ ∧ cs = t.gap ++ c :: (w ++ rest)
      ∧ gapLength cs = t.gap.length ∧ lexeme c (w ++ rest) = .ok (t.kind, w.length) := by
  have hcs : cs.take (gapLength cs) ++ cs.drop (gapLength cs) = cs := List.take_append_drop _ cs
  have hlength : (cs.take (gapLength cs)).length = gapLength cs :=
    List.length_take_of_le (gapFrom_le false cs)
  rw [next] at h
  split at h
  · cases h
    exact absurd rfl hne
  · next c rest' hdrop =>
    split at h
    · cases h
    · next kind used hlex =>
      cases h
      have hused : (rest'.take used).length = used := List.length_take_of_le (within_lexeme hlex).le
      refine ⟨c, rest'.take used, rfl, ?_, hlength.symm, ?_⟩
      · rw [List.take_append_drop, ← hdrop, hcs]
      · rw [List.take_append_drop, hused, hlex]

/-- **A row of tokens is the same in front of what ends it.** -/
theorem Calls.before (h : Calls p cs ts q rest) (hd : endsToken d = true) (es : List Char) :
    Calls p (ts.flatMap piece ++ d :: es) ts q (d :: es) := by
  induction h with
  | nil p cs => exact .nil p _
  | @cons p q cs cs₁ rest t ts h hne hrest ih =>
    obtain ⟨c, w, ht, hcs, hgap, hlex⟩ := exists_lexeme_of_next h hne
    -- The tokens of the row cut this one off by themselves, and then they do so in front of `d`.
    have halone : lexeme c (w ++ ts.flatMap piece) = .ok (t.kind, w.length) := by
      rw [hrest.text.1, ← List.append_assoc] at hlex
      exact lexeme_of_append hlex (by rw [List.length_append]; exact Nat.le_add_right _ _)
    have hlong := lexeme_append_of_ends halone hd es
    rw [List.append_assoc] at hlong
    have hgap' : gapLength (t.gap ++ c :: (w ++ (ts.flatMap piece ++ d :: es))) = t.gap.length := by
      rw [hcs] at hgap
      exact gapFrom_append_token hgap _
    have hpiece : t.piece = t.gap ++ c :: w := by rw [piece, ht]
    refine .cons ?_ hne ih
    rw [List.flatMap_cons, hpiece, List.append_assoc, List.append_assoc, List.cons_append,
      next_of_lexeme _ hgap' hlong, ← ht]

/-! ## Texts at another place -/

/-- The token is the same at another place of the same line, up to the gap in front of it. -/
structure Alike (t t' : Token) : Prop where
  kind : t'.kind = t.kind
  text : t'.text = t.text
  start : t.start.Aligned t'.start

/-- The token is the same at another place of the same line. -/
structure Shifted (t t' : Token) : Prop extends Alike t t' where
  gap : t'.gap = t.gap

/-- **It makes no difference to the tokens of a text where on a line it begins.** -/
theorem exists_scanFrom_of_aligned (hs : scanFrom p cs = .ok s) (hp : p.Aligned p') :
    ∃ s', scanFrom p' cs = .ok s' ∧ List.Forall₂ Shifted s.tokens s'.tokens
      ∧ Shifted s.stop s'.stop := by
  refine scanFrom_induction (P := fun p cs s => ∀ p' : Position, p.Aligned p' →
    ∃ s', scanFrom p' cs = .ok s' ∧ List.Forall₂ Shifted s.tokens s'.tokens ∧ Shifted s.stop s'.stop)
    (fun p gap hgap p' hp => ?_) (fun p gap c rest kind used s hgap hlex ih p' hp => ?_) hs p' hp
  · have hdrop : gap.drop (gapLength gap) = [] := by rw [hgap, List.drop_length]
    refine ⟨_, scanFrom_end hdrop, .nil, ?_⟩
    rw [hgap, List.take_length]
    exact ⟨⟨rfl, rfl, hp.after gap⟩, rfl⟩
  · have hdrop : (gap ++ c :: rest).drop (gapLength (gap ++ c :: rest)) = c :: rest := by
      rw [hgap, List.drop_left]
    have hstart := hp.after gap
    obtain ⟨s', hs', htokens, hstop⟩ := ih _ (hstart.after (c :: rest.take used))
    refine ⟨s'.cons ⟨kind, gap, c :: rest.take used, p'.after gap⟩, ?_,
      .cons ⟨⟨rfl, rfl, hstart⟩, rfl⟩ htokens, hstop⟩
    rw [scanFrom_token hdrop, hlex, hgap, List.take_left]
    dsimp only
    rw [hs']

/-- The rows have the same tokens, and the same gaps between them. -/
structure SameRow (us us' : List Token) : Prop where
  tokens : List.Forall₂ Alike us us'
  gaps : List.Forall₂ (fun t t' : Token => t'.gap = t.gap) us.tail us'.tail

theorem sameRow_of_shifted {us' : List Token} (h : List.Forall₂ Shifted us us') : SameRow us us' := by
  refine ⟨h.imp fun _ _ ht => ht.toAlike, ?_⟩
  rw [← List.drop_one, ← List.drop_one]
  exact List.forall₂_drop 1 (h.imp fun _ _ ht => ht.gap)

/-- The gap in front of a row does not matter. -/
theorem SameRow.widen {us' : List Token} (h : SameRow us us') (margin margin' : List Char) :
    SameRow (Token.widen margin us) (Token.widen margin' us') := by
  obtain ⟨htokens, hgaps⟩ := h
  cases htokens with
  | nil => exact ⟨.nil, .nil⟩
  | cons ht hts => exact ⟨.cons ⟨ht.kind, ht.text, ht.start⟩ hts, hgaps⟩

theorem Stream.tokens_widen (margin : List Char) (x : Stream) :
    (x.widen margin).tokens = Token.widen margin x.tokens := by
  obtain ⟨tokens, stop⟩ := x
  cases tokens <;> rfl

theorem Stream.stop_widen (margin : List Char) (x : Stream) :
    (x.widen margin).stop.kind = x.stop.kind ∧ (x.widen margin).stop.start = x.stop.start := by
  obtain ⟨tokens, stop⟩ := x
  cases tokens <;> exact ⟨rfl, rfl⟩

theorem mem_widen_line {margin : List Char} {P : Nat → Prop} (h : ∀ t ∈ us, P t.line) :
    ∀ t ∈ Token.widen margin us, P t.line := by
  cases us with
  | nil => exact h
  | cons t ts => exact List.forall_mem_cons.mpr (List.forall_mem_cons.mp h)

/-! ## Something put in -/

/-- The stream `s'` has the tokens `is` behind the first tokens `ts` of `s`, and otherwise the same. -/
structure Splice (s s' : Stream) (ts is us us' : List Token) : Prop where
  tokens : s.tokens = ts ++ us
  tokens' : s'.tokens = ts ++ (is ++ us')
  behind : SameRow us us'
  lexed : ∀ t ∈ us, t.Lexed
  lexed' : ∀ t ∈ us', t.Lexed
  eof : s.stop.kind = .eof
  eof' : s'.stop.kind = .eof
  line : s'.stop.line = s.stop.line

/-! ## Gaps -/

variable {comment : Bool}

/-- Behind a gap the next one goes on, inside of a comment or not. -/
theorem exists_gapFrom_append (h : gapFrom comment gap = gap.length) :
    ∃ inside, ∀ cs, gapFrom comment (gap ++ cs) = gap.length + gapFrom inside cs := by
  induction gap generalizing comment with
  | nil => exact ⟨comment, fun cs => by rw [List.nil_append, List.length_nil, Nat.zero_add]⟩
  | cons d gap ih =>
    rw [gapFrom] at h
    split_ifs at h with hline hcomment hsign hblank
    all_goals
      obtain ⟨inside, hall⟩ := ih (Nat.succ.inj h)
      refine ⟨inside, fun cs => ?_⟩
      rw [List.cons_append, gapFrom]
    · rw [if_pos hline, hall, List.length_cons]
      omega
    · rw [if_neg hline, if_pos hcomment, hall, List.length_cons]
      omega
    · rw [if_neg hline, if_neg hcomment, if_pos hsign, hall, List.length_cons]
      omega
    · rw [if_neg hline, if_neg hcomment, if_neg hsign, if_pos hblank, hall, List.length_cons]
      omega

/-- What a gap begins with is a gap. -/
theorem gapFrom_eq_length (cs : List Char) (h : gap.length ≤ gapFrom comment (gap ++ cs)) :
    gapFrom comment gap = gap.length := by
  induction gap generalizing comment with
  | nil => rfl
  | cons d gap ih =>
    rw [List.cons_append, gapFrom, List.length_cons] at h
    rw [gapFrom]
    split_ifs at h ⊢
    all_goals first
      | exact congrArg (· + 1) (ih (Nat.le_of_succ_le_succ h))
      | exact absurd h (Nat.not_succ_le_zero _)

/-- A comment goes on to the end of the line. -/
theorem gapFrom_true_append (h : '\n' ∉ w) (cs : List Char) :
    gapFrom true (w ++ cs) = w.length + gapFrom true cs := by
  induction w with
  | nil => rw [List.nil_append, List.length_nil, Nat.zero_add]
  | cons c w ih =>
    rw [List.mem_cons, not_or] at h
    rw [List.cons_append, gapFrom, if_neg (by simpa using Ne.symm h.1), if_pos rfl, ih h.2,
      List.length_cons]
    omega

end Token

end IrRecords
