import IrRecords.Proofs.Token.Spacing

/-!
# Cutting a text line by line

No token goes on behind a line break, except between quotes. So a text that can be cut by itself is cut
into the same tokens in front of a line break and any other text (`scanFrom_append_newline`), and where it
stands makes a difference to positions only (`scanFrom_lower`). A text that is put together from such
texts, each with a line break behind it, is cut into their rows of tokens, one behind the other
(`exists_scan_lines`). The rows stand on lines of their own, below each other (`Rows`).
-/

namespace IrRecords

/-- The position in a text that starts further down. -/
def Position.lower (bytes lines : Nat) (p : Position) : Position :=
  ⟨p.offset + bytes, p.line + lines, p.column⟩

theorem Position.after_lower (bytes lines : Nat) (p : Position) (cs : List Char) :
    (p.lower bytes lines).after cs = (p.after cs).lower bytes lines := by
  induction cs generalizing p with
  | nil => rfl
  | cons c cs ih =>
    have hnext : (p.lower bytes lines).next c = (p.next c).lower bytes lines := by
      rw [Position.next, Position.next]
      split
      · rw [Position.lower, Position.lower, Nat.add_right_comm, Nat.add_right_comm p.line]
      · rw [Position.lower, Position.lower, Nat.add_right_comm]
    rw [Position.after_cons, Position.after_cons, hnext, ih]

/-- Lines are counted from the top. -/
theorem Position.line_le_after (p : Position) (cs : List Char) : p.line ≤ (p.after cs).line := by
  induction cs generalizing p with
  | nil => exact Nat.le_refl _
  | cons c cs ih =>
    refine Nat.le_trans ?_ (ih (p.next c))
    rw [Position.next]
    split
    · exact Nat.le_succ _
    · exact Nat.le_refl _

namespace Token

variable {p : Position} {inside comment : Bool} {c : Char} {cs ds gap rest : List Char} {used : Nat}
  {s x : Stream}

/-! ## Gaps and stretches in front of a line break -/

/-- A gap ends in front of a token, whatever is behind the first character of it. -/
theorem gapFrom_append_token (h : gapFrom comment (gap ++ c :: rest) = gap.length) (cs : List Char) :
    gapFrom comment (gap ++ c :: cs) = gap.length := by
  induction gap generalizing comment with
  | nil =>
    rw [List.nil_append, gapFrom] at h ⊢
    split_ifs at h ⊢
    all_goals exact h
  | cons d gap ih =>
    rw [List.cons_append, gapFrom] at h ⊢
    split_ifs at h ⊢
    all_goals exact congrArg (· + 1) (ih (Nat.succ.inj h))

/-- A gap at the end of a line goes on in the next one. -/
theorem gapFrom_append_newline (h : gapFrom comment gap = gap.length) (ds : List Char) :
    gapFrom comment (gap ++ ['\n'] ++ ds) = (gap ++ ['\n']).length + gapLength ds := by
  induction gap generalizing comment with
  | nil => rw [List.nil_append, List.singleton_append, gapFrom_newline, Nat.add_comm]; rfl
  | cons d gap ih =>
    rw [gapFrom] at h
    rw [List.cons_append, List.cons_append, gapFrom, List.length_cons, Nat.add_right_comm]
    split_ifs at h ⊢
    all_goals exact congrArg (· + 1) (ih (Nat.succ.inj h))

theorem Within.append (h : Within inside cs used) (ds : List Char) :
    Within inside (cs ++ ds) used := by
  induction h with
  | zero => exact .zero
  | succ hc _ ih => exact .succ hc ih

/-- A stretch is the characters of a token in it and the stretch behind them. -/
theorem Within.stretch_eq (h : Within inside cs used) :
    stretch inside cs = cs.take used ++ stretch false (cs.drop used) := by
  rw [← h.take_stretch, ← h.drop_stretch, List.take_append_drop]

/-- A stretch that ends behind a token in front of a line break is not continued by what follows. -/
theorem Within.stretch_append (h : Within inside cs used)
    (hrest : stretch false (cs.drop used ++ '\n' :: ds) = stretch false (cs.drop used)) :
    stretch inside (cs ++ '\n' :: ds) = stretch inside cs := by
  rw [(h.append _).stretch_eq, h.stretch_eq, List.take_append_of_le_length h.le,
    List.drop_append_of_le_length h.le, hrest]

/-- A gap starts with a break. -/
theorem isBreak_of_gapLength {d : Char} {n : Nat} (h : gapLength (d :: cs) = n + 1) :
    isBreak d = true := by
  cases hd : isBreak d with
  | true => rfl
  | false => rw [gapLength, gapFrom_of_not_isBreak hd] at h; cases h

/-- A token does not. -/
theorem isBreak_eq_false_of_gapLength (h : gapLength (c :: cs) = 0) : isBreak c = false := by
  have hspec := gapFrom_spec false (c :: cs)
  rw [show gapFrom false (c :: cs) = 0 from h] at hspec
  rcases hspec with hend | ⟨d, rest, hrest, hd⟩
  · cases hend
  · cases hrest
    exact hd

/-! ## Texts in front of a line break -/

/-- A row of tokens with a wider gap in front of it. -/
def widen (margin : List Char) : List Token → List Token
  | [] => []
  | t :: ts => { t with gap := margin ++ t.gap } :: ts

/-- The stream behind `s` and a line break. -/
def Stream.followedBy (s x : Stream) : Stream :=
  let x := x.widen (s.stop.gap ++ ['\n'])
  { x with tokens := s.tokens ++ x.tokens }

theorem Stream.tokens_followedBy (s x : Stream) :
    (s.followedBy x).tokens = s.tokens ++ Token.widen (s.stop.gap ++ ['\n']) x.tokens := by
  obtain ⟨tokens, stop⟩ := x
  cases tokens <;> rfl

theorem Stream.stop_followedBy (s x : Stream) : (s.followedBy x).stop.kind = x.stop.kind
    ∧ (s.followedBy x).stop.start = x.stop.start := by
  obtain ⟨tokens, stop⟩ := x
  cases tokens <;> exact ⟨rfl, rfl⟩

/-- **A line break ends what is in front of it.** Behind it the text is cut as if it were one by itself,
and where that fails the whole text cannot be cut. -/
theorem scanFrom_append_newline (hs : scanFrom p cs = .ok s) (ds : List Char) :
    scanFrom p (cs ++ '\n' :: ds) = (scanFrom (p.after (cs ++ ['\n'])) ds).map s.followedBy := by
  -- Beside the tokens the stretch at the start of each rest of the text is carried along, because the
  -- token in front of it might reach into it.
  have hall := scanFrom_induction (P := fun p cs s =>
    stretch false (cs ++ '\n' :: ds) = stretch false cs
      ∧ scanFrom p (cs ++ '\n' :: ds) = (scanFrom (p.after (cs ++ ['\n'])) ds).map s.followedBy)
    (fun p gap hgap => ?_) (fun p gap c rest kind used s hgap hlex ih => ?_) hs
  · exact hall.2
  · constructor
    · cases gap with
      | nil => rfl
      | cons d gap =>
        have hd := isBreak_of_gapLength hgap
        rw [List.cons_append, stretch_break hd, stretch_break hd]
    · have hscan := scanFrom_of_gapLength (gapFrom_append_newline hgap ds) p
      rw [List.append_assoc] at hscan
      exact hscan
  · have hrow : gap ++ c :: rest ++ '\n' :: ds = gap ++ c :: (rest ++ '\n' :: ds) := by
      rw [List.append_assoc, List.cons_append]
    have hwithin := within_lexeme hlex
    have hstretch := hwithin.stretch_append ih.1
    rw [hrow]
    constructor
    · cases gap with
      | nil =>
        have hc := isBreak_eq_false_of_gapLength hgap
        rw [List.nil_append, List.nil_append, stretch_cons (.inr hc), stretch_cons (.inr hc),
          Bool.false_xor, hstretch]
      | cons d gap =>
        have hd := isBreak_of_gapLength hgap
        rw [List.cons_append, List.cons_append, stretch_break hd, stretch_break hd]
    · have hgap' : gapLength (gap ++ c :: (rest ++ '\n' :: ds)) = gap.length :=
        gapFrom_append_token hgap _
      have hlex' : lexeme c (rest ++ '\n' :: ds) = .ok (kind, used) := by
        rw [← lexeme_stretch, hstretch, lexeme_stretch, hlex]
      have hdrop : (gap ++ c :: (rest ++ '\n' :: ds)).drop
          (gapLength (gap ++ c :: (rest ++ '\n' :: ds))) = c :: (rest ++ '\n' :: ds) := by
        rw [hgap', List.drop_left]
      have hend : p.after (gap ++ c :: rest ++ ['\n'])
          = ((p.after gap).after (c :: rest.take used)).after (rest.drop used ++ ['\n']) := by
        rw [← Position.after_append, ← Position.after_append, List.append_assoc, List.cons_append,
          List.cons_append, ← List.append_assoc _ _ ['\n'], List.take_append_drop]
      rw [scanFrom_token hdrop, hlex', hgap', List.take_left]
      dsimp only
      rw [List.take_append_of_le_length hwithin.le, List.drop_append_of_le_length hwithin.le, ih.2,
        hend]
      -- The token comes in front of whatever the text behind the line break is cut into.
      cases scanFrom _ ds <;> rfl

theorem scanFrom_line (hs : scanFrom p cs = .ok s)
    (hx : scanFrom (p.after (cs ++ ['\n'])) ds = .ok x) :
    scanFrom p (cs ++ '\n' :: ds) = .ok (s.followedBy x) := by
  rw [scanFrom_append_newline hs, hx]
  rfl

/-! ## Where a text stands -/

/-- The token in a text that starts further down. -/
def lower (bytes lines : Nat) (t : Token) : Token := { t with start := t.start.lower bytes lines }

/-- The stream of a text that starts further down. -/
def Stream.lower (bytes lines : Nat) (s : Stream) : Stream :=
  ⟨s.tokens.map (Token.lower bytes lines), s.stop.lower bytes lines⟩

/-- **It makes no difference to the tokens of a text where it stands.** -/
theorem scanFrom_lower (bytes lines : Nat) (hs : scanFrom p cs = .ok s) :
    scanFrom (p.lower bytes lines) cs = .ok (s.lower bytes lines) := by
  refine scanFrom_induction (P := fun p cs s =>
    scanFrom (p.lower bytes lines) cs = .ok (s.lower bytes lines))
    (fun p gap hgap => ?_) (fun p gap c rest kind used s hgap hlex ih => ?_) hs
  · have hdrop : gap.drop (gapLength gap) = [] := by rw [hgap, List.drop_length]
    rw [scanFrom_end hdrop, hgap, List.take_length, Position.after_lower]
    rfl
  · have hdrop : (gap ++ c :: rest).drop (gapLength (gap ++ c :: rest)) = c :: rest := by
      rw [hgap, List.drop_left]
    rw [scanFrom_token hdrop, hlex, hgap, List.take_left, Position.after_lower]
    dsimp only
    rw [Position.after_lower, ih]
    rfl

/-! ## Rows of lines -/

/-- The token `t'` is the token `t`, the text of which starts so many lines further down. -/
structure Lowered (lines : Nat) (t t' : Token) : Prop where
  kind : t'.kind = t.kind
  text : t'.text = t.text
  line : t'.line = t.line + lines
  column : t'.start.column = t.start.column

/-- The row `ts` is the row of the tokens of `s`, the text of which starts so many lines further down.
The gap in front of the first token may be another. -/
structure Stream.Lowered (lines : Nat) (s : Stream) (ts : List Token) : Prop where
  tokens : List.Forall₂ (Token.Lowered lines) s.tokens ts
  gaps : List.Forall₂ (fun t t' : Token => t'.gap = t.gap) s.tokens.tail ts.tail
  lexed : ∀ t ∈ ts, t.Lexed

/-- The row is put together from the rows of the tokens of the streams. They start at the line `line`,
and none of them has a line in common with another. -/
inductive Rows : Nat → List Stream → List Token → Prop
  | nil (line : Nat) : Rows line [] []
  | cons {line next lines : Nat} {s : Stream} {ss : List Stream} {ts us : List Token}
      (h : s.Lowered lines ts) (hlines : ∀ t ∈ ts, line ≤ t.line ∧ t.line < next)
      (hle : line ≤ next) (hrest : Rows next ss us) : Rows line (s :: ss) (ts ++ us)

variable {lines line : Nat} {ss : List Stream} {ts us : List Token}

theorem lowered_lower (bytes lines : Nat) (hlexed : ∀ t ∈ s.tokens, t.Lexed) :
    s.Lowered lines (s.lower bytes lines).tokens := by
  refine ⟨?_, ?_, ?_⟩
  · exact List.forall₂_map_right_iff.mpr (List.forall₂_same.mpr fun t _ => ⟨rfl, rfl, rfl, rfl⟩)
  · rw [Stream.lower, ← List.map_tail]
    exact List.forall₂_map_right_iff.mpr (List.forall₂_same.mpr fun t _ => rfl)
  · exact List.forall_mem_map.mpr hlexed

/-- The gap in front of a row does not matter. -/
theorem Stream.Lowered.widen (h : s.Lowered lines ts) (margin : List Char) :
    s.Lowered lines (Token.widen margin ts) := by
  obtain ⟨htokens, hgaps, hlexed⟩ := h
  cases ts with
  | nil => exact ⟨htokens, hgaps, hlexed⟩
  | cons t ts =>
    rw [List.forall_mem_cons] at hlexed
    refine ⟨?_, hgaps, List.forall_mem_cons.mpr hlexed⟩
    generalize s.tokens = us at htokens
    cases htokens with
    | cons ht hts => exact .cons ⟨ht.kind, ht.text, ht.line, ht.column⟩ hts

theorem Rows.widen (h : Rows line ss ts) (margin : List Char) :
    Rows line ss (Token.widen margin ts) := by
  induction h with
  | nil line => exact .nil line
  | @cons line next lines s ss ts us h hlines hle hrest ih =>
    cases ts with
    | nil => exact .cons h hlines hle ih
    | cons t ts =>
      have hwidened : ∀ u ∈ Token.widen margin (t :: ts), line ≤ u.line ∧ u.line < next :=
        List.forall_mem_cons.mpr (List.forall_mem_cons.mp hlines)
      exact .cons (h.widen margin) hwidened hle hrest

/-- All tokens of rows are below the line that the rows start at. -/
theorem Rows.le_line (h : Rows line ss ts) {t : Token} (ht : t ∈ ts) : line ≤ t.line := by
  induction h with
  | nil line => cases ht
  | cons _ hlines hle _ ih =>
    rcases List.mem_append.mp ht with ht | ht
    · exact (hlines t ht).1
    · exact Nat.le_trans hle (ih ht)

theorem Rows.exists_lowered (h : Rows line [s] ts) : ∃ lines, s.Lowered lines ts := by
  cases h with
  | cons h _ _ hrest =>
    cases hrest
    rw [List.append_nil]
    exact ⟨_, h⟩

/-- The tokens of a text stand between its first line and its last. -/
theorem Tiles.line_bounds (h : Tiles p cs s) {t : Token} (ht : t ∈ s.tokens) :
    p.line ≤ t.line ∧ t.line ≤ (p.after cs).line := by
  obtain ⟨pre, post, hrow⟩ := List.append_of_mem ht
  have hplace := h.placed pre t post hrow
  have htext : cs = (pre.flatMap piece ++ t.gap) ++ (t.text ++ post.flatMap piece ++ s.stop.gap) := by
    rw [h.text, hrow]
    simp only [List.flatMap_append, List.flatMap_cons, piece, List.append_assoc]
  rw [line, hplace]
  refine ⟨p.line_le_after _, ?_⟩
  rw [htext, Position.after_append p (_ ++ _)]
  exact Position.line_le_after _ _

/-- A text at the beginning of a line further down. -/
theorem exists_scan_line {w : List Char} (hw : scanFrom Position.start w = .ok s) (hp : p.column = 1)
    (hline : 0 < p.line) : ∃ x lines, scanFrom p w = .ok x ∧ s.Lowered lines x.tokens
      ∧ (∀ t ∈ x.tokens, p.line ≤ t.line ∧ t.line < (p.after w).line + 1) ∧ x.stop.kind = .eof := by
  have hplace : p = Position.start.lower p.offset (p.line - 1) := by
    obtain ⟨offset, line, column⟩ := p
    obtain rfl : column = 1 := hp
    rw [Position.lower, Position.start]
    simp only [Nat.zero_add, Position.mk.injEq, true_and, and_true]
    exact (Nat.add_sub_cancel' hline).symm
  have hs := scanFrom_lower p.offset (p.line - 1) hw
  rw [← hplace] at hs
  have hspec := scanFrom_spec hs
  refine ⟨_, p.line - 1, hs, lowered_lower _ _ (scanFrom_spec hw).lexed, fun t ht => ?_, hspec.stop⟩
  obtain ⟨hlow, hhigh⟩ := hspec.line_bounds ht
  exact ⟨hlow, Nat.lt_succ_of_le hhigh⟩

/-- Texts with a line break behind each, and another text behind them. -/
theorem exists_scan_append {ws : List (List Char)} {ss' : List Stream}
    (hws : List.Forall₂ (fun w s => scanFrom Position.start w = .ok s) ws ss)
    (hds : ∀ p : Position, p.column = 1 → 0 < p.line → ∃ x, scanFrom p ds = .ok x
      ∧ Rows p.line ss' x.tokens ∧ x.stop.kind = .eof) (hp : p.column = 1) (hline : 0 < p.line) :
    ∃ x, scanFrom p (ws.flatMap (· ++ ['\n']) ++ ds) = .ok x ∧ Rows p.line (ss ++ ss') x.tokens
      ∧ x.stop.kind = .eof := by
  induction hws generalizing p with
  | nil => exact hds p hp hline
  | @cons w s ws ss hw _ ih =>
    -- Behind the line break the next text starts in the first column, as this one does.
    have hbreak : p.after (w ++ ['\n']) = (p.after w).next '\n' := by rw [Position.after_append]; rfl
    have hnext : (p.after (w ++ ['\n'])).line = (p.after w).line + 1 := by rw [hbreak]; rfl
    obtain ⟨x, hx, hrows, hstop⟩ := @ih (p.after (w ++ ['\n'])) (by rw [hbreak]; rfl)
      (by rw [hnext]; exact Nat.succ_pos _)
    obtain ⟨y, lines, hy, hlowered, hlines, _⟩ := exists_scan_line hw hp hline
    refine ⟨y.followedBy x, ?_, ?_, ?_⟩
    · rw [List.flatMap_cons, List.append_assoc, List.append_assoc]
      exact scanFrom_line hy hx
    · rw [Stream.tokens_followedBy, List.cons_append]
      refine .cons hlowered (hnext ▸ hlines) ?_ (hrows.widen _)
      rw [hnext]
      exact Nat.le_succ_of_le (p.line_le_after w)
    · exact (Stream.stop_followedBy _ _).1.trans hstop

/-- **A text that is put together from texts with a line break behind each is cut into their tokens.** -/
theorem exists_scan_lines {ws : List (List Char)}
    (hws : List.Forall₂ (fun w s => scanFrom Position.start w = .ok s) ws ss) (hp : p.column = 1)
    (hline : 0 < p.line) : ∃ x, scanFrom p (ws.flatMap (· ++ ['\n'])) = .ok x
      ∧ Rows p.line ss x.tokens ∧ x.stop.kind = .eof := by
  have hnothing : ∀ p : Position, p.column = 1 → 0 < p.line → ∃ x, scanFrom p [] = .ok x
      ∧ Rows p.line [] x.tokens ∧ x.stop.kind = .eof :=
    fun p _ _ => ⟨_, scanFrom_end rfl, .nil _, rfl⟩
  have hall := exists_scan_append hws hnothing hp hline
  rwa [List.append_nil, List.append_nil] at hall

/-- The last of the texts may end without a line break. -/
theorem exists_scan_lines_last {ws : List (List Char)} {w : List Char}
    (hws : List.Forall₂ (fun w s => scanFrom Position.start w = .ok s) ws ss)
    (hw : scanFrom Position.start w = .ok s) : ∃ x,
      scanFrom Position.start (ws.flatMap (· ++ ['\n']) ++ w) = .ok x
        ∧ Rows Position.start.line (ss ++ [s]) x.tokens ∧ x.stop.kind = .eof := by
  refine exists_scan_append hws (fun p hp hline => ?_) rfl Nat.one_pos
  obtain ⟨x, lines, hx, hlowered, hlines, hstop⟩ := exists_scan_line hw hp hline
  refine ⟨x, hx, ?_, hstop⟩
  rw [← List.append_nil x.tokens]
  exact .cons hlowered hlines (Nat.le_succ_of_le (p.line_le_after w)) (.nil _)

end Token

end IrRecords
