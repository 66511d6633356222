import IrRecords.Proofs.Text.Collapse
import IrRecords.Proofs.Token.Lines
import IrRecords.Proofs.Token.Names
import IrRecords.Proofs.Token.Prefixes

/-!
# What is shown of a row is cut into this row

A row of neighbouring tokens is shown on one line, as the text from its first token to its last one,
collapsed. If this text is plain then cutting what is shown gives the tokens of the row again
(`kinds_rowText`). Three things happen to the text on the way, and none of them changes what a token is:
it loses what was in front of it, it loses what was behind it (`lexeme_of_append`), and each gap in it
becomes one space, where the stretches stay the same (`stretch_tighten`).
-/

namespace IrRecords.Token

open Text

/-! ## Rows in front of a text -/

/-- The token is cut off in front of `rest`, and so is the gap in front of it. -/
structure StandsBefore (t : Token) (rest : List Char) : Prop where
  gap : gapLength (t.gap ++ (t.text ++ rest)) = t.gap.length
  lexeme : ∃ c w, t.text = c :: w ∧ lexeme c (w ++ rest) = .ok (t.kind, w.length)

/-- The tokens are cut off one behind the other, in front of `rest`. -/
inductive RowBefore (rest : List Char) : List Token → Prop
  | nil : RowBefore rest []
  | cons {t : Token} {ts : List Token} (ht : t.StandsBefore (ts.flatMap piece ++ rest)) (h : RowBefore rest ts) :
      RowBefore rest (t :: ts)

variable {t : Token} {ts us : List Token} {c : Char} {cs rest rest' : List Char} {inside pending : Bool}
  {n : Nat} {p : Position} {s : Stream}

/-- The tokens of a text are such a row. -/
theorem rowBefore_of_scanFrom (h : scanFrom p cs = .ok s) : RowBefore s.stop.gap s.tokens := by
  have hall : cs = s.tokens.flatMap piece ++ s.stop.gap ∧ RowBefore s.stop.gap s.tokens := by
    refine scanFrom_induction (P := fun _ cs s => cs = s.tokens.flatMap piece ++ s.stop.gap
      ∧ RowBefore s.stop.gap s.tokens) (fun p gap _ => ⟨rfl, .nil⟩) ?_ h
    rintro p gap c rest kind used s hgap hlex ⟨htext, hrow⟩
    have hsplit : rest.take used ++ (s.tokens.flatMap piece ++ s.stop.gap) = rest := by
      rw [← htext, List.take_append_drop]
    have hused : (rest.take used).length = used := List.length_take_of_le (within_lexeme hlex).le
    refine ⟨?_, .cons ⟨?_, c, rest.take used, rfl, ?_⟩ hrow⟩
    · rw [Stream.cons, List.flatMap_cons, piece, List.append_assoc, List.append_assoc,
        List.cons_append, hsplit]
    · change gapLength (gap ++ c :: (rest.take used ++ (s.tokens.flatMap piece ++ s.stop.gap))) = gap.length
      rw [hsplit, hgap]
    · change Token.lexeme c (rest.take used ++ (s.tokens.flatMap piece ++ s.stop.gap)) = _
      rw [hsplit, hused, hlex]
  exact hall.2

/-- A part of a row is a row. -/
theorem RowBefore.left (h : RowBefore rest (ts ++ us)) : RowBefore (us.flatMap piece ++ rest) ts := by
  induction ts with
  | nil => exact .nil
  | cons t ts ih =>
    rw [List.cons_append] at h
    cases h with
    | cons ht h =>
      rw [List.flatMap_append, List.append_assoc] at ht
      exact .cons ht (ih h)

theorem RowBefore.right (h : RowBefore rest (ts ++ us)) : RowBefore rest us := by
  induction ts with
  | nil => exact h
  | cons t ts ih =>
    cases h with
    | cons _ h => exact ih h

/-! ## Without what is behind it -/

theorem StandsBefore.of_append (h : t.StandsBefore (rest ++ rest')) : t.StandsBefore rest := by
  obtain ⟨hgap, c, w, htext, hlex⟩ := h
  refine ⟨?_, c, w, htext, ?_⟩
  · rw [htext, List.cons_append] at hgap ⊢
    exact gapFrom_append_token hgap _
  · rw [← List.append_assoc] at hlex
    exact lexeme_of_append hlex (by rw [List.length_append]; exact Nat.le_add_right _ _)

/-- A row may stand at the end of a text. -/
theorem RowBefore.alone (h : RowBefore rest ts) : RowBefore [] ts := by
  induction h with
  | nil => exact .nil
  | cons ht _ ih =>
    refine .cons ?_ ih
    rw [List.append_nil]
    exact ht.of_append

/-! ## With other gaps -/

/-- The token with one space for its gap. -/
def tighten (t : Token) : Token := { t with gap := if t.gap = [] then [] else [' '] }

theorem StandsBefore.not_isBreak (h : t.StandsBefore rest) (htext : t.text = c :: cs) :
    isBreak c = false := by
  have hgap := h.gap
  rw [htext, List.cons_append] at hgap
  have hdrop := gapFrom_spec false (t.gap ++ c :: (cs ++ rest))
  rw [show gapFrom false (t.gap ++ c :: (cs ++ rest)) = t.gap.length from hgap, List.drop_left] at hdrop
  rcases hdrop with hnil | ⟨d, ds, hcons, hd⟩
  · cases hnil
  · cases hcons
    exact hd

/-- A gap begins with a break. -/
theorem StandsBefore.exists_break (h : t.StandsBefore rest) (hgap : t.gap ≠ []) :
    ∃ d ds, t.gap = d :: ds ∧ isBreak d = true := by
  obtain ⟨d, ds, hds⟩ := List.exists_cons_of_ne_nil hgap
  have hlength := h.gap
  rw [hds, List.cons_append, List.length_cons] at hlength
  exact ⟨d, ds, hds, isBreak_of_gapLength hlength⟩

/-- A token and the stretch behind it. -/
theorem stretch_of_lexeme {w : List Char} {kind : TokenKind}
    (h : Token.lexeme c (w ++ rest) = .ok (kind, w.length)) (rest' : List Char) :
    stretch (c == '"') (w ++ rest') = w ++ stretch false rest' := by
  have halone : Token.lexeme c w = .ok (kind, w.length) := lexeme_of_append h (Nat.le_refl _)
  rw [((within_lexeme halone).append rest').stretch_eq, List.take_left, List.drop_left]

/-- A token does not depend on what is behind its stretch. -/
theorem lexeme_of_stretch_eq {w : List Char} {kind : TokenKind}
    (h : Token.lexeme c (w ++ rest) = .ok (kind, w.length))
    (hstretch : stretch false rest' = stretch false rest) :
    Token.lexeme c (w ++ rest') = .ok (kind, w.length) := by
  rw [← lexeme_stretch, stretch_of_lexeme h, hstretch, ← stretch_of_lexeme h, lexeme_stretch, h]

theorem StandsBefore.stretch_eq (h : t.StandsBefore rest) (rest' : List Char) :
    stretch false (t.text ++ rest') = t.text ++ stretch false rest' := by
  obtain ⟨c, w, htext, hlex⟩ := h.lexeme
  rw [htext, List.cons_append, stretch_cons (.inr (h.not_isBreak htext)), Bool.false_xor,
    stretch_of_lexeme hlex]
  rfl

/-- **Other gaps leave the stretches as they are.** -/
theorem stretch_tighten (h : RowBefore [] ts) :
    stretch false ((ts.map tighten).flatMap piece) = stretch false (ts.flatMap piece) := by
  induction h with
  | nil => rfl
  | @cons t ts ht _ ih =>
    have htext : t.tighten.text = t.text := rfl
    rw [List.map_cons, List.flatMap_cons, List.flatMap_cons, piece, piece, htext]
    by_cases hgap : t.gap = []
    · have hnone : t.tighten.gap = [] := if_pos hgap
      rw [hgap, hnone, List.nil_append, ht.stretch_eq, ht.stretch_eq, ih]
    · obtain ⟨d, ds, hds, hbreak⟩ := ht.exists_break hgap
      have hone : t.tighten.gap = [' '] := if_neg hgap
      rw [hds, hone, List.append_assoc, List.append_assoc, List.cons_append, List.cons_append,
        stretch_break hbreak, stretch_break rfl]

/-- A row stays a row with other gaps. -/
theorem RowBefore.tighten (h : RowBefore [] ts) : RowBefore [] (ts.map Token.tighten) := by
  induction h with
  | nil => exact .nil
  | @cons t ts ht hts ih =>
    obtain ⟨c, w, htext, hlex⟩ := ht.lexeme
    have hbreak := ht.not_isBreak htext
    refine .cons ⟨?_, c, w, htext, ?_⟩ ih
    · rw [show t.tighten.text = t.text from rfl, htext, List.cons_append]
      by_cases hgap : t.gap = []
      · rw [show t.tighten.gap = [] from if_pos hgap]
        exact gapFrom_of_not_isBreak hbreak _
      · rw [show t.tighten.gap = [' '] from if_neg hgap]
        exact congrArg (· + 1) (gapFrom_of_not_isBreak hbreak _)
    · -- A token is told by its stretch, and a tight gap ends a stretch where the old gap did.
      refine lexeme_of_stretch_eq hlex ?_
      rw [List.append_nil, List.append_nil, stretch_tighten hts]

/-! ## Cutting a row -/

/-- A row at the end of a text is what is cut off there. -/
theorem RowBefore.exists_scanFrom (h : RowBefore [] ts) (p : Position) :
    ∃ s, scanFrom p (ts.flatMap piece) = .ok s ∧ s.tokens.map kind = ts.map kind
      ∧ s.stop.kind = .eof := by
  induction h generalizing p with
  | nil => exact ⟨_, scanFrom_end rfl, rfl, rfl⟩
  | @cons t ts ht _ ih =>
    obtain ⟨c, w, htext, hlex⟩ := ht.lexeme
    have hgap := ht.gap
    rw [List.append_nil] at hgap hlex
    rw [htext, List.cons_append] at hgap
    obtain ⟨s, hs, htokens, hstop⟩ := ih ((p.after t.gap).after (c :: w))
    have hdrop : (t.gap ++ c :: (w ++ ts.flatMap piece)).drop
        (gapLength (t.gap ++ c :: (w ++ ts.flatMap piece))) = c :: (w ++ ts.flatMap piece) := by
      rw [hgap, List.drop_left]
    refine ⟨s.cons ⟨t.kind, t.gap, c :: w, p.after t.gap⟩, ?_, ?_, hstop⟩
    · rw [List.flatMap_cons, piece, List.append_assoc, htext, List.cons_append, scanFrom_token hdrop,
        hlex, hgap]
      dsimp only
      rw [List.take_left, List.take_left, List.drop_left, hs]
    · rw [Stream.cons, List.map_cons, List.map_cons, htokens]

/-! ## Collapsing a row -/

theorem isBreak_of_isSpace (h : isSpace c = true) : isBreak c = true := by
  rw [isBreak]
  simp only [isSpace, Bool.or_eq_true, beq_iff_eq] at h ⊢
  tauto

/-- Outside of quotes a plain text has no blanks but in its gaps. -/
theorem isBlank_of_isPlain (hplain : isPlainFrom false (c :: cs) = true) (hc : isBreak c = false) :
    isBlank c = false := by
  have hspace : isSpace c = false := by
    cases hspace : isSpace c with
    | false => rfl
    | true => rw [isBreak_of_isSpace hspace] at hc; cases hc
  rw [isPlainFrom, hspace, Bool.or_false, Bool.false_or, Bool.and_eq_true, Bool.and_eq_true,
    Bool.not_eq_true'] at hplain
  exact hplain.1.2

/-- A token of a plain text is collapsed to itself. -/
theorem Within.collapseFrom_eq (h : Within inside cs n) (hplain : isPlainFrom inside cs = true) :
    collapseFrom inside false cs = cs.take n ++ collapse (cs.drop n)
      ∧ isPlain (cs.drop n) = true := by
  induction h with
  | zero => exact ⟨rfl, hplain⟩
  | @succ inside c cs n hc _ ih =>
    have hblank : (!inside && isBlank c) = false := by
      cases inside with
      | true => rfl
      | false =>
        rw [isBlank_of_isPlain hplain (hc.resolve_left Bool.false_ne_true)]
        rfl
    rw [isPlainFrom, Bool.and_eq_true] at hplain
    obtain ⟨hrest, hbehind⟩ := ih hplain.2
    refine ⟨?_, hbehind⟩
    rw [collapseFrom, hblank, hrest]
    rfl

/-- A gap of a plain text is collapsed to one space. -/
theorem collapseFrom_gap {gap : List Char} (hgap : gapFrom false (gap ++ c :: cs) = gap.length)
    (hplain : isPlain (gap ++ c :: cs) = true) (pending : Bool) :
    collapseFrom false pending (gap ++ c :: cs)
        = collapseFrom false (pending || !gap.isEmpty) (c :: cs)
      ∧ isPlain (c :: cs) = true := by
  induction gap generalizing pending with
  | nil => exact ⟨by rw [List.isEmpty_nil, Bool.not_true, Bool.or_false]; rfl, hplain⟩
  | cons d gap ih =>
    rw [List.cons_append] at hgap hplain ⊢
    rw [isPlain, isPlainFrom, Bool.and_eq_true, Bool.false_or, Bool.and_eq_true, bne_iff_ne] at hplain
    obtain ⟨⟨hcomment, -⟩, hrest⟩ := hplain
    -- No comment starts in a plain text, so a gap is nothing but blanks.
    have hspace : d = ' ' ∨ d = '\t' ∨ d = '\r' ∨ d = '\n' := by
      have hbreak : isBreak d = true := isBreak_of_gapLength hgap
      simp only [isBreak, Bool.or_eq_true, beq_iff_eq] at hbreak
      tauto
    have hall := fun hgap' hplain' => ih hgap' hplain' true
    rcases hspace with rfl | rfl | rfl | rfl
    all_goals
      obtain ⟨hcollapse, hbehind⟩ := hall (Nat.succ.inj hgap) hrest
      refine ⟨Eq.trans rfl (hcollapse.trans ?_), hbehind⟩
      rw [List.isEmpty_cons, Bool.true_or, Bool.not_false, Bool.or_true]

/-- **A row whose text is plain is collapsed to the row with its gaps made tight.** -/
theorem RowBefore.collapse_eq (h : RowBefore [] ts) (hplain : isPlain (ts.flatMap piece) = true) :
    collapse (ts.flatMap piece) = (ts.map Token.tighten).flatMap piece := by
  induction h with
  | nil => rfl
  | @cons t ts ht _ ih =>
    obtain ⟨c, w, htext, hlex⟩ := ht.lexeme
    have hgap := ht.gap
    have hbreak := ht.not_isBreak htext
    rw [List.append_nil] at hgap hlex
    rw [htext, List.cons_append] at hgap
    rw [List.flatMap_cons, piece, List.append_assoc, htext, List.cons_append] at hplain ⊢
    obtain ⟨hcollapse, hplain⟩ := collapseFrom_gap hgap hplain false
    have hwithin : Within false (c :: (w ++ ts.flatMap piece)) (w.length + 1) :=
      .succ (.inr hbreak) (by rw [Bool.false_xor]; exact within_lexeme hlex)
    obtain ⟨htoken, hrest⟩ := hwithin.collapseFrom_eq hplain
    rw [List.take_succ_cons, List.take_left, List.drop_succ_cons, List.drop_left] at htoken
    rw [List.drop_succ_cons, List.drop_left] at hrest
    have hpiece : t.tighten.piece = (if t.gap = [] then [] else [' ']) ++ c :: w := by
      rw [← htext]
      rfl
    rw [collapse, hcollapse, List.map_cons, List.flatMap_cons, hpiece, ← ih hrest]
    by_cases hnone : t.gap = []
    · rw [hnone, if_pos rfl]
      exact htoken
    · rw [if_neg hnone, List.isEmpty_eq_false_iff.mpr hnone]
      -- A gap leaves one blank, written in front of the token, where `tighten` has it.
      have hblank := isBlank_of_isPlain hplain hbreak
      have hspace : collapseFrom false true (c :: (w ++ ts.flatMap piece))
          = ' ' :: collapseFrom false false (c :: (w ++ ts.flatMap piece)) := by
        rw [collapseFrom, collapseFrom, hblank]
        rfl
      exact hspace.trans (congrArg (' ' :: ·) htoken)

/-! ## Parts of a text -/

/-- The row without the gap in front of it. -/
def bare : List Token → List Token
  | [] => []
  | t :: ts => { t with gap := [] } :: ts

theorem spanText_eq (ts : List Token) : spanText ts = (bare ts).flatMap piece := by
  cases ts <;> rfl

theorem map_kind_bare (ts : List Token) : (bare ts).map kind = ts.map kind := by
  cases ts <;> rfl

theorem RowBefore.bare (h : RowBefore rest ts) : RowBefore rest (Token.bare ts) := by
  cases h with
  | nil => exact .nil
  | cons ht h =>
    obtain ⟨c, w, htext, hlex⟩ := ht.lexeme
    refine .cons ⟨?_, c, w, htext, hlex⟩ h
    rw [List.nil_append, htext]
    exact gapFrom_of_not_isBreak (ht.not_isBreak htext) _

/-- **What is shown of a part of a text is cut into the tokens of this part**, if the part is plain. -/
theorem kinds_rowText (h : scanFrom p cs = .ok s) (hts : ts <:+: s.tokens)
    (hplain : isPlain (spanText ts) = true) : kinds (rowText ts) = .ok (ts.map kind ++ [.eof]) := by
  obtain ⟨front, behind, hsplit⟩ := hts
  have hrow : RowBefore [] (bare ts) := by
    have hall := rowBefore_of_scanFrom h
    rw [← hsplit] at hall
    exact hall.left.right.alone.bare
  rw [spanText_eq] at hplain
  obtain ⟨s', hs', htokens, hstop⟩ := hrow.tighten.exists_scanFrom Position.start
  have htext : (rowText ts).toList = ((bare ts).map tighten).flatMap piece := by
    rw [rowText, String.toList_ofList, spanText_eq, hrow.collapse_eq hplain]
  have hkinds : ((bare ts).map tighten).map kind = ts.map kind := by
    rw [List.map_map, ← map_kind_bare ts]
    rfl
  rw [kinds, tokenize, scan, htext, hs']
  simp only [Except.map, List.map_append, htokens, hkinds, List.map_cons, hstop, List.map_nil]

end IrRecords.Token
