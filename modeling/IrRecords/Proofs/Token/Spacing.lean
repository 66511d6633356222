import IrRecords.Proofs.Text.Spacing
import IrRecords.Proofs.Token.Rows
import IrRecords.Proofs.Token.Stretches
import IrRecords.Proofs.Token.Tiles
import Mathlib.Data.List.Forall2

/-!
# Tokens of a text with other spacing

A text with other spacing is cut into the same tokens: of the same kinds and texts, on the same
lines, each moved as the spacing moves its line (`scanFrom_applyFrom`). If the one text is refused,
so is the other, with the same fault. The gaps differ, but what is shown of them does not
(`Twin.gap`), unless `Spacing.mark` stands in it: the sign of a comment, where comments are dropped,
and a double quote in one, where they are kept.
-/

namespace IrRecords.Token

open Text

/-- The place between the tokens of a text, or inside of quotes. -/
def placeOf (inside : Bool) : Place := if inside then .quoted else .plain

variable {s : Spacing} {inside : Bool} {p p' : Position} {c : Char} {cs ds : List Char} {n : Nat}

/-! ## Stretches -/

theorem after_placeOf (hc : inside = true ∨ isBreak c = false) :
    (placeOf inside).after c = placeOf (inside ^^ (c == '"')) := by
  cases inside with
  | true =>
    by_cases hquote : c = '"'
    · subst hquote
      rfl
    · have hafter : Place.quoted.after c = .quoted := if_neg hquote
      rw [beq_eq_false_iff_ne.mpr hquote]
      exact hafter
  | false =>
    by_cases hquote : c = '"'
    · subst hquote
      rfl
    · have hcomment : c ≠ ';' := by
        rintro rfl
        rcases hc with hc | hc <;> cases hc
      have hafter : Place.plain.after c = .plain := by
        rw [Place.after, if_neg hquote, if_neg hcomment]
      rw [beq_eq_false_iff_ne.mpr hquote]
      exact hafter

/-- In a stretch everything stays as it is. -/
theorem applyFrom_stretch (hc : inside = true ∨ isBreak c = false) (s : Spacing) (p : Position)
    (cs : List Char) : s.applyFrom (placeOf inside) p (c :: cs)
      = c :: s.applyFrom (placeOf (inside ^^ (c == '"'))) (p.next c) cs := by
  have hpiece : s.piece (placeOf inside) p.line c = [c] := by
    cases inside with
    | true => exact Spacing.piece_quoted s p.line c
    | false =>
      refine Spacing.piece_plain s p.line ?_ ?_
      all_goals
        rintro rfl
        rcases hc with hc | hc <;> cases hc
  rw [Spacing.applyFrom_cons, after_placeOf hc, hpiece]
  rfl

/-- A comment that is dropped leaves the end of its line. -/
theorem stretch_applyFrom_comment (hs : s.comments = false) (p : Position) (cs : List Char) :
    stretch false (s.applyFrom .comment p cs) = [] := by
  induction cs generalizing p with
  | nil => rfl
  | cons c cs ih =>
    rw [Spacing.applyFrom_cons]
    by_cases hline : c = '\n'
    · subst hline
      rw [Spacing.piece_newline s p.line Place.noConfusion]
      rfl
    · have hafter : Place.comment.after c = .comment := if_neg hline
      rw [Spacing.piece_comment s p.line hafter, hafter, hs]
      exact ih (p.next c)

/-- A stretch does not depend on the spacing around it. -/
theorem stretch_applyFrom (s : Spacing) (inside : Bool) (p : Position) (cs : List Char) :
    stretch inside (s.applyFrom (placeOf inside) p cs) = stretch inside cs := by
  induction cs generalizing inside p with
  | nil => rfl
  | cons c cs ih =>
    by_cases hc : inside = true ∨ isBreak c = false
    · rw [applyFrom_stretch hc, stretch_cons hc, stretch_cons hc, ih]
    · -- At a break the stretch ends, and what becomes of the break is one, too.
      rw [not_or, Bool.not_eq_true, Bool.not_eq_false] at hc
      obtain ⟨rfl, hbreak⟩ := hc
      rw [stretch_break hbreak, Spacing.applyFrom_cons]
      change stretch false (s.piece .plain p.line c ++ _) = []
      by_cases hcomment : c = ';'
      · subst hcomment
        rw [Spacing.piece_comment s p.line rfl]
        cases hs : s.comments with
        | true => rfl
        | false => exact stretch_applyFrom_comment hs _ cs
      by_cases hline : c = '\n'
      · subst hline
        rw [Spacing.piece_newline s p.line Place.noConfusion]
        rfl
      · rw [Spacing.piece_plain s p.line hcomment hline]
        exact stretch_break hbreak _

/-- The characters of a token stay as they are. -/
theorem Within.applyFrom (h : Within inside cs n) (s : Spacing) (p : Position) :
    s.applyFrom (placeOf inside) p cs
      = cs.take n ++ s.applyFrom .plain (p.after (cs.take n)) (cs.drop n) := by
  induction h generalizing p with
  | zero => rfl
  | succ hc _ ih => rw [applyFrom_stretch hc, ih]; rfl

/-- A token is the same in front of another spacing. -/
theorem lexeme_applyFrom (s : Spacing) (p : Position) (c : Char) (cs : List Char) :
    lexeme c (s.applyFrom (placeOf (c == '"')) p cs) = lexeme c cs := by
  rw [← lexeme_stretch, stretch_applyFrom, lexeme_stretch]

/-! ## Gaps -/

/-- The place in a gap, inside of a comment or not. -/
def gapPlace (comment : Bool) : Place := if comment then .comment else .plain

theorem gapFrom_newline (comment : Bool) (cs : List Char) :
    gapFrom comment ('\n' :: cs) = gapFrom false cs + 1 := rfl

/-- What starts a comment is its sign. -/
theorem eq_of_starts_comment (h : (gapPlace false).after c = .comment) : c = ';' := by
  by_contra hc
  rw [gapPlace, if_neg Bool.false_ne_true, Place.after, if_neg hc] at h
  split at h <;> cases h

/-- A character of a comment is one of the gap. -/
theorem gapFrom_comment {comment : Bool} (h : (gapPlace comment).after c = .comment)
    (cs : List Char) : gapFrom comment (c :: cs) = gapFrom true cs + 1 := by
  have hline : (c == '\n') = false := by
    rw [beq_eq_false_iff_ne]
    rintro rfl
    cases comment <;> cases h
  rw [gapFrom, hline]
  cases comment with
  | true => rfl
  | false => rw [eq_of_starts_comment h]; rfl

theorem gapFrom_blank (hc : c = ' ' ∨ c = '\t' ∨ c = '\r') (cs : List Char) :
    gapFrom false (c :: cs) = gapFrom false cs + 1 := by
  rcases hc with rfl | rfl | rfl <;> rfl

theorem isBreak_of_ne (hline : c ≠ '\n') (hcomment : c ≠ ';')
    (hblank : ¬(c = ' ' ∨ c = '\t' ∨ c = '\r')) : isBreak c = false := by
  rw [not_or, not_or] at hblank
  simp [isBreak, hline, hcomment, hblank.1, hblank.2.1, hblank.2.2]

theorem gapFrom_of_not_isBreak (hc : isBreak c = false) (cs : List Char) :
    gapFrom false (c :: cs) = 0 := by
  simp only [isBreak, Bool.or_eq_false_iff] at hc
  obtain ⟨⟨⟨⟨hline, hcomment⟩, hspace⟩, htab⟩, hreturn⟩ := hc
  simp [gapFrom, hline, hcomment, hspace, htab, hreturn]

theorem gapFrom_margin (hds : ∀ c ∈ ds, c = ' ' ∨ c = '\t') (cs : List Char) :
    gapFrom false (ds ++ cs) = ds.length + gapFrom false cs := by
  induction ds with
  | nil => rw [List.nil_append, List.length_nil, Nat.zero_add]
  | cons d ds ih =>
    obtain ⟨hd, hds⟩ := List.forall_mem_cons.mp hds
    rw [List.cons_append, gapFrom_blank (hd.imp_right .inl), ih hds, List.length_cons]
    omega

/-- A gap ends at the end of the text or in front of a token. -/
theorem gapFrom_spec (comment : Bool) (cs : List Char) : cs.drop (gapFrom comment cs) = []
    ∨ ∃ c rest, cs.drop (gapFrom comment cs) = c :: rest ∧ isBreak c = false := by
  induction cs generalizing comment with
  | nil => exact .inl rfl
  | cons c cs ih =>
    by_cases hline : c = '\n'
    · subst hline
      exact ih false
    -- Inside of a comment only the end of its line matters, and that is dealt with above.
    by_cases hafter : (gapPlace comment).after c = .comment
    · rw [gapFrom_comment hafter]
      exact ih true
    cases comment with
    | true => exact absurd (if_neg hline) hafter
    | false =>
      by_cases hblank : c = ' ' ∨ c = '\t' ∨ c = '\r'
      · rw [gapFrom_blank hblank]
        exact ih false
      · have hcomment : c ≠ ';' := by
          rintro rfl
          exact hafter rfl
        have hbreak := isBreak_of_ne hline hcomment hblank
        rw [gapFrom_of_not_isBreak hbreak]
        exact .inr ⟨c, cs, rfl, hbreak⟩

/-- The gap `gap` in front of `rest`, inside of a comment or not, becomes `gap'`. -/
structure GapBecomes (s : Spacing) (comment : Bool) (p p' : Position) (gap gap' rest : List Char) :
    Prop where
  text : s.applyFrom (gapPlace comment) p (gap ++ rest)
    = gap' ++ s.applyFrom .plain (p.after gap) rest
  length : gapFrom (comment && s.comments) (gap' ++ s.applyFrom .plain (p.after gap) rest)
    = gap'.length
  line : (p'.after gap').line = (p.after gap).line
  moves : rest ≠ [] → s.Moves (p.after gap) (p'.after gap')
  same : (comment = true → s.comments = true) → s.mark ∉ gap → SameGap gap gap'

/-- One more character in front of a gap, which becomes `front`. -/
theorem GapBecomes.cons {comment comment' : Bool} {front gap gap' rest : List Char}
    (hpiece : s.piece (gapPlace comment) p.line c = front)
    (hafter : (gapPlace comment).after c = gapPlace comment')
    (hfront : ∀ ds, gapFrom (comment && s.comments) (front ++ ds)
      = front.length + gapFrom (comment' && s.comments) ds)
    (hsame : (comment = true → s.comments = true) → c ≠ s.mark →
      (comment' = true → s.comments = true)
        ∧ ∀ gap gap', SameGap gap gap' → SameGap (c :: gap) (front ++ gap'))
    (h : GapBecomes s comment' (p.next c) (p'.after front) gap gap' rest) :
    GapBecomes s comment p p' (c :: gap) (front ++ gap') rest where
  text := by
    rw [List.cons_append, Spacing.applyFrom_cons, hpiece, hafter, h.text, List.append_assoc]
    rfl
  length := by
    rw [List.append_assoc, hfront, List.length_append]
    exact congrArg (front.length + ·) h.length
  line := by
    rw [Position.after_append]
    exact h.line
  moves := by
    rw [Position.after_append]
    exact h.moves
  same := by
    intro hcomment hmark
    rw [List.mem_cons, not_or] at hmark
    obtain ⟨hcomment', hgap⟩ := hsame hcomment (Ne.symm hmark.1)
    exact hgap gap gap' (h.same hcomment' hmark.2)

theorem ne_quote_of_ne_mark (hs : s.comments = true) (hc : c ≠ s.mark) : c ≠ '"' := by
  rwa [Spacing.mark, if_pos hs] at hc

theorem after_newline (comment : Bool) : (gapPlace comment).after '\n' = gapPlace false := by
  cases comment <;> rfl

/-- A line break is followed by the margin of its line. -/
theorem GapBecomes.newline {comment : Bool} {gap gap' rest : List Char}
    (h : GapBecomes s false (p.next '\n') (p'.after (s.piece (gapPlace comment) p.line '\n')) gap gap'
      rest) :
    GapBecomes s comment p p' ('\n' :: gap) (s.piece (gapPlace comment) p.line '\n' ++ gap') rest := by
  have hplace : gapPlace comment ≠ .quoted := by cases comment <;> exact Place.noConfusion
  have hpiece := Spacing.piece_newline s p.line hplace
  refine .cons rfl (after_newline comment) (fun ds => ?_) (fun _ _ => ?_) h
  · rw [hpiece, List.cons_append, gapFrom_newline, gapFrom_margin (s.blank _), List.length_cons]
    exact Nat.add_right_comm _ _ _
  · rw [hpiece]
    exact ⟨fun h => Bool.noConfusion h, fun _ _ => .newline (s.blank _)⟩

/-- A character of a comment is kept or dropped with the comment. -/
theorem GapBecomes.comment {comment : Bool} {gap gap' rest : List Char}
    (hafter : (gapPlace comment).after c = gapPlace true)
    (h : GapBecomes s true (p.next c) (p'.after (s.piece (gapPlace comment) p.line c)) gap gap' rest) :
    GapBecomes s comment p p' (c :: gap) (s.piece (gapPlace comment) p.line c ++ gap') rest := by
  have hpiece := Spacing.piece_comment s p.line hafter
  cases hs : s.comments with
  | true =>
    rw [hs, if_pos rfl] at hpiece
    refine .cons rfl hafter (fun ds => ?_) (fun _ hmark => ?_) h
    · rw [hpiece, hs, Bool.and_true]
      exact (gapFrom_comment hafter ds).trans (Nat.add_comm _ 1)
    · rw [hpiece]
      exact ⟨fun _ => hs, fun _ _ => .cons (ne_quote_of_ne_mark hs hmark)⟩
  | false =>
    rw [hs, if_neg Bool.false_ne_true] at hpiece
    refine .cons rfl hafter (fun ds => ?_) (fun hcomment hmark => ?_) h
    · rw [hpiece, hs, Bool.and_false, Bool.and_false]
      exact (Nat.zero_add _).symm
    · -- The comment starts in the gap, and its sign is the mark.
      rw [hs] at hcomment
      cases comment with
      | true => exact absurd (hcomment rfl) Bool.false_ne_true
      | false =>
        rw [Spacing.mark, hs] at hmark
        exact absurd (eq_of_starts_comment hafter) hmark

theorem after_blank (hblank : c = ' ' ∨ c = '\t' ∨ c = '\r') :
    (gapPlace false).after c = gapPlace false := by
  rcases hblank with rfl | rfl | rfl <;> rfl

/-- A blank outside of comments is kept. -/
theorem GapBecomes.blank {gap gap' rest : List Char} (hblank : c = ' ' ∨ c = '\t' ∨ c = '\r')
    (h : GapBecomes s false (p.next c) (p'.after (s.piece (gapPlace false) p.line c)) gap gap' rest) :
    GapBecomes s false p p' (c :: gap) (s.piece (gapPlace false) p.line c ++ gap') rest := by
  have hpiece : s.piece (gapPlace false) p.line c = [c] := by
    refine Spacing.piece_plain s p.line ?_ ?_
    all_goals rcases hblank with rfl | rfl | rfl <;> decide
  refine .cons rfl (after_blank hblank) (fun ds => ?_) (fun _ _ => ?_) h
  · rw [hpiece]
    exact (gapFrom_blank hblank ds).trans (Nat.add_comm _ 1)
  · rw [hpiece]
    refine ⟨fun h => Bool.noConfusion h, fun _ _ => .cons ?_⟩
    rcases hblank with rfl | rfl | rfl <;> decide

/-- What becomes of a gap. -/
theorem exists_gapBecomes (s : Spacing) (comment : Bool) (cs : List Char)
    (hline : p'.line = p.line)
    (hmoves : (gapPlace comment = .comment → s.comments = true) → s.Moves p p') :
    ∃ gap', GapBecomes s comment p p' (cs.take (gapFrom comment cs)) gap'
      (cs.drop (gapFrom comment cs)) := by
  induction cs generalizing comment p p' with
  | nil => exact ⟨[], rfl, rfl, hline, fun h => absurd rfl h, fun _ _ => sameGap_nil⟩
  | cons c cs ih =>
    obtain ⟨hline', hmoves'⟩ := Spacing.moves_piece c hline hmoves
    by_cases hnewline : c = '\n'
    · subst hnewline
      rw [after_newline] at hmoves'
      obtain ⟨gap', h⟩ := ih false hline' hmoves'
      exact ⟨_, h.newline⟩
    -- A comment starts here, or one goes on.
    by_cases hafter : (gapPlace comment).after c = gapPlace true
    · rw [hafter] at hmoves'
      obtain ⟨gap', h⟩ := ih true hline' hmoves'
      rw [gapFrom_comment hafter]
      exact ⟨_, h.comment hafter⟩
    cases comment with
    | true => exact absurd (if_neg hnewline) hafter
    | false =>
      by_cases hblank : c = ' ' ∨ c = '\t' ∨ c = '\r'
      · rw [after_blank hblank] at hmoves'
        obtain ⟨gap', h⟩ := ih false hline' hmoves'
        rw [gapFrom_blank hblank]
        exact ⟨_, h.blank hblank⟩
      · have hcomment : c ≠ ';' := by
          rintro rfl
          exact hafter rfl
        have hbreak := isBreak_of_ne hnewline hcomment hblank
        have hrest : false = true ∨ isBreak c = false := .inr hbreak
        rw [gapFrom_of_not_isBreak hbreak]
        refine ⟨[], rfl, ?_, hline, fun _ => hmoves fun h => Place.noConfusion h,
          fun _ _ => sameGap_nil⟩
        change gapFrom false (s.applyFrom (placeOf false) p (c :: cs)) = 0
        rw [applyFrom_stretch hrest, gapFrom_of_not_isBreak hbreak]

/-! ## Whole texts -/

/-- The same token in the text and in the text under the spacing. -/
structure Moved (s : Spacing) (t t' : Token) : Prop where
  kind : t'.kind = t.kind
  text : t'.text = t.text
  start : s.Moves t.start t'.start

/-- The same token, with the gap in front of it. -/
structure Twin (s : Spacing) (t t' : Token) : Prop extends Moved s t t' where
  gap : s.mark ∉ t.gap → SameGap t.gap t'.gap

/-- The same tokens. -/
structure Stream.Twins (s : Spacing) (x x' : Stream) : Prop where
  tokens : List.Forall₂ (Twin s) x.tokens x'.tokens
  stop : x'.stop.line = x.stop.line

/-- What the cuts of a text and of the text under the spacing come to: to the same fault, or to
streams that are related by `R`. -/
inductive SameCut (s : Spacing) (R : Stream → Stream → Prop) :
    Except Diagnostic Stream → Except Diagnostic Stream → Prop
  | failed {d d' : Diagnostic} (fault : d'.fault = d.fault)
      (position : s.Moves d.position d'.position) : SameCut s R (.error d) (.error d')
  | cut {x x' : Stream} (h : R x x') : SameCut s R (.ok x) (.ok x')

/-- One more token in front of both texts. -/
theorem SameCut.cons {t t' : Token} (ht : Twin s t t') {r r' : Except Diagnostic Stream} :
    SameCut s (Stream.Twins s) r r' → SameCut s (Stream.Twins s)
      (match r with
        | .error d => .error d
        | .ok stream => .ok (stream.cons t))
      (match r' with
        | .error d => .error d
        | .ok stream => .ok (stream.cons t')) := by
  intro h
  cases h with
  | failed fault position => exact .failed fault position
  | cut h => exact .cut ⟨.cons ht h.tokens, h.stop⟩

/-- The characters of a token are the same, and what is behind them is what is behind it. -/
theorem Within.take_drop_applyFrom (h : Within inside cs n) (s : Spacing) (p : Position) :
    (s.applyFrom (placeOf inside) p cs).take n = cs.take n
      ∧ (s.applyFrom (placeOf inside) p cs).drop n
        = s.applyFrom .plain (p.after (cs.take n)) (cs.drop n) := by
  have hlength : (cs.take n).length = n := List.length_take_of_le h.le
  rw [h.applyFrom]
  exact ⟨List.take_left' hlength, List.drop_left' hlength⟩

/-- **A text with other spacing is cut into the same tokens.** -/
theorem scanFrom_applyFrom (s : Spacing) (cs : List Char) (h : s.Moves p p') :
    SameCut s (Stream.Twins s) (scanFrom p cs) (scanFrom p' (s.applyFrom .plain p cs)) := by
  -- The induction is on the length of the text, which is what the scan recurses on.
  induction hn : cs.length using Nat.strongRecOn generalizing p p' cs with
  | ind n ih =>
    obtain ⟨gap', hgap⟩ : ∃ gap', GapBecomes s false p p' (cs.take (gapLength cs)) gap'
      (cs.drop (gapLength cs)) := exists_gapBecomes s false cs h.line fun _ => h
    have htext : s.applyFrom .plain p cs
        = gap' ++ s.applyFrom .plain (p.after (cs.take (gapLength cs))) (cs.drop (gapLength cs)) := by
      have htext := hgap.text
      rwa [List.take_append_drop] at htext
    have hlength : gapLength (s.applyFrom .plain p cs) = gap'.length := by
      rw [htext]
      exact hgap.length
    have htake : (s.applyFrom .plain p cs).take (gapLength (s.applyFrom .plain p cs)) = gap' := by
      rw [hlength]
      exact (congrArg _ htext).trans List.take_left
    have hdrop : (s.applyFrom .plain p cs).drop (gapLength (s.applyFrom .plain p cs))
        = s.applyFrom .plain (p.after (cs.take (gapLength cs))) (cs.drop (gapLength cs)) := by
      rw [hlength]
      exact (congrArg _ htext).trans List.drop_left
    have hspec : cs.drop (gapLength cs) = []
        ∨ ∃ c rest, cs.drop (gapLength cs) = c :: rest ∧ isBreak c = false := gapFrom_spec false cs
    rcases hspec with hend | ⟨c, rest, hrest, hbreak⟩
    · rw [hend] at hdrop
      rw [scanFrom_end hend, scanFrom_end hdrop, htake]
      exact .cut ⟨.nil, hgap.line⟩
    · have hstart := hgap.moves (by rw [hrest]; exact List.cons_ne_nil _ _)
      have hfirst : false = true ∨ isBreak c = false := .inr hbreak
      rw [hrest] at hdrop
      rw [show s.applyFrom .plain _ (c :: rest) = _ from applyFrom_stretch hfirst s _ rest] at hdrop
      rw [scanFrom_token hrest, scanFrom_token hdrop, htake, Bool.false_xor, lexeme_applyFrom]
      cases hlex : lexeme c rest with
      | error fault => exact .failed rfl hstart
      | ok r =>
        obtain ⟨kind, used⟩ := r
        obtain ⟨htaken, hleft⟩ := (within_lexeme hlex).take_drop_applyFrom s
          ((p.after (cs.take (gapLength cs))).next c)
        have htwin : Twin s
            ⟨kind, cs.take (gapLength cs), c :: rest.take used, p.after (cs.take (gapLength cs))⟩
            ⟨kind, gap', c :: rest.take used, p'.after gap'⟩ :=
          ⟨⟨rfl, rfl, hstart⟩, hgap.same fun h => Bool.noConfusion h⟩
        dsimp only
        rw [htaken, hleft]
        exact SameCut.cons htwin
          (ih _ (hn ▸ length_drop_lt hrest used) _ (hstart.after (c :: rest.take used)) rfl)

/-! ### The margin of the first line -/

/-- A stream with blanks in front of its first gap. -/
def Stream.widen (margin : List Char) (x : Stream) : Stream :=
  match x.tokens with
  | [] => { x with stop := { x.stop with gap := margin ++ x.stop.gap } }
  | t :: ts => { x with tokens := { t with gap := margin ++ t.gap } :: ts }

/-- What extends the first gap of a text changes nothing but this gap. -/
theorem scanFrom_of_gapLength (hgap : gapLength (ds ++ cs) = ds.length + gapLength cs)
    (p : Position) : scanFrom p (ds ++ cs) = (scanFrom (p.after ds) cs).map (Stream.widen ds) := by
  have htake : (ds ++ cs).take (gapLength (ds ++ cs)) = ds ++ cs.take (gapLength cs) := by
    rw [hgap, List.take_length_add_append]
  have hdrop : (ds ++ cs).drop (gapLength (ds ++ cs)) = cs.drop (gapLength cs) := by
    rw [hgap, List.drop_length_add_append]
  cases hrest : cs.drop (gapLength cs) with
  | nil =>
    rw [hrest] at hdrop
    rw [scanFrom_end hdrop, scanFrom_end hrest, htake, Position.after_append]
    rfl
  | cons c rest =>
    rw [hrest] at hdrop
    rw [scanFrom_token hdrop, scanFrom_token hrest, htake, Position.after_append]
    cases lexeme c rest with
    | error fault => rfl
    | ok r =>
      dsimp only
      split <;> rfl

/-- Blanks in front of a text belong to its first gap. -/
theorem scanFrom_margin (hds : ∀ c ∈ ds, c = ' ' ∨ c = '\t') (p : Position) (cs : List Char) :
    scanFrom p (ds ++ cs) = (scanFrom (p.after ds) cs).map (Stream.widen ds) :=
  scanFrom_of_gapLength (gapFrom_margin hds cs) p

/-- The same tokens, and the same gaps between them. -/
structure Stream.Moved (s : Spacing) (x x' : Stream) : Prop where
  tokens : List.Forall₂ (Token.Moved s) x.tokens x'.tokens
  between : List.Forall₂ (Twin s) x.tokens.tail x'.tokens.tail
  stop : x'.stop.line = x.stop.line

theorem Stream.Twins.widen {x x' : Stream} (h : x.Twins s x') (margin : List Char) :
    x.Moved s (x'.widen margin) := by
  obtain ⟨tokens, stop⟩ := x
  obtain ⟨tokens', stop'⟩ := x'
  obtain ⟨htokens, hstop⟩ := h
  cases htokens with
  | nil => exact ⟨.nil, .nil, hstop⟩
  | cons ht hts =>
    exact ⟨.cons ⟨ht.kind, ht.text, ht.start⟩ (hts.imp fun _ _ h => h.toMoved), hts, hstop⟩

/-- **A source text with other spacing has the same tokens.** -/
theorem scan_apply (s : Spacing) (source : String) :
    SameCut s (Stream.Moved s) (scan source) (scan (s.apply source)) := by
  have hstart : s.Moves Position.start (Position.start.after (s.margin 1)) :=
    Spacing.moves_margin s 1
  have hscan := scanFrom_applyFrom s source.toList hstart
  rw [scan, scan, Spacing.apply, String.toList_ofList, scanFrom_margin (s.blank 1)]
  generalize scanFrom Position.start source.toList = r at hscan ⊢
  generalize scanFrom _ _ = r' at hscan ⊢
  cases hscan with
  | failed fault position => exact .failed fault position
  | cut h => exact .cut (h.widen _)

/-! ## Rows of tokens -/

/-- A text with its quotes closed does not matter where nothing behind it does. -/
theorem collapseFrom_append_congr {inside pending : Bool} {text : List Char}
    (htext : quotesAfter inside text = false) (h : SameCollapsed cs ds) :
    collapseFrom inside pending (text ++ cs) = collapseFrom inside pending (text ++ ds) := by
  induction text generalizing inside pending with
  | nil =>
    have hinside : inside = false := htext
    rw [hinside]
    exact h pending
  | cons c text ih => exact collapseFrom_cons_congr fun pending => ih htext

/-- Quotes are closed behind a token. -/
theorem Lexed.quotesAfter {t : Token} (h : t.Lexed) : Token.quotesAfter false t.text = false := by
  obtain ⟨c, rest, used, htext, hlex⟩ := h
  rw [htext, Token.quotesAfter, List.foldl_cons, Bool.false_xor]
  exact (within_lexeme hlex).quotesAfter

theorem sameCollapsed_flatMap {ts ts' : List Token} (h : List.Forall₂ (Twin s) ts ts')
    (hlexed : ∀ t ∈ ts, t.Lexed) (hmark : ∀ t ∈ ts, s.mark ∉ t.gap) :
    SameCollapsed (ts.flatMap fun t => t.gap ++ t.text) (ts'.flatMap fun t => t.gap ++ t.text) := by
  induction h with
  | nil => exact fun _ => rfl
  | cons ht _ ih =>
    rw [List.forall_mem_cons] at hlexed hmark
    rw [List.flatMap_cons, List.flatMap_cons, List.append_assoc, List.append_assoc, ht.text]
    refine ht.gap hmark.1 _ _ fun pending => ?_
    exact collapseFrom_append_congr hlexed.1.quotesAfter (ih hlexed.2 hmark.2)

/-- **A row of tokens without the mark between them has the same text.** The gap in front of the
first token is no part of it. -/
theorem rowText_eq {t t' : Token} {ts ts' : List Token} (ht : Moved s t t')
    (hts : List.Forall₂ (Twin s) ts ts') (hlexed : ∀ u ∈ t :: ts, u.Lexed)
    (hmark : ∀ u ∈ ts, s.mark ∉ u.gap) : rowText (t' :: ts') = rowText (t :: ts) := by
  rw [List.forall_mem_cons] at hlexed
  have hrest := sameCollapsed_flatMap hts hlexed.2 hmark
  rw [rowText, rowText, spanText, spanText, ht.text, collapse, collapse,
    collapseFrom_append_congr hlexed.1.quotesAfter hrest]

end IrRecords.Token
