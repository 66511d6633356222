import IrRecords.Text.Blank
import IrRecords.Text.Position
import Mathlib.Data.List.Basic

/-!
# A text with other spacing

Two things may be done to a source text that should not matter: its comments can be taken out, and
its lines can be indented. `Spacing` says which of the two is done, and `Spacing.apply` does it. Both
depend on where a character stands (`Place`): a semicolon between double quotes starts no comment,
and a line that starts between them is not indented.

A spacing moves what it leaves. It keeps the lines, and on each line everything keeps its column or
moves by the margin of the line (`Spacing.Moves`). Where texts are shown on one line, what it adds
is not seen (`SameCollapsed`).
-/

namespace IrRecords.Text

/-- Where a character of a source text stands. -/
inductive Place where
  | plain
  /-- Behind an opening double quote. -/
  | quoted
  /-- Behind a semicolon, on its line. -/
  | comment
  deriving Repr, DecidableEq

/-- The place behind the character `c`. -/
def Place.after (place : Place) (c : Char) : Place :=
  match place with
  | plain => if c = '"' then quoted else if c = ';' then comment else plain
  | quoted => if c = '"' then plain else quoted
  | comment => if c = '\n' then plain else comment

/-- What is done to the spacing of a text. -/
structure Spacing where
  /-- Whether comments are kept. -/
  comments : Bool
  /-- What is put in front of a line, by its number. -/
  margin : Nat → List Char
  blank : ∀ line, ∀ c ∈ margin line, c = ' ' ∨ c = '\t'

namespace Spacing

/-- What becomes of the character `c` at a place in front of which the text is on line `line`. -/
def piece (s : Spacing) (place : Place) (line : Nat) (c : Char) : List Char :=
  if place.after c = .comment ∧ s.comments = false then []
  else if c = '\n' ∧ place ≠ .quoted then c :: s.margin (line + 1)
  else [c]

/-- What becomes of the text `cs`, which starts at `place` and at the position `p`. -/
def applyFrom (s : Spacing) (place : Place) (p : Position) : List Char → List Char
  | [] => []
  | c :: cs => s.piece place p.line c ++ applyFrom s (place.after c) (p.next c) cs

/-- The text with the spacing `s`. -/
def apply (s : Spacing) (source : String) : String :=
  String.ofList (s.margin 1 ++ s.applyFrom .plain Position.start source.toList)

/-- Comments are dropped, and no line is indented. -/
def withoutComments : Spacing where
  comments := false
  margin _ := []
  blank _ _ h := absurd h List.not_mem_nil

/-- Comments are kept, and the lines are indented by their margins. -/
def indented (margin : Nat → List Char)
    (blank : ∀ line, ∀ c ∈ margin line, c = ' ' ∨ c = '\t') : Spacing :=
  ⟨true, margin, blank⟩

/-- The character that, in a gap between two tokens, may change what is shown of the text around
it: a comment that is dropped is missing there, and a quote in one that is kept is counted. -/
def mark (s : Spacing) : Char := if s.comments then '"' else ';'

variable {s : Spacing} {place : Place} {p p' : Position} {c : Char} {cs : List Char}

/-! ## Single characters -/

/-- Between quotes everything stays as it is. -/
theorem piece_quoted (s : Spacing) (line : Nat) (c : Char) : s.piece .quoted line c = [c] := by
  have hafter : Place.quoted.after c ≠ .comment := by
    rw [Place.after]
    split <;> exact Place.noConfusion
  rw [piece, if_neg (fun h => hafter h.1), if_neg (fun h => h.2 rfl)]

/-- Outside of quotes and comments only the sign of a comment and the end of a line count. -/
theorem piece_plain (s : Spacing) (line : Nat) (hcomment : c ≠ ';') (hline : c ≠ '\n') :
    s.piece .plain line c = [c] := by
  have hafter : Place.plain.after c ≠ .comment := by
    rw [Place.after, if_neg hcomment]
    split <;> exact Place.noConfusion
  rw [piece, if_neg (fun h => hafter h.1), if_neg (fun h => hline h.1)]

theorem piece_newline (s : Spacing) (line : Nat) (hplace : place ≠ .quoted) :
    s.piece place line '\n' = '\n' :: s.margin (line + 1) := by
  have hafter : place.after '\n' ≠ .comment := by
    cases place
    · exact Place.noConfusion
    · exact absurd rfl hplace
    · exact Place.noConfusion
  rw [piece, if_neg (fun h => hafter h.1), if_pos ⟨rfl, hplace⟩]

/-- A character of a comment is kept or dropped. -/
theorem piece_comment (s : Spacing) (line : Nat) (hafter : place.after c = .comment) :
    s.piece place line c = if s.comments then [c] else [] := by
  have hline : ¬(c = '\n' ∧ place ≠ .quoted) := by
    rintro ⟨rfl, -⟩
    cases place <;> cases hafter
  rw [piece, hafter, if_neg hline]
  cases s.comments <;> rfl

/-- All that is missing without comments is the comments. -/
theorem applyFrom_withoutComments (place : Place) (p : Position) (c : Char) (cs : List Char) :
    withoutComments.applyFrom place p (c :: cs)
      = (if place.after c = .comment then [] else [c])
        ++ withoutComments.applyFrom (place.after c) (p.next c) cs := by
  have hpiece : withoutComments.piece place p.line c = if place.after c = .comment then [] else [c] :=
    ite_congr (propext (and_iff_left rfl)) (fun _ => rfl) fun _ => ite_self [c]
  rw [← hpiece]
  rfl

example : withoutComments.apply "a ; b\n\"; c\" ; d" = "a \n\"; c\" " := by decide

theorem applyFrom_cons (s : Spacing) (place : Place) (p : Position) (c : Char) (cs : List Char) :
    s.applyFrom place p (c :: cs)
      = s.piece place p.line c ++ s.applyFrom (place.after c) (p.next c) cs := rfl

/-! ## Positions -/

/-- What stood at `p` stands at `p'` under the spacing: on the same line and in the same column, or
behind it by the margin of the line. -/
structure Moves (s : Spacing) (p p' : Position) : Prop where
  line : p'.line = p.line
  pos : 0 < p.column
  column : p'.column = p.column ∨ p'.column = p.column + (s.margin p.line).length

/-- What follows moves alike. -/
theorem Moves.next (h : s.Moves p p') (c : Char) : s.Moves (p.next c) (p'.next c) := by
  unfold Position.next
  split
  · exact ⟨congrArg (· + 1) h.line, Nat.one_pos, .inl rfl⟩
  · refine ⟨h.line, Nat.add_pos_left h.pos _, ?_⟩
    rcases h.column with hsame | hmoved
    · exact .inl (congrArg (· + c.utf8Size) hsame)
    · exact .inr (by rw [hmoved]; exact Nat.add_right_comm _ _ _)

theorem Moves.after (h : s.Moves p p') (cs : List Char) : s.Moves (p.after cs) (p'.after cs) := by
  induction cs generalizing p p' with
  | nil => exact h
  | cons c cs ih => exact ih (h.next c)

/-- Blanks are one byte wide. -/
theorem after_blanks (hcs : ∀ c ∈ cs, c = ' ' ∨ c = '\t') (p : Position) :
    p.after cs = ⟨p.offset + cs.length, p.line, p.column + cs.length⟩ := by
  induction cs generalizing p with
  | nil => rfl
  | cons c cs ih =>
    obtain ⟨hc, hcs⟩ := List.forall_mem_cons.mp hcs
    have hnext : p.next c = ⟨p.offset + 1, p.line, p.column + 1⟩ := by
      rcases hc with rfl | rfl <;> rfl
    rw [Position.after_cons, hnext, ih hcs, List.length_cons]
    simp only [Position.mk.injEq, true_and]
    omega

/-- At the start of a line there is its margin. -/
theorem moves_margin (s : Spacing) {offset offset' : Nat} (line : Nat) :
    s.Moves ⟨offset, line, 1⟩ (Position.after ⟨offset', line, 1⟩ (s.margin line)) := by
  rw [after_blanks (s.blank line)]
  exact ⟨rfl, Nat.one_pos, .inr rfl⟩

/-- What becomes of one more character moves what follows. Inside of a comment that is dropped
nothing is said of the column, until its line ends. -/
theorem moves_piece (c : Char) (hline : p'.line = p.line)
    (hmoves : (place = .comment → s.comments = true) → s.Moves p p') :
    (p'.after (s.piece place p.line c)).line = (p.next c).line
      ∧ ((place.after c = .comment → s.comments = true) →
        s.Moves (p.next c) (p'.after (s.piece place p.line c))) := by
  by_cases hafter : place.after c = .comment
  · have hnext : (p.next c).line = p.line := by
      rw [Position.next, if_neg]
      rintro rfl
      cases place <;> cases hafter
    rw [piece_comment s p.line hafter]
    cases hs : s.comments with
    | true =>
      have hmoves := (hmoves fun _ => hs).next c
      exact ⟨hmoves.line, fun _ => hmoves⟩
    | false =>
      refine ⟨hline.trans hnext.symm, fun hcomment => ?_⟩
      exact absurd (hcomment hafter) Bool.false_ne_true
  by_cases hnewline : c = '\n' ∧ place ≠ .quoted
  · obtain ⟨rfl, hplace⟩ := hnewline
    have hstart : s.Moves (p.next '\n') (p'.after ('\n' :: s.margin (p.line + 1))) := by
      have hnext : p'.next '\n' = ⟨p'.offset + 1, p.line + 1, 1⟩ := by rw [← hline]; rfl
      rw [Position.after_cons, hnext]
      exact moves_margin s _
    rw [piece_newline s p.line hplace]
    exact ⟨hstart.line, fun _ => hstart⟩
  · -- Only the end of its line ends a comment, so this is none.
    have hplace : place ≠ .comment := by
      rintro rfl
      by_cases hc : c = '\n'
      · exact hnewline ⟨hc, Place.noConfusion⟩
      · exact hafter (if_neg hc)
    have hmoves := (hmoves fun h => absurd h hplace).next c
    rw [piece, if_neg (fun h => hafter h.1), if_neg hnewline]
    exact ⟨hmoves.line, fun _ => hmoves⟩

/-- The end of a text moves as well, unless it is the end of a comment that is dropped. -/
theorem moves_applyFrom (cs : List Char) (hline : p'.line = p.line)
    (hmoves : (place = .comment → s.comments = true) → s.Moves p p')
    (hend : cs.foldl Place.after place = .comment → s.comments = true) :
    s.Moves (p.after cs) (p'.after (s.applyFrom place p cs)) := by
  induction cs generalizing place p p' with
  | nil => exact hmoves hend
  | cons c cs ih =>
    obtain ⟨hline', hmoves'⟩ := moves_piece c hline hmoves
    rw [applyFrom_cons, Position.after_append]
    exact ih hline' hmoves' hend

/-- A spacing without margins moves nothing. -/
theorem Moves.text_eq (h : s.Moves p p') (hmargin : s.margin p.line = []) : p'.text = p.text := by
  have hcolumn : p'.column = p.column := by
    rcases h.column with hsame | hmoved
    · exact hsame
    · rw [hmoved, hmargin]
      rfl
  rw [Position.text, Position.text, h.line, hcolumn]

/-- Where a line has no margin, its first column stays the first. -/
theorem Moves.column_one (h : s.Moves p p') (hmargin : p.column = 1 → s.margin p.line = []) :
    p'.column = 1 ↔ p.column = 1 := by
  constructor
  · intro hone
    have hpos := h.pos
    rcases h.column with hsame | hmoved <;> omega
  · intro hone
    have hlength : (s.margin p.line).length = 0 := by rw [hmargin hone]; rfl
    rcases h.column with hsame | hmoved <;> omega

end Spacing

/-! ## Collapsed texts -/

/-- Outside of quotes, the two texts look alike on one line. -/
def SameCollapsed (cs ds : List Char) : Prop :=
  ∀ pending, collapseFrom false pending cs = collapseFrom false pending ds

/-- The two texts look alike in front of texts that do. -/
def SameGap (gap gap' : List Char) : Prop :=
  ∀ cs ds, SameCollapsed cs ds → SameCollapsed (gap ++ cs) (gap' ++ ds)

section
variable {c : Char} {cs ds gap gap' : List Char}

theorem sameGap_nil : SameGap [] [] := fun _ _ h => h

/-- Quoted or not, a character makes no difference if nothing behind it does. -/
theorem collapseFrom_cons_congr {quoted pending : Bool}
    (h : ∀ pending, collapseFrom (quoted ^^ (c == '"')) pending cs
      = collapseFrom (quoted ^^ (c == '"')) pending ds) :
    collapseFrom quoted pending (c :: cs) = collapseFrom quoted pending (c :: ds) := by
  rw [collapseFrom, collapseFrom]
  by_cases hblank : (!quoted && isBlank c) = true
  · -- A blank is no quote.
    have hquote : (c == '"') = false := by
      rw [beq_eq_false_iff_ne]
      rintro rfl
      rw [Bool.and_eq_true] at hblank
      exact absurd hblank.2 (by decide)
    rw [if_pos hblank, if_pos hblank]
    rw [hquote, Bool.xor_false] at h
    exact h true
  · rw [if_neg hblank, if_neg hblank, h false]

theorem SameGap.cons (hc : c ≠ '"') (h : SameGap gap gap') : SameGap (c :: gap) (c :: gap') := by
  intro cs ds hcs pending
  refine collapseFrom_cons_congr ?_
  rw [beq_eq_false_iff_ne.mpr hc]
  exact h cs ds hcs

/-- Blanks are not seen behind a blank. -/
theorem collapseFrom_blanks (hcs : ∀ c ∈ cs, c = ' ' ∨ c = '\t') (ds : List Char) :
    collapseFrom false true (cs ++ ds) = collapseFrom false true ds := by
  induction cs with
  | nil => rfl
  | cons c cs ih =>
    obtain ⟨hc, hcs⟩ := List.forall_mem_cons.mp hcs
    have hblank : isBlank c = true := by rcases hc with rfl | rfl <;> decide
    rw [List.cons_append, collapseFrom, hblank]
    exact ih hcs

/-- A margin is not seen behind the end of a line. -/
theorem SameGap.newline {margin : List Char} (hmargin : ∀ c ∈ margin, c = ' ' ∨ c = '\t')
    (h : SameGap gap gap') : SameGap ('\n' :: gap) ('\n' :: (margin ++ gap')) := by
  intro cs ds hcs pending
  have hblank : isBlank '\n' = true := by decide
  rw [List.cons_append, List.cons_append, collapseFrom, collapseFrom, hblank, List.append_assoc]
  simp only [Bool.not_false, Bool.and_self, if_true]
  rw [collapseFrom_blanks hmargin]
  exact h cs ds hcs true

end

end IrRecords.Text
