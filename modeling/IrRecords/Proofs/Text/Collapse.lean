import IrRecords.Text.Blank

/-!
# Texts on one line

Collapsing writes one space for a run of blanks, so there is nothing to do a second time
(`collapse_collapse`). A text is plain if the blanks outside of its quotes are those that separate
tokens, and if it has no comments; what a line break separates in it, a space separates as well.
-/

namespace IrRecords.Text

/-- Whether a character is one of the blanks that may separate tokens. -/
def isSpace (c : Char) : Bool := c == ' ' || c == '\t' || c == '\r' || c == '\n'

/-- Whether a text, behind an odd number of quotes or an even one, is plain: outside of quotes there is no
sign of a comment, and no blank but those that separate tokens. -/
def isPlainFrom (quoted : Bool) : List Char → Bool
  | [] => true
  | c :: cs => (quoted || (c != ';' && (!isBlank c || isSpace c))) && isPlainFrom (quoted ^^ (c == '"')) cs

/-- Whether a text has no comments, and no blanks outside of quotes but those that separate tokens. -/
def isPlain (cs : List Char) : Bool := isPlainFrom false cs

/-- What is collapsed stays as it is. Only outside of quotes there are blanks that are not written
yet. -/
theorem collapseFrom_collapseFrom {quoted pending : Bool} (hpending : pending = true → quoted = false)
    (cs : List Char) :
    collapseFrom quoted false (collapseFrom quoted pending cs) = collapseFrom quoted pending cs := by
  induction cs generalizing quoted pending with
  | nil => rfl
  | cons c cs ih =>
    cases hblank : !quoted && isBlank c with
    | true =>
      have hquoted : quoted = false := by
        rw [Bool.and_eq_true, Bool.not_eq_true'] at hblank
        exact hblank.1
      rw [collapseFrom, if_pos hblank]
      exact ih fun _ => hquoted
    | false =>
      have hrest : ∀ pending', collapseFrom quoted pending'
          (c :: collapseFrom (quoted ^^ (c == '"')) false cs)
          = (if pending' then [' '] else []) ++ c :: collapseFrom (quoted ^^ (c == '"')) false cs := by
        intro pending'
        rw [collapseFrom, if_neg (by rw [hblank]; exact Bool.false_ne_true),
          ih fun h => absurd h Bool.false_ne_true]
        cases pending' <;> rfl
      rw [collapseFrom, if_neg (by rw [hblank]; exact Bool.false_ne_true)]
      cases pending with
      | false => exact hrest false
      | true =>
        rw [hpending rfl] at hrest ⊢
        exact hrest true

/-- **Collapsing twice is collapsing once.** -/
theorem collapse_collapse (cs : List Char) : collapse (collapse cs) = collapse cs :=
  collapseFrom_collapseFrom (fun h => absurd h Bool.false_ne_true) cs

example : collapse "[i8 1,\n    i8 2 ]".toList = "[i8 1, i8 2 ]".toList := by decide

end IrRecords.Text
