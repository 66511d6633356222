import IrRecords.Token.Cursor

/-!
# Rows of tokens

Two things are said of a row of neighbouring tokens. The one is what it does to the brackets that
are open: `Quiet S ts S'` says that the row `ts` leads from the open brackets `S` to `S'` without
closing any that are not in `S`, and that labels and equals signs stand inside brackets only. Such a
row does the same wherever it stands (`Quiet.above`), so what is outside of all brackets in it is
neither a label nor an equals sign, whatever is open in front of it (`Quiet.isQuiet_of_outside`).

The other is which parts of a row are told apart: `Slices ts slices` says that the rows `slices`
stand in `ts` one behind the other.
-/

namespace IrRecords

/-! ## Places in rows that were put together -/

section

variable {α β : Type} {xs ys p q : List α} {x : α}

theorem mem_of_eq_append_cons (h : xs = p ++ x :: q) : x ∈ xs := by
  rw [h]
  exact List.mem_append_right _ List.mem_cons_self

/-- An element of two rows is in the first or in the second. -/
theorem append_eq_append_cons (h : xs ++ ys = p ++ x :: q) :
    (∃ q', xs = p ++ x :: q' ∧ q = q' ++ ys) ∨ ∃ p', p = xs ++ p' ∧ ys = p' ++ x :: q := by
  rcases List.append_eq_append_iff.mp h with ⟨p', hp, hys⟩ | ⟨c, hxs, hq⟩
  · exact .inr ⟨p', hp, hys⟩
  · cases c with
    | nil => exact .inr ⟨[], by simpa using hxs.symm, hq.symm⟩
    | cons y c =>
      rw [List.cons_append, List.cons.injEq] at hq
      exact .inl ⟨c, hq.1 ▸ hxs, hq.2⟩

/-- An element of many rows is in one of them. -/
theorem flatMap_eq_append_cons {as : List β} {f : β → List α} (h : as.flatMap f = p ++ x :: q) :
    ∃ before a after p' q', as = before ++ a :: after ∧ f a = p' ++ x :: q'
      ∧ p = before.flatMap f ++ p' ∧ q = q' ++ after.flatMap f := by
  induction as generalizing p with
  | nil => simp at h
  | cons a as ih =>
    rw [List.flatMap_cons] at h
    rcases append_eq_append_cons h with ⟨q', ha, hq⟩ | ⟨p', hp, has⟩
    · exact ⟨[], a, as, p, q', rfl, ha, rfl, hq⟩
    · obtain ⟨before, a', after, p'', q', rfl, ha', rfl, hq⟩ := ih has
      refine ⟨a :: before, a', after, p'', q', rfl, ha', ?_, hq⟩
      rw [hp, List.flatMap_cons, List.append_assoc]

end

/-! ## Open brackets -/

/-- Whether a token of this kind opens or closes a group. -/
def TokenKind.isBracket : TokenKind → Bool
  | .opener _ | .closer _ => true
  | _ => false

/-- Whether a token of this kind may stand outside of all brackets in a row that starts nothing and
closes nothing. -/
def TokenKind.isQuiet : TokenKind → Bool
  | .label _ | .equal | .closer _ => false
  | _ => true

namespace Token

open Cursor (bracketsAfter)

/-- The row `ts` leads from the open brackets `S` to `S'`. -/
inductive Quiet : (S : List Bracket) → (ts : List Token) → (S' : List Bracket) → Prop
  | nil {S : List Bracket} : Quiet S [] S
  | cons {S S' : List Bracket} {t : Token} {ts : List Token} (ht : S ≠ [] ∨ t.kind.isQuiet = true)
      (hts : Quiet (bracketsAfter S t) ts S') : Quiet S (t :: ts) S'

variable {S S' S'' : List Bracket} {t : Token} {ts us : List Token}

theorem Quiet.append (h : Quiet S ts S') (h' : Quiet S' us S'') : Quiet S (ts ++ us) S'' := by
  induction h with
  | nil => exact h'
  | cons ht _ ih => exact .cons ht (ih h')

/-- A token that is no bracket leaves the brackets alone. -/
theorem bracketsAfter_plain (ht : t.kind.isBracket = false) (S : List Bracket) :
    bracketsAfter S t = S := by
  unfold bracketsAfter
  split
  · next hk => rw [hk] at ht; cases ht
  · next hk => rw [hk] at ht; cases ht
  · rfl

theorem bracketsAfter_opener {b : Bracket} (ht : t.kind = .opener b) (S : List Bracket) :
    bracketsAfter S t = b :: S := by
  simp only [bracketsAfter, ht]

theorem bracketsAfter_closer {b : Bracket} (ht : t.kind = .closer b) (S : List Bracket) :
    bracketsAfter (b :: S) t = S := by
  simp only [bracketsAfter, ht, if_true]

/-- A closer answers the innermost bracket only. -/
theorem bracketsAfter_stray {b top : Bracket} (ht : t.kind = .closer b) (hne : b ≠ top)
    (S : List Bracket) : bracketsAfter (top :: S) t = top :: S := by
  simp only [bracketsAfter, ht, if_neg hne]

/-- A token acts on the innermost brackets only. -/
theorem bracketsAfter_append (ht : S ≠ [] ∨ t.kind.isQuiet = true) (B : List Bracket) :
    bracketsAfter (S ++ B) t = bracketsAfter S t ++ B := by
  cases hk : t.kind
  case opener b => rw [bracketsAfter_opener hk, bracketsAfter_opener hk, List.cons_append]
  case closer b =>
    cases S with
    | nil =>
      -- Nothing is open, so a closer would have been refused.
      rw [hk] at ht
      rcases ht with ht | ht
      · exact absurd rfl ht
      · cases ht
    | cons top S =>
      rw [List.cons_append]
      by_cases hb : b = top
      · subst hb
        rw [bracketsAfter_closer hk, bracketsAfter_closer hk]
      · rw [bracketsAfter_stray hk hb, bracketsAfter_stray hk hb, List.cons_append]
  all_goals
    have hplain : t.kind.isBracket = false := by rw [hk]; rfl
    rw [bracketsAfter_plain hplain, bracketsAfter_plain hplain]

/-- More brackets may be open in front of a row. -/
theorem Quiet.above (h : Quiet S ts S') (B : List Bracket) : Quiet (S ++ B) ts (S' ++ B) := by
  induction h with
  | nil => exact .nil
  | cons ht _ ih =>
    refine .cons (ht.imp_left fun hS => List.append_ne_nil_of_left_ne_nil hS B) ?_
    rw [bracketsAfter_append ht]
    exact ih

/-- **Outside of all brackets there is neither a label nor an equals sign in a quiet row**, wherever
the row stands. -/
theorem Quiet.isQuiet_of_outside {B : List Bracket} (h : Quiet S (ts ++ t :: us) S')
    (houtside : ts.foldl bracketsAfter (S ++ B) = []) : t.kind.isQuiet = true := by
  induction ts generalizing S with
  | nil =>
    cases h with
    | cons ht _ =>
      have hS : S = [] := (List.append_eq_nil_iff.mp houtside).1
      exact ht.resolve_left fun hne => hne hS
  | cons first ts ih =>
    cases h with
    | cons ht hts =>
      rw [List.foldl_cons, bracketsAfter_append ht] at houtside
      exact ih hts houtside

/-! ## Slices -/

/-- The source text of a row, on one line. -/
def rowText (ts : List Token) : String := String.ofList (Text.collapse (spanText ts))

/-- The rows `slices` stand in `ts` one behind the other. -/
inductive Slices : (ts : List Token) → (slices : List (List Token)) → Prop
  | nil : Slices [] []
  | skip {t : Token} {ts : List Token} {slices : List (List Token)} (h : Slices ts slices) :
      Slices (t :: ts) slices
  | slice {s ts : List Token} {slices : List (List Token)} (h : Slices ts slices) :
      Slices (s ++ ts) (s :: slices)

variable {slices slices' : List (List Token)}

theorem Slices.append (h : Slices ts slices) (h' : Slices us slices') :
    Slices (ts ++ us) (slices ++ slices') := by
  induction h with
  | nil => exact h'
  | skip _ ih => exact .skip ih
  | slice _ ih =>
    rw [List.append_assoc]
    exact .slice ih

/-- Nothing need be told apart. -/
theorem Slices.none (ts : List Token) : Slices ts [] := by
  induction ts with
  | nil => exact .nil
  | cons t ts ih => exact .skip ih

/-- A slice stands in the row as it is. -/
theorem Slices.infix_of_mem (h : Slices ts slices) {s : List Token} (hs : s ∈ slices) :
    s <:+: ts := by
  induction h with
  | nil => cases hs
  | skip _ ih => exact (ih hs).trans (List.suffix_cons _ _).isInfix
  | slice _ ih =>
    rcases List.mem_cons.mp hs with rfl | hs
    · exact (List.prefix_append _ _).isInfix
    · exact (ih hs).trans (List.suffix_append _ _).isInfix

end Token

end IrRecords
