import IrRecords.Text.Decimal

/-!
# Reading decimal numerals

What `toString` writes for a number is a row of digits, and reading it gives the number again.
-/

namespace IrRecords.Text

/-- A row of digits, and not an empty one. -/
def IsNumeral (w : List Char) : Prop := w ≠ [] ∧ ∀ c ∈ w, c.isDigit = true

-- The row is walked, and not the range of characters, which is decidable as well.
instance (w : List Char) : Decidable (IsNumeral w) :=
  decidable_of_iff (w ≠ [] ∧ w.all Char.isDigit = true) (and_congr_right fun _ => List.all_eq_true)

/-- A number is written as a row of digits. -/
theorem isNumeral_toString (n : Nat) : IsNumeral (toString n).toList := by
  rw [Nat.toString_eq_repr, Nat.toList_repr]
  exact ⟨Nat.toDigits_ne_nil, fun c hc => Nat.isDigit_of_mem_toDigits (by omega) (by omega) hc⟩

/-- **Reading a numeral undoes writing it.** -/
theorem decimal?_toString {bound n : Nat} (h : n < bound) :
    decimal? bound (toString n).toList = some n := by
  obtain ⟨hne, hdigits⟩ := isNumeral_toString n
  have hempty : (toString n).toList.isEmpty = false := List.isEmpty_eq_false_iff.mpr hne
  have hall : (toString n).toList.all Char.isDigit = true := List.all_eq_true.mpr hdigits
  have hvalue : Nat.ofDigitChars 10 (toString n).toList 0 = n := by
    rw [Nat.toString_eq_repr, Nat.toList_repr, Nat.ofDigitChars_ten_toDigits]
  rw [decimal?, hempty, hall, hvalue]
  exact if_pos h

/-- Different numbers are written differently. -/
theorem eq_of_toString_eq {m n : Nat} (h : toString m = toString n) : m = n := by
  have hm : decimal? (m + n + 1) (toString m).toList = some m := decimal?_toString (by omega)
  have hn : decimal? (m + n + 1) (toString n).toList = some n := decimal?_toString (by omega)
  rw [h, hn] at hm
  exact (Option.some.inj hm).symm

/-- **What is read as a number is a numeral that writes it**, and the number is below the bound. -/
theorem decimal?_eq_some_iff {bound n : Nat} {cs : List Char} :
    decimal? bound cs = some n ↔ IsNumeral cs ∧ Nat.ofDigitChars 10 cs 0 = n ∧ n < bound := by
  have hnumeral : (cs.isEmpty || !cs.all Char.isDigit) = true ↔ ¬ IsNumeral cs := by
    simp only [IsNumeral, Decidable.not_and_iff_not_or_not, Decidable.not_not, Bool.or_eq_true,
      List.isEmpty_iff, Bool.not_eq_true', ← Bool.not_eq_true, List.all_eq_true]
  rw [decimal?]
  by_cases hcs : IsNumeral cs
  · rw [if_neg fun h => hnumeral.mp h hcs]
    dsimp only
    by_cases hbound : Nat.ofDigitChars 10 cs 0 < bound
    · rw [if_pos hbound, Option.some.injEq]
      exact ⟨fun h => ⟨hcs, h, h ▸ hbound⟩, fun h => h.2.1⟩
    · rw [if_neg hbound]
      exact iff_of_false (fun h => nomatch h) fun h => hbound (h.2.1 ▸ h.2.2)
  · rw [if_pos (hnumeral.mpr hcs)]
    exact iff_of_false (fun h => nomatch h) fun h => hcs h.1

/-- A number that was read is below the bound. -/
theorem lt_of_decimal? {bound n : Nat} {cs : List Char} (h : decimal? bound cs = some n) :
    n < bound :=
  (decimal?_eq_some_iff.mp h).2.2

end IrRecords.Text
