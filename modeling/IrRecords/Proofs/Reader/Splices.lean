import IrRecords.Proofs.Reader.Placing
import IrRecords.Proofs.Reader.Seams
import IrRecords.Proofs.Token.Splices

/-!
# Texts that something was put into

Where tokens were put into a text, there is a seam in front of them (`Token.Splice.seam`). What stands
behind them has the same tokens in both texts, so that from there on the two are read side by side
(`Token.Splice.twins`). In between, a reader has to pass what was put in.
-/

namespace IrRecords

open Token (kindAt)

variable {s s' : Token.Stream} {ts is us us' : List Token} {last? : Option Nat}

theorem Cursor.advance_of_rest {c : Cursor} {t : Token} {rest : List Token} (h : c.rest = t :: rest) :
    c.advance = ⟨some t.line, rest, c.stop⟩ := by
  rw [advance, h]

/-- Tokens in front that satisfy the test are passed, and it is as if they had been passed before, on the
same line. -/
theorem Cursor.advanceWhile_append {p : Token → Bool} {last? : Option Nat} {is us : List Token}
    {stop : Token} (hp : ∀ t ∈ is, p t = true) (hline : ∀ t ∈ is, last? = some t.line) :
    (⟨last?, is ++ us, stop⟩ : Cursor).advanceWhile p = (⟨last?, us, stop⟩ : Cursor).advanceWhile p := by
  have hlast : (is.getLast?.map Token.line).or last? = last? := by
    cases hget : is.getLast? with
    | none => rfl
    | some t => exact (hline t (List.mem_of_getLast? hget)).symm
  rw [advanceWhile, advanceWhile, advanceWhileIn_eq, advanceWhileIn_eq,
    List.takeWhile_append_of_pos hp, List.dropWhile_append_of_pos hp, List.getLast?_append,
    Option.map_or, Option.or_assoc, hlast]

namespace Token

/-- Rows with the same texts and the same gaps between them are shown alike, part by part. -/
theorem rowText_drop_take (htexts : List.Forall₂ (fun t t' : Token => t'.text = t.text) us us')
    (hgaps : List.Forall₂ (fun t t' : Token => t'.gap = t.gap) us.tail us'.tail) (k n : Nat) :
    rowText ((us'.drop k).take n) = rowText ((us.drop k).take n) := by
  refine rowText_eq_of_forall₂ ?_ ?_
  · exact List.forall₂_take _ (List.forall₂_drop _ htexts)
  · rw [← List.drop_one, ← List.drop_one, List.drop_take, List.drop_take, List.drop_drop,
      List.drop_drop, Nat.add_comm, ← List.drop_drop, ← List.drop_drop, List.drop_one,
      List.drop_one]
    exact List.forall₂_take _ (List.forall₂_drop _ hgaps)

namespace Splice

/-- What stands behind what was put in, by itself, in both texts. -/
def twins (h : Splice s s' ts is us us') : IrRecords.Twins where
  first := ⟨us, s.stop⟩
  second := ⟨us', s'.stop⟩
  Moves p p' := p'.column = 1 ↔ p.column = 1
  Loose _ := False
  lines := 0
  tokens := h.behind.tokens.imp fun _ _ ht => ⟨ht.kind, ht.text, ht.start.line, ht.start.first⟩
  lexed := h.lexed
  lexed' := h.lexed'
  stop := h.eof
  stop' := h.eof'
  line := h.line
  texts k n := .inl
    (rowText_drop_take (h.behind.tokens.imp fun _ _ ht => ht.text) h.behind.gaps k n)

theorem facing (h : Splice s s' ts is us us') (last? : Option Nat) :
    h.twins.Facing ⟨last?, us, s.stop⟩ ⟨last?, us', s'.stop⟩ :=
  ⟨h.twins.tokens, List.suffix_rfl, List.suffix_rfl, by cases last? <;> rfl, rfl, rfl⟩

theorem kindAt_eq (h : Splice s s' ts is us us') (n : Nat) :
    kindAt us' s'.stop n = kindAt us s.stop n :=
  (h.facing none).lookahead n |>.kind

/-- The place in front of what was put in. -/
def seam (h : Splice s s' ts is us us') (hne : us ≠ [])
    (hinert : ∀ t, is.head? = some t → t.kind.isInert = true) : Seam where
  behind := us
  behind' := is ++ us'
  stop := s.stop
  stop' := s'.stop
  ne_nil := hne
  length_le := by
    rw [List.length_append, h.behind.tokens.length_eq]
    exact Nat.le_add_left _ _
  kind_ne_eof t ht := (h.lexed t ht).kind_ne_eof
  eof := h.eof
  inert := by
    cases is with
    | nil => exact .inr h.kindAt_eq
    | cons t is => exact .inl (hinert t rfl)

variable {h : Splice s s' ts is us us'} {hne : us ≠ []}
  {hinert : ∀ t, is.head? = some t → t.kind.isInert = true} {c c' : Cursor} {ahead : List Token}

/-- At the seam. -/
theorem eq_of_beside (hc : (h.seam hne hinert).Beside [] c c') :
    c = ⟨c.lastLine?, us, s.stop⟩ ∧ c' = ⟨c.lastLine?, is ++ us', s'.stop⟩ := by
  obtain ⟨last?, rest, stop⟩ := c
  obtain ⟨last?', rest', stop'⟩ := c'
  obtain ⟨hrest, hrest', hstop, hstop', hlast⟩ := hc
  exact ⟨congrArg₂ (Cursor.mk last?) hrest hstop,
    (congrArg₂ (Cursor.mk last?') hrest' hstop').trans (congrArg (fun l => Cursor.mk l _ _) hlast)⟩

/-- Where what is left of a line is passed, nothing is left of what was put in, and both texts go on alike. -/
theorem facing_skipRestOfLine {L : Nat} (hc : (h.seam hne hinert).Beside ahead c c')
    (hlast : c.lastLine? = some L) (hahead : ∀ t ∈ ahead, t.line = L) (his : ∀ t ∈ is, t.line = L) :
    h.twins.Facing c.skipRestOfLine c'.skipRestOfLine := by
  obtain ⟨last?, rest, stop⟩ := c
  obtain ⟨last?', rest', stop'⟩ := c'
  obtain ⟨hrest, hrest', hstop, hstop', hlast'⟩ := hc
  dsimp only at hrest hrest' hstop hstop' hlast hlast'
  subst hrest hrest' hstop hstop' hlast hlast'
  have hline : ∀ ts : List Token, (∀ t ∈ ts, t.line = L) →
      (∀ t ∈ ts, (t.line == L) = true) ∧ ∀ t ∈ ts, some L = some t.line :=
    fun ts hts => ⟨fun t ht => beq_iff_eq.mpr (hts t ht), fun t ht => congrArg some (hts t ht).symm⟩
  obtain ⟨hpass, hsame⟩ := hline ahead hahead
  obtain ⟨hpass', hsame'⟩ := hline (ahead ++ is) (List.forall_mem_append.mpr ⟨hahead, his⟩)
  have hbehind : (h.seam hne hinert).behind' = is ++ us' := rfl
  rw [Cursor.skipRestOfLine, Cursor.skipRestOfLine]
  dsimp only
  rw [hbehind, ← List.append_assoc, Cursor.advanceWhile_append hpass hsame,
    Cursor.advanceWhile_append hpass' hsame']
  exact (h.facing (some L)).skipRestOfLine

theorem beside_start (h : Splice s s' ts is us us') (hne : us ≠ [])
    (hinert : ∀ t, is.head? = some t → t.kind.isInert = true) :
    (h.seam hne hinert).Beside ts s.start s'.start :=
  ⟨h.tokens, h.tokens', rfl, rfl, rfl⟩

end Splice

end Token

end IrRecords
