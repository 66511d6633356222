import IrRecords.Proofs.Text.Decimal
import IrRecords.Proofs.Text.Quoted
import IrRecords.Proofs.Token.Branches
import IrRecords.Proofs.Token.Cuts

/-!
# Single tokens as pieces

Which rows of characters are cut into one token: words, labels, references, numerals. Each kind of
token ends in a row of characters of one sort, name characters or digits, or in a closing quote, and
no delimiter continues such a row. So each lemma has two parts: what `lexeme` answers on the row and
a delimiter behind it, and, with `Cuts.single`, that the row is a piece.
-/

namespace IrRecords.Token

/-! ## Rows of characters -/

/-- No delimiter is a name character, so a delimiter ends each row of name characters. -/
theorem isNameChar_of_isDelimiter {c : Char} (h : isDelimiter c = true) :
    Text.isNameChar c = false := by
  rw [isDelimiter, Bool.or_eq_true, Bool.or_eq_true, beq_iff_eq, beq_iff_eq,
    Option.isSome_iff_exists] at h
  rcases h with (rfl | rfl) | ⟨kind, h⟩
  · decide
  · decide
  · unfold punctuation? at h
    split at h
    all_goals first | decide | cases h

/-- A row of characters that satisfy `p` is passed to its end. -/
theorem takeWhile_append {p : Char → Bool} {w cs : List Char} (hw : ∀ c ∈ w, p c = true)
    (hcs : ∀ c, cs.head? = some c → p c = false) : (w ++ cs).takeWhile p = w := by
  rw [List.takeWhile_append_of_pos hw]
  cases cs with
  | nil => simp
  | cons c cs => simp [hcs c rfl]

/-- A token that starts with `c` is a piece of a line. -/
theorem Cuts.single {c : Char} {w : List Char} {kind : TokenKind} (hflat : '\n' ∉ c :: w)
    (hgap : ∀ cs, gapLength (c :: cs) = 0) (hnumeral : ∀ s, kind = .int s → c :: w = s.toList)
    (hlex : ∀ cs, Delimited cs → lexeme c (w ++ cs) = .ok (kind, w.length)) :
    Cuts (c :: w) [kind] :=
  ⟨hflat, fun _ cs _ hcs h => .token (hgap _) (hlex cs hcs) hnumeral h⟩

/-- A row of name characters has no line break in it. -/
theorem newline_not_mem {w : List Char} (hw : ∀ c ∈ w, Text.isNameChar c = true) : '\n' ∉ w := by
  intro h
  exact absurd (hw _ h) (by decide)

/-- No name character starts a gap. -/
theorem gapLength_of_isNameChar {c : Char} (hc : Text.isNameChar c = true) (cs : List Char) :
    gapLength (c :: cs) = 0 := by
  have hne : ∀ d, Text.isNameChar d = false → c ≠ d := by
    rintro d hd rfl
    rw [hd] at hc
    cases hc
  simp [gapLength, gapFrom, hne '\n' (by decide), hne ';' (by decide), hne ' ' (by decide),
    hne '\t' (by decide), hne '\r' (by decide)]

theorem isNameChar_of_isAlpha {c : Char} (hc : c.isAlpha = true) : Text.isNameChar c = true := by
  simp [Text.isNameChar, Char.isAlphanum, hc]

theorem not_isDigit_of_isAlpha {c : Char} (hc : c.isAlpha = true) : c.isDigit = false := by
  cases hd : c.isDigit with
  | false => rfl
  | true =>
    -- Letters and digits are ranges of code points that are apart.
    delta Char.isAlpha Char.isUpper Char.isLower at hc
    simp only [Char.isDigit, Bool.or_eq_true, Bool.and_eq_true, decide_eq_true_eq,
      UInt32.le_iff_toNat_le, ge_iff_le] at hc hd
    simp at hc hd
    omega

/-- A letter starts a word or a label, unless it marks quoted text. -/
theorem lexeme_of_isAlpha {c : Char} {cs : List Char} (hc : c.isAlpha = true)
    (hcs : cs.head? ≠ some '"') :
    lexeme c cs = .ok (wordOrLabel c cs (runLength Text.isNameChar cs)) := by
  have hname : Text.isNameChar c = true := isNameChar_of_isAlpha hc
  have hne : ∀ d, d.isAlpha = false → c ≠ d := by
    rintro d hd rfl
    rw [hd] at hc
    cases hc
  refine lexeme_of_word hname (not_isDigit_of_isAlpha hc) (not_taken_of_isNameChar hname ?_ ?_ ?_)
  · exact fun hpoint => absurd hpoint (hne '.' (by decide))
  · exact fun _ => hcs
  · exact fun hdash => absurd hdash (hne '-' (by decide))

/-- What a letter and a row of name characters make, up to where the row ends. -/
theorem lexeme_append {c : Char} {w cs : List Char} (hc : c.isAlpha = true)
    (hw : ∀ c ∈ w, Text.isNameChar c = true)
    (hcs : ∀ c, cs.head? = some c → Text.isNameChar c = false ∧ c ≠ '"') :
    lexeme c (w ++ cs) = .ok (wordOrLabel c (w ++ cs) w.length) := by
  -- What is behind the letter is in the row or behind it, and neither is a quote.
  have hquote : (w ++ cs).head? ≠ some '"' := by
    cases w with
    | nil => exact fun h => (hcs _ h).2 rfl
    | cons d w =>
      intro h
      rw [List.cons_append, List.head?_cons, Option.some.injEq] at h
      exact absurd (hw d List.mem_cons_self) (by rw [h]; decide)
  rw [lexeme_of_isAlpha hc hquote, runLength, takeWhile_append hw fun c h => (hcs c h).1]

/-- What ends a row of name characters where it is safe. -/
theorem Delimited.stops {cs : List Char} (h : Delimited cs) (c : Char) (hc : cs.head? = some c) :
    Text.isNameChar c = false ∧ c ≠ '"' ∧ c ≠ ':' := by
  refine ⟨isNameChar_of_isDelimiter (h c hc), ?_, ?_⟩
  · rintro rfl
    exact absurd (h _ hc) (by decide)
  · rintro rfl
    exact absurd (h _ hc) (by decide)

/-- A word starts with a letter and is made of name characters. -/
def IsWord (w : List Char) : Prop :=
  (∃ c cs, w = c :: cs ∧ c.isAlpha = true) ∧ ∀ c ∈ w, Text.isNameChar c = true

instance (w : List Char) : Decidable (IsWord w) :=
  match w with
  | [] => .isFalse fun h => by obtain ⟨⟨c, cs, hcs, _⟩, _⟩ := h; cases hcs
  | c :: cs =>
    decidable_of_iff (c.isAlpha = true ∧ (c :: cs).all Text.isNameChar = true) <| by
      rw [List.all_eq_true]
      refine ⟨fun ⟨h, hall⟩ => ⟨⟨c, cs, rfl, h⟩, hall⟩, ?_⟩
      rintro ⟨⟨d, ds, hd, h⟩, hall⟩
      cases hd
      exact ⟨h, hall⟩

theorem Cuts.word {s : String} (hs : IsWord s.toList) : Cuts s.toList [.word s] := by
  -- From here on the word is its row of characters, which is what `lexeme` sees.
  have hword : s = String.ofList s.toList := String.ofList_toList.symm
  generalize s.toList = w at hs hword ⊢
  subst hword
  obtain ⟨⟨c, cs, rfl, hc⟩, hall⟩ := hs
  refine .single (newline_not_mem hall) (gapLength_of_isNameChar (isNameChar_of_isAlpha hc))
    (by simp) fun ds hds => ?_
  rw [lexeme_append hc (fun d hd => hall d (List.mem_cons_of_mem _ hd))
    fun d hd => ⟨(hds.stops d hd).1, (hds.stops d hd).2.1⟩]
  have hcolon : ds.head? ≠ some ':' := fun h => (hds.stops _ h).2.2 rfl
  rw [wordOrLabel, List.drop_left, if_neg hcolon, List.take_left]

/-- A word with a colon behind it is a label. -/
theorem Cuts.label {s : String} (hs : IsWord s.toList) : Cuts (s.toList ++ [':']) [.label s] := by
  have hword : s = String.ofList s.toList := String.ofList_toList.symm
  generalize s.toList = w at hs hword ⊢
  subst hword
  obtain ⟨⟨c, cs, rfl, hc⟩, hall⟩ := hs
  have hflat : '\n' ∉ c :: (cs ++ [':']) := by
    have h := newline_not_mem hall
    rw [List.mem_cons, not_or] at h ⊢
    exact ⟨h.1, by simp [h.2]⟩
  refine .single hflat (gapLength_of_isNameChar (isNameChar_of_isAlpha hc))
    (by simp) fun ds _ => ?_
  have hcolon : ∀ d, (':' :: ds).head? = some d → Text.isNameChar d = false ∧ d ≠ '"' := by
    rintro d hd
    cases hd
    decide
  have hlex := lexeme_append hc (fun d hd => hall d (List.mem_cons_of_mem _ hd)) hcolon
  change lexeme c ((cs ++ [':']) ++ ds) = .ok (_, (cs ++ [':']).length)
  rw [List.append_assoc, List.singleton_append, hlex, wordOrLabel, List.drop_left, List.head?_cons,
    if_pos rfl, List.take_left, List.length_append, List.length_singleton]

/-! ## References -/

/-- What ends a row of digits where it is safe. -/
theorem Delimited.not_isDigit {cs : List Char} (h : Delimited cs) (c : Char)
    (hc : cs.head? = some c) : c.isDigit = false := by
  cases hd : c.isDigit with
  | false => rfl
  | true =>
    have hname := (h.stops c hc).1
    rw [isNameChar_of_isDigit hd] at hname
    cases hname

/-- **A quoted name is read as this name** behind a sigil. -/
theorem reference_quoteName (sigil : Char) (name : String) {cs : List Char}
    (hcs : ∀ c, cs.head? = some c → Text.isNameChar c = false) :
    reference sigil ((Text.quoteName name).toList ++ cs)
      = .ok (.named name, (Text.quoteName name).toList.length) := by
  cases hbare : Text.isBare name.toList with
  | true =>
    rw [Text.quoteName_of_isBare hbare]
    cases hname : name.toList with
    | nil => rw [hname] at hbare; cases hbare
    | cons c w =>
      -- A bare name is a row of name characters, which goes up to what is none.
      rw [hname, Text.isBare, Bool.and_eq_true, Bool.not_eq_true', List.all_eq_true] at hbare
      obtain ⟨hdigit, hall⟩ := hbare
      have htake : (c :: (w ++ cs)).takeWhile Text.isNameChar = c :: w :=
        takeWhile_append (w := c :: w) hall hcs
      have hnone : (c :: (w ++ cs)).takeWhile Char.isDigit = [] :=
        List.takeWhile_cons_of_neg (by simp [hdigit])
      have hnames := Names.bare hnone htake (List.cons_ne_nil c w)
      rw [← hname, String.ofList_toList, hname] at hnames
      exact reference_eq_ok_iff.mpr hnames
  | false =>
    -- Any other name ends at its own quote, and what is behind it does not matter.
    rw [Text.quoteName_of_not_isBare hbare, List.cons_append, List.append_assoc,
      List.singleton_append, reference, quoted, Text.readQuoted_escape]
    have hname : nameOf (Utf8.encode name.toList) = .ok name := by
      rw [nameOf, Utf8.decode?_encode, String.ofList_toList]
    simp only [Bind.bind, Except.bind, hname]
    simp [Pure.pure, Except.pure]

/-- A numeral of 32 bits is read as a slot behind a sigil. -/
theorem reference_digits (sigil : Char) {n : Nat} {w cs : List Char} (hw : Text.IsNumeral w)
    (hn : Text.decimal? Text.bound32 w = some n) (hcs : Delimited cs) :
    reference sigil (w ++ cs) = .ok (.slot n, w.length) := by
  obtain ⟨hne, hdigits⟩ := hw
  exact reference_eq_ok_iff.mpr (.slot (takeWhile_append hdigits hcs.not_isDigit) hne hn)

/-- What is written for a name has no line break in it. -/
theorem newline_not_mem_quoteName (name : String) : '\n' ∉ (Text.quoteName name).toList := by
  cases hbare : Text.isBare name.toList with
  | true =>
    rw [Text.quoteName_of_isBare hbare]
    cases hname : name.toList with
    | nil => simp
    | cons c w =>
      rw [hname, Text.isBare, Bool.and_eq_true, List.all_eq_true] at hbare
      exact newline_not_mem hbare.2
  | false =>
    have hescape := Text.newline_not_mem_escape (Utf8.encode name.toList)
    rw [Text.quoteName_of_not_isBare hbare, List.mem_cons, List.mem_append, List.mem_singleton]
    rintro (h | h | h)
    · cases h
    · exact hescape h
    · cases h

/-- A name behind the sigil of locals, quoted where it has to be. -/
theorem Cuts.localName (name : String) :
    Cuts ('%' :: (Text.quoteName name).toList) [.localRef (.named name)] := by
  refine .single ?_ (fun _ => rfl) (by simp) fun cs hcs => ?_
  · simp [newline_not_mem_quoteName]
  · rw [lexeme_percent, reference_quoteName _ _ fun c hc => (hcs.stops c hc).1]
    rfl

/-- A name behind the sigil of globals, quoted where it has to be. -/
theorem Cuts.globalName (name : String) :
    Cuts ('@' :: (Text.quoteName name).toList) [.globalRef (.named name)] := by
  refine .single ?_ (fun _ => rfl) (by simp) fun cs hcs => ?_
  · simp [newline_not_mem_quoteName]
  · rw [lexeme_at, reference_quoteName _ _ fun c hc => (hcs.stops c hc).1]
    rfl

/-- A numeral of 32 bits behind the sigil of locals. -/
theorem Cuts.localDigits {n : Nat} {w : List Char} (hw : Text.IsNumeral w)
    (hn : Text.decimal? Text.bound32 w = some n) : Cuts ('%' :: w) [.localRef (.slot n)] := by
  refine .single ?_ (fun _ => rfl) (by simp) fun cs hcs => ?_
  · rw [List.mem_cons, not_or]
    exact ⟨by decide, fun h => absurd (hw.2 _ h) (by decide)⟩
  · rw [lexeme_percent, reference_digits _ hw hn hcs]
    rfl

/-- A number behind the sigil of locals. -/
theorem Cuts.localSlot {n : Nat} (hn : n < Text.bound32) :
    Cuts ('%' :: (toString n).toList) [.localRef (.slot n)] :=
  .localDigits (Text.isNumeral_toString n) (Text.decimal?_toString hn)

/-! ## Numerals -/

/-- Digits in front of a delimiter are a numeral without fraction and exponent. -/
theorem numeral_of_isNumeral {w cs : List Char} (hw : Text.IsNumeral w) (hcs : Delimited cs) :
    numeral (w ++ cs) = (false, w.length) := by
  obtain ⟨hne, hdigits⟩ := hw
  have hrun : runLength Char.isDigit (w ++ cs) = w.length := by
    rw [runLength, takeWhile_append hdigits hcs.not_isDigit]
  have hstop : ∀ d, Text.isNameChar d = true → cs.head? ≠ some d := by
    intro d hd h
    rw [(hcs.stops d h).1] at hd
    cases hd
  -- Fractions and exponents start with name characters, and so does what marks a hexadecimal
  -- numeral.
  have hfraction : fractionLength cs = 0 := by
    unfold fractionLength
    split
    · exact absurd rfl (hstop '.' (by decide))
    · rfl
  have hexponent : exponentLength cs = 0 := by
    unfold exponentLength
    split
    · next c s ds =>
      rw [if_neg]
      rw [Bool.or_eq_true, beq_iff_eq, beq_iff_eq]
      rintro (rfl | rfl)
      · exact hstop 'e' (by decide) rfl
      · exact hstop 'E' (by decide) rfl
    · rfl
  rw [numeral]
  · simp only [hrun, List.drop_left, hfraction, Nat.add_zero, hexponent]
    rfl
  · intro ds hds
    cases w with
    | nil => exact hne rfl
    | cons c w =>
      rw [List.cons_append] at hds
      obtain ⟨rfl, hrest⟩ := List.cons.inj hds
      cases w with
      | nil => exact hstop 'x' (by decide) (by rw [show cs = 'x' :: ds from hrest]; rfl)
      | cons d w =>
        obtain ⟨rfl, _⟩ := List.cons.inj hrest
        exact absurd (hdigits 'x' (by simp)) (by decide)

/-- Digits are a numeral. -/
theorem Cuts.numeral {s : String} (hs : Text.IsNumeral s.toList) : Cuts s.toList [.int s] := by
  have hnumber : s = String.ofList s.toList := String.ofList_toList.symm
  generalize s.toList = w at hs hnumber ⊢
  subst hnumber
  have hw := hs
  cases w with
  | nil => exact absurd rfl hw.1
  | cons c w =>
    have hc : c.isDigit = true := hw.2 c List.mem_cons_self
    refine .single ?_ (gapLength_of_isNameChar (isNameChar_of_isDigit hc)) ?_ fun cs hcs => ?_
    · exact newline_not_mem fun d hd => isNameChar_of_isDigit (hw.2 d hd)
    · rintro s hs
      cases hs
      rw [String.toList_ofList]
    · have hnumeral := numeral_of_isNumeral hw hcs
      have hrun : runLength Char.isDigit (w ++ cs) = w.length := by
        rw [runLength, takeWhile_append (fun d hd => hw.2 d (List.mem_cons_of_mem _ hd))
          hcs.not_isDigit]
      -- In front of a colon the digits would be a label.
      have hcolon : cs.head? ≠ some ':' := fun h => (hcs.stops _ h).2.2 rfl
      rw [List.cons_append] at hnumeral
      rw [lexeme_of_isDigit hc, hrun]
      simp [hcolon, hnumeral, numeralKind]

/-- Digits behind a sign are a numeral. -/
theorem Cuts.signed {s : String} {w : List Char} (hs : s.toList = '-' :: w)
    (hw : Text.IsNumeral w) : Cuts s.toList [.int s] := by
  have hnumber : s = String.ofList ('-' :: w) := by rw [← hs, String.ofList_toList]
  rw [hs, hnumber]
  refine .single ?_ (fun _ => rfl) ?_ fun cs hcs => ?_
  · have hflat := newline_not_mem fun d hd => isNameChar_of_isDigit (hw.2 d hd)
    simp [hflat]
  · rintro s hs
    cases hs
    rw [String.toList_ofList]
  · have hnumeral := numeral_of_isNumeral hw hcs
    have hhead : ((w ++ cs).head?.map Char.isDigit).getD false = true := by
      cases w with
      | nil => exact absurd rfl hw.1
      | cons c w => exact hw.2 c List.mem_cons_self
    rw [lexeme_dash hhead, hnumeral]
    simp [numeralKind]

/-- Three points are one token. -/
theorem Cuts.ellipsis {w : List Char} {ks : List TokenKind} (h : Cuts w ks) :
    Cuts ('.' :: '.' :: '.' :: w) (.ellipsis :: ks) := by
  refine ⟨by simp [h.flat], fun p cs ms hcs hcut => ?_⟩
  have hline : (p.after ['.', '.', '.']).line = p.line := rfl
  have hrest := h.cut (p.after ['.', '.', '.']) cs ms hcs hcut
  rw [hline] at hrest
  exact Cut.token (w := ['.', '.']) rfl rfl (by simp) hrest

end IrRecords.Token
