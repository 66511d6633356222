import IrRecords.Proofs.Token.Lexemes
import IrRecords.Proofs.Token.Prefixes

/-!
# Tokens in front of what ends them

A blank, a line break, the sign of a comment or a mark of punctuation may be put behind any token, whatever
comes after it, and the token is cut off as it was (`lexeme_append_of_ends`). This is the other direction
of cutting away what stands behind (`lexeme_of_append`), and it does not hold of other characters: a letter
would go on with a word, and a colon would make a label of it.
-/

namespace IrRecords.Token

/-- Whether the character goes on with no token, outside of quotes. -/
def endsToken (c : Char) : Bool :=
  !(Text.isNameChar c || c == '+' || c == ':' || c == '"' || c == '\\')

variable {p : Char → Bool} {c d x : Char} {ds : List Char} {n used : Nat} {kind : TokenKind}

/-! ## Characters behind a row -/

theorem endsToken_of_isBreak (h : isBreak c = true) : endsToken c = true := by
  simp only [isBreak, Bool.or_eq_true, beq_iff_eq] at h
  rcases h with (((rfl | rfl) | rfl) | rfl) | rfl
  all_goals rfl

theorem ne_of_endsToken (hd : endsToken d = true) (hx : endsToken x = false) : d ≠ x := by
  rintro rfl
  rw [hd] at hx
  cases hx

theorem isNameChar_of_endsToken (hd : endsToken d = true) : Text.isNameChar d = false := by
  simp only [endsToken, Bool.not_eq_true', Bool.or_eq_false_iff] at hd
  exact hd.1.1.1.1

theorem isDigit_of_endsToken (hd : endsToken d = true) : d.isDigit = false := by
  cases hdigit : d.isDigit with
  | false => rfl
  | true =>
    have hname := isNameChar_of_endsToken hd
    rw [isNameChar_of_isDigit hdigit] at hname
    cases hname

/-- The characters of numerals are letters and digits. -/
theorem isNameChar_of_isHexNumeralChar (h : isHexNumeralChar c = true) : Text.isNameChar c = true := by
  simp only [isHexNumeralChar, Bool.or_eq_true, beq_iff_eq] at h
  rcases h with ((((h | rfl) | rfl) | rfl) | rfl) | rfl
  · cases hdigit : c.isDigit with
    | true => exact isNameChar_of_isDigit hdigit
    | false =>
      refine isNameChar_of_isAlpha ?_
      have hletter : ('a' ≤ c ∧ c ≤ 'f') ∨ ('A' ≤ c ∧ c ≤ 'F') := by
        by_contra hno
        rw [not_or] at hno
        rw [Text.hexValue?, hdigit, if_neg Bool.false_ne_true, if_neg hno.1, if_neg hno.2] at h
        cases h
      -- The letters of numerals are in the two ranges of letters.
      delta Char.isAlpha Char.isUpper Char.isLower
      simp only [Char.le_def, UInt32.le_iff_toNat_le] at hletter
      simp only [Bool.or_eq_true, Bool.and_eq_true, decide_eq_true_eq, UInt32.le_iff_toNat_le, ge_iff_le]
      simp at hletter ⊢
      omega
  all_goals decide

theorem isHexNumeralChar_of_endsToken (hd : endsToken d = true) : isHexNumeralChar d = false := by
  cases hhex : isHexNumeralChar d with
  | false => rfl
  | true =>
    have hname := isNameChar_of_endsToken hd
    rw [isNameChar_of_isHexNumeralChar hhex] at hname
    cases hname

theorem takeWhile_append_of_neg (hd : p d = false) (ds es : List Char) :
    (ds ++ d :: es).takeWhile p = ds.takeWhile p := by
  induction ds with
  | nil => rw [List.nil_append, List.takeWhile_cons_of_neg (by simp [hd]), List.takeWhile_nil]
  | cons c ds ih =>
    rw [List.cons_append, List.takeWhile_cons, List.takeWhile_cons, ih]

theorem runLength_append_of_neg (hd : p d = false) (ds es : List Char) :
    runLength p (ds ++ d :: es) = runLength p ds :=
  congrArg List.length (takeWhile_append_of_neg hd ds es)

/-- A character that ends tokens brings no other one to a place. -/
theorem head?_drop_append_of_ne (hx : d ≠ x) (hn : n ≤ ds.length) (es : List Char) :
    ((ds ++ d :: es).drop n).head? = some x ↔ (ds.drop n).head? = some x := by
  rw [List.drop_append_of_le_length hn]
  cases ds.drop n with
  | nil => simp [hx]
  | cons c cs => simp

theorem head?_append_of_ne (hx : d ≠ x) (es : List Char) :
    (ds ++ d :: es).head? = some x ↔ ds.head? = some x := by
  have h := head?_drop_append_of_ne hx (Nat.zero_le ds.length) es
  rwa [List.drop_zero, List.drop_zero] at h

/-! ## Quoted text -/

/-- What is read behind the first characters of a quoted text is read there in front of more, too. -/
theorem map_prepend_append {r r' : Option (List UInt8 × Nat)} {front : List UInt8}
    {reading : List UInt8 × Nat} (hr : ∀ {reading}, r = some reading → r' = some reading)
    (h : r.map (Text.prepend front n) = some reading) :
    r'.map (Text.prepend front n) = some reading := by
  obtain ⟨reading', hread, hall⟩ := Option.map_eq_some_iff.mp h
  rw [hr hread, Option.map_some, hall]

/-- Quoted text that is closed is closed in front of more. -/
theorem readQuoted_append {reading : List UInt8 × Nat} (h : Text.readQuoted ds = some reading)
    (es : List Char) : Text.readQuoted (ds ++ es) = some reading := by
  induction ds using Text.readQuoted.induct generalizing reading with
  | case1 => cases h
  | case2 cs =>
    rw [Text.readQuoted] at h
    rw [List.cons_append, Text.readQuoted, h]
  | case3 cs ih =>
    rw [Text.readQuoted] at h
    rw [List.cons_append, List.cons_append, Text.readQuoted]
    exact map_prepend_append ih h
  | case4 a b cs ha byte hbyte ih =>
    rw [Text.readQuoted, hbyte] at h
    · rw [List.cons_append, List.cons_append, List.cons_append, Text.readQuoted, hbyte]
      · exact map_prepend_append ih h
      · exact ha
    · exact ha
  | case5 a b cs ha hbyte ih =>
    rw [Text.readQuoted, hbyte] at h
    · rw [List.cons_append, List.cons_append, List.cons_append, Text.readQuoted, hbyte]
      · exact map_prepend_append ih h
      · exact ha
    · exact ha
  | case6 c cs hquote hdouble hescape ih =>
    by_cases hslash : c = '\\'
    · subst hslash
      rcases cs with _ | ⟨a, _ | ⟨b, cs⟩⟩
      · cases h
      · -- Only a quote can close the text, and no escape starts with one.
        by_cases ha : a = '"'
        · subst ha
          rw [Text.readQuoted_backslash (by decide) fun d _ hd => (by cases hd)] at h
          rw [List.cons_append, List.cons_append, List.nil_append,
            Text.readQuoted_backslash (by decide) fun d _ _ => (escapedByte?_quote d).1]
          exact map_prepend_append (fun h => ih h) h
        · have hwithin : Within true (['\\', a] ++ []) reading.2 := within_readQuoted h
          have hlt := hwithin.lt_of_not_mem (by simp [Ne.symm ha])
          exact absurd hwithin.le (Nat.not_le.mpr hlt)
      · exact absurd rfl (hescape a b cs rfl)
    · rw [Text.readQuoted] at h
      · rw [List.cons_append, Text.readQuoted]
        · exact map_prepend_append ih h
        all_goals first | exact hquote | simp [hslash]
      all_goals first | exact hquote | simp [hslash]

theorem quoted_append {reading : List UInt8 × Nat} (h : quoted ds = .ok reading) (es : List Char) :
    quoted (ds ++ es) = .ok reading := by
  unfold quoted at h ⊢
  split at h
  · next hread =>
    cases h
    rw [readQuoted_append hread]
  · cases h

/-! ## Sigils -/

theorem reference_append {sigil : Char} {id : Ident} (h : reference sigil ds = .ok (id, used))
    (hd : endsToken d = true) (es : List Char) : reference sigil (ds ++ d :: es) = .ok (id, used) := by
  have hdigits := takeWhile_append_of_neg (isDigit_of_endsToken hd) ds es
  refine reference_eq_ok_iff.mpr ?_
  cases reference_eq_ok_iff.mp h with
  | quoted hcs hq hname =>
    subst hcs
    exact .quoted rfl (quoted_append hq _) hname
  | slot hrow hne hn => exact .slot (hdigits.trans hrow) hne hn
  | bare hnone hname hne =>
    have hrow := takeWhile_append_of_neg (isNameChar_of_endsToken hd) ds es
    exact .bare (hdigits.trans hnone) (hrow.trans hname) hne

/-! ## Numerals -/

theorem fractionLength_append (hd : endsToken d = true) (ds es : List Char) :
    fractionLength (ds ++ d :: es) = fractionLength ds := by
  have hnone : ∀ {c : Char}, c ≠ '.' → ∀ cs, fractionLength (c :: cs) = 0 := by
    intro c hc cs
    unfold fractionLength
    split
    · next h => exact absurd (List.cons.inj h).1 hc
    · rfl
  cases ds with
  | nil => exact hnone (ne_of_endsToken hd (by decide)) es
  | cons c ds =>
    by_cases hpoint : c = '.'
    · subst hpoint
      rw [List.cons_append, fractionLength, fractionLength,
        runLength_append_of_neg (isDigit_of_endsToken hd)]
    · rw [List.cons_append, hnone hpoint, hnone hpoint]

theorem exponentDigits_append {sign : Nat} (hd : endsToken d = true) (ds es : List Char) :
    exponentDigits sign (ds ++ d :: es) = exponentDigits sign ds := by
  rw [exponentDigits, exponentDigits, runLength_append_of_neg (isDigit_of_endsToken hd)]

theorem exponentLength_append (hd : endsToken d = true) (ds es : List Char) :
    exponentLength (ds ++ d :: es) = exponentLength ds := by
  cases ds with
  | nil =>
    have hletter : ¬(d = 'e' ∨ d = 'E') :=
      not_or.mpr ⟨ne_of_endsToken hd (by decide), ne_of_endsToken hd (by decide)⟩
    rw [List.nil_append, exponentLength_cons, if_neg hletter]
    rfl
  | cons c ds =>
    rw [List.cons_append, exponentLength_cons, exponentLength_cons]
    cases ds with
    | nil =>
      -- What ends a token is no sign.
      have hplus : d ≠ '+' := ne_of_endsToken hd (by decide)
      have hminus : d ≠ '-' := ne_of_endsToken hd (by decide)
      have hdigits : exponentDigits 0 (d :: es) = exponentDigits 0 [] := exponentDigits_append hd [] es
      simp [hplus, hminus, hdigits]
    | cons s ds =>
      rw [List.cons_append, List.head?_cons, List.head?_cons, List.tail_cons, List.tail_cons,
        exponentDigits_append hd, ← List.cons_append, exponentDigits_append hd]

theorem numeral_append (hd : endsToken d = true) (ds es : List Char) :
    numeral (ds ++ d :: es) = numeral ds := by
  by_cases hhex : ∃ cs, ds = '0' :: 'x' :: cs
  · obtain ⟨cs, rfl⟩ := hhex
    rw [List.cons_append, List.cons_append, numeral, numeral,
      runLength_append_of_neg (isHexNumeralChar_of_endsToken hd)]
  · have hhex' : ∀ cs, ds ++ d :: es ≠ '0' :: 'x' :: cs := by
      intro cs hcs
      rcases ds with _ | ⟨a, _ | ⟨b, ds⟩⟩
      · exact ne_of_endsToken hd (by decide) (List.cons.inj hcs).1
      · exact ne_of_endsToken hd (by decide) (List.cons.inj (List.cons.inj hcs).2).1
      · cases hcs
        exact hhex ⟨ds, rfl⟩
    rw [not_exists] at hhex
    have hdigits : Within false ds (runLength Char.isDigit ds) := continues_isDigit.within ds
    have hfraction := hdigits.add (within_fractionLength (ds.drop (runLength Char.isDigit ds)))
    rw [numeral_of_ne hhex, numeral_of_ne hhex', runLength_append_of_neg (isDigit_of_endsToken hd)]
    dsimp only
    rw [List.drop_append_of_le_length hdigits.le, fractionLength_append hd,
      List.drop_append_of_le_length hfraction.le, exponentLength_append hd]

/-! ## Tokens -/

theorem wordOrLabel_append (hd : endsToken d = true) (c : Char) (hn : n ≤ ds.length) (es : List Char) :
    wordOrLabel c (ds ++ d :: es) n = wordOrLabel c ds n := by
  have hcolon : d ≠ ':' := ne_of_endsToken hd (by decide)
  simp only [wordOrLabel, head?_drop_append_of_ne hcolon hn, List.take_append_of_le_length hn]

theorem isPrefixOf_dots_append (hd : endsToken d = true) (ds es : List Char) :
    ['.', '.'].isPrefixOf (ds ++ d :: es) = ['.', '.'].isPrefixOf ds := by
  have hpoint : d ≠ '.' := ne_of_endsToken hd (by decide)
  rcases ds with _ | ⟨a, _ | ⟨b, ds⟩⟩
  · simp [List.isPrefixOf, hpoint.symm]
  · simp [List.isPrefixOf, hpoint.symm]
  · simp [List.isPrefixOf]

/-- What takes the text in front of what ends a token takes it by itself. -/
theorem Taken.of_append_of_ends {es : List Char} (h : Taken c (ds ++ d :: es)) (hd : endsToken d = true) :
    Taken c ds := by
  rcases h with hp | ⟨hc, hdots⟩ | ⟨hc, hquote⟩ | ⟨hc, hdigit⟩
  · exact .inl hp
  · exact .inr (.inl ⟨hc, isPrefixOf_dots_append hd ds es ▸ hdots⟩)
  · have hne : d ≠ '"' := ne_of_endsToken hd (by decide)
    exact .inr (.inr (.inl ⟨hc, (head?_append_of_ne hne es).mp hquote⟩))
  · refine .inr (.inr (.inr ⟨hc, ?_⟩))
    cases ds with
    | nil => exact absurd ((isDigit_of_endsToken hd).symm.trans hdigit) Bool.false_ne_true
    | cons a ds => exact hdigit

/-- A branch that takes the text takes it in front of what ends a token. -/
theorem Lexes.append_of_ends (h : Lexes c ds kind used) (hd : endsToken d = true) (es : List Char) :
    Lexes c (ds ++ d :: es) kind used := by
  have hcolon : d ≠ ':' := ne_of_endsToken hd (by decide)
  have hname : Text.isNameChar d = false := isNameChar_of_endsToken hd
  have hmetadata : (ds ++ d :: es).takeWhile (fun a => Text.isNameChar a || a == '\\')
      = ds.takeWhile fun a => Text.isNameChar a || a == '\\' := by
    refine takeWhile_append_of_neg ?_ ds es
    rw [hname, Bool.false_or, beq_eq_false_iff_ne]
    exact ne_of_endsToken hd (by decide)
  -- Each branch stops inside of `ds` or at its end. It would go on or turn out differently only in front
  -- of a character of a name or a number, or of a colon, and `d` is none of them.
  cases h with
  | punctuation hp => exact .punctuation hp
  | ellipsis hc hdots => exact .ellipsis hc (isPrefixOf_append hdots)
  | localRef hc hr => exact .localRef hc (reference_append hr hd es)
  | globalRef hc hr => exact .globalRef hc (reference_append hr hd es)
  | bang hc hrow => exact .bang hc (hmetadata.trans hrow)
  | metadata hc hrow hne => exact .metadata hc (hmetadata.trans hrow) hne
  | hash hc hrow => exact .hash hc ((takeWhile_append_of_neg hname ds es).trans hrow)
  | quotedLabel hc hq hat hn =>
    exact .quotedLabel hc (quoted_append hq _)
      ((head?_drop_append_of_ne hcolon (within_quoted hq).le es).mpr hat) hn
  | string hc hq hat =>
    exact .string hc (quoted_append hq _)
      (mt (head?_drop_append_of_ne hcolon (within_quoted hq).le es).mp hat)
  | chars hc hcs hq =>
    subst hcs
    exact .chars hc rfl (quoted_append hq _)
  | @negative isFloat used hc hn hdigit =>
    have hle : used ≤ ds.length := by
      have hwithin := (within_numeral ds).le
      rwa [hn] at hwithin
    have htake : (ds ++ d :: es).take used = ds.take used := List.take_append_of_le_length hle
    rw [← htake]
    refine .negative hc ((numeral_append hd ds es).trans hn) ?_
    cases ds with
    | nil => cases hdigit
    | cons a ds => exact hdigit
  | numberedLabel hc hrun hat =>
    subst hrun
    have hle : runLength Char.isDigit ds ≤ ds.length := (continues_isDigit.within ds).le
    have htake : (ds ++ d :: es).take (runLength Char.isDigit ds) = ds.take (runLength Char.isDigit ds) :=
      List.take_append_of_le_length hle
    rw [← htake]
    exact .numberedLabel hc (runLength_append_of_neg (isDigit_of_endsToken hd) ds es)
      ((head?_drop_append_of_ne hcolon hle es).mpr hat)
  | @numeral isFloat used hc hn hat =>
    have hle : used ≤ (c :: ds).length := by
      have hwithin := (within_numeral (c :: ds)).le
      rwa [hn] at hwithin
    have hrun : runLength Char.isDigit ds ≤ ds.length := (continues_isDigit.within ds).le
    have htake : (c :: (ds ++ d :: es)).take used = (c :: ds).take used :=
      List.take_append_of_le_length hle
    rw [← htake]
    refine .numeral hc ((numeral_append hd (c :: ds) es).trans hn) ?_
    rw [runLength_append_of_neg (isDigit_of_endsToken hd)]
    exact mt (head?_drop_append_of_ne hcolon hrun es).mp hat
  | word hc hdigit hword =>
    have hle : runLength Text.isNameChar ds ≤ ds.length := (continues_isNameChar.within ds).le
    refine .word hc hdigit ?_
    rw [runLength_append_of_neg hname, wordOrLabel_append hd c hle]
    exact hword
  | other hc hfirst => exact .other hc hfirst

/-- **A token is the same in front of what ends it.** -/
theorem lexeme_append_of_ends (h : lexeme c ds = .ok (kind, used)) (hd : endsToken d = true)
    (es : List Char) : lexeme c (ds ++ d :: es) = .ok (kind, used) := by
  obtain ⟨hlexes, hlast⟩ := lexeme_eq_ok_iff.mp h
  exact lexeme_eq_ok_iff.mpr ⟨hlexes.append_of_ends hd es, fun hkind htaken =>
    hlast hkind (htaken.of_append_of_ends hd)⟩

end IrRecords.Token
