import IrRecords.Proofs.Token.Branches
import IrRecords.Proofs.Token.Lexemes

/-!
# How far a token can reach

A blank, a line break and the sign of a comment end whatever is in front of them, unless they stand
between quotes. So the text falls into stretches, and a token looks at no character behind its own
stretch: what `lexeme` answers depends on the stretch alone (`lexeme_stretch`), and the token ends in
it, with all quotes closed (`within_lexeme`). Two texts that differ in what separates their stretches
are therefore cut into the same tokens.

Whether quotes are open is a matter of counting them. Nothing can stand in front of a quote that
takes its meaning away, inside of quoted text or outside.
-/

namespace IrRecords.Token

/-- Whether a character starts or continues a gap, outside of quotes. -/
def isBreak (c : Char) : Bool := c == '\n' || c == ';' || c == ' ' || c == '\t' || c == '\r'

/-- The text up to the first break outside of quotes; `inside` tells whether quotes are open in
front of it. -/
def stretch (inside : Bool) : List Char → List Char
  | [] => []
  | c :: cs => if !inside && isBreak c then [] else c :: stretch (inside ^^ (c == '"')) cs

/-- Whether quotes are open behind the text `cs`. -/
def quotesAfter (inside : Bool) (cs : List Char) : Bool :=
  cs.foldl (fun inside c => inside ^^ (c == '"')) inside

/-- The first `n` characters of a text are in its stretch, and quotes are closed behind them. -/
inductive Within : Bool → List Char → Nat → Prop
  | zero {cs : List Char} : Within false cs 0
  | succ {inside : Bool} {c : Char} {cs : List Char} {n : Nat}
      (hc : inside = true ∨ isBreak c = false) (h : Within (inside ^^ (c == '"')) cs n) :
      Within inside (c :: cs) (n + 1)

variable {p : Char → Bool} {inside isFloat : Bool} {c d : Char} {cs : List Char} {n m used : Nat}
  {kind : TokenKind}

/-! ## Stretches -/

theorem stretch_cons (hc : inside = true ∨ isBreak c = false) (cs : List Char) :
    stretch inside (c :: cs) = c :: stretch (inside ^^ (c == '"')) cs := by
  rw [stretch, if_neg]
  rcases hc with rfl | hc
  · simp
  · simp [hc]

theorem stretch_break (hc : isBreak c = true) (cs : List Char) : stretch false (c :: cs) = [] := by
  rw [stretch, hc]
  rfl

/-- The characters of a stretch are those of the text. -/
theorem Within.take_stretch (h : Within inside cs n) : (stretch inside cs).take n = cs.take n := by
  induction h with
  | zero => simp
  | succ hc _ ih => rw [stretch_cons hc, List.take_succ_cons, List.take_succ_cons, ih]

/-- Behind characters of a stretch the rest of it is left. -/
theorem Within.drop_stretch (h : Within inside cs n) :
    (stretch inside cs).drop n = stretch false (cs.drop n) := by
  induction h with
  | zero => rfl
  | succ hc _ ih => rw [stretch_cons hc, List.drop_succ_cons, List.drop_succ_cons, ih]

theorem Within.le (h : Within inside cs n) : n ≤ cs.length := by
  induction h with
  | zero => exact Nat.zero_le _
  | succ _ _ ih => exact Nat.succ_le_succ ih

theorem Within.quotesAfter (h : Within inside cs n) :
    Token.quotesAfter inside (cs.take n) = false := by
  induction h with
  | zero => rfl
  | succ _ _ ih => rw [List.take_succ_cons, Token.quotesAfter, List.foldl_cons]; exact ih

theorem Within.add (h : Within inside cs n) (h' : Within false (cs.drop n) m) :
    Within inside cs (n + m) := by
  induction h with
  | zero => rwa [Nat.zero_add]
  | succ hc _ ih => rw [Nat.succ_add_eq_add_succ, Nat.add_succ]; exact .succ hc (ih h')

/-- One more character, which is neither a break nor a quote. -/
theorem Within.cons (hc : isBreak c = false) (hquote : c ≠ '"') (h : Within false cs n) :
    Within false (c :: cs) (n + 1) := by
  refine .succ (.inr hc) ?_
  rwa [beq_eq_false_iff_ne.mpr hquote]

/-- What a character is at the start of a stretch, it is at the start of the text. -/
theorem head?_stretch (hd : isBreak d = false) :
    (stretch false cs).head? = some d ↔ cs.head? = some d := by
  cases cs with
  | nil => rfl
  | cons c cs =>
    cases hc : isBreak c with
    | true =>
      rw [stretch_break hc]
      simp only [List.head?_nil, List.head?_cons, Option.some.injEq, reduceCtorEq, false_iff]
      rintro rfl
      rw [hd] at hc
      cases hc
    | false => rw [stretch_cons (.inr hc), List.head?_cons, List.head?_cons]

theorem exists_cons_of_stretch {ds : List Char} (hd : isBreak d = false)
    (h : stretch false cs = d :: ds) : ∃ cs', cs = d :: cs' := by
  have hhead : cs.head? = some d := by rw [← head?_stretch hd, h, List.head?_cons]
  exact ⟨_, (List.head?_eq_some_iff.mp hhead).choose_spec⟩

/-! ## Runs of characters -/

/-- The test is passed by characters of stretches only, quotes aside. -/
def Continues (p : Char → Bool) : Prop := ∀ c, p c = true → isBreak c = false ∧ c ≠ '"'

theorem Continues.takeWhile_stretch (hp : Continues p) (cs : List Char) :
    (stretch false cs).takeWhile p = cs.takeWhile p := by
  induction cs with
  | nil => rfl
  | cons c cs ih =>
    cases hpc : p c with
    | true =>
      obtain ⟨hc, hquote⟩ := hp c hpc
      rw [stretch_cons (.inr hc), beq_eq_false_iff_ne.mpr hquote,
        List.takeWhile_cons_of_pos hpc, List.takeWhile_cons_of_pos hpc]
      exact congrArg (c :: ·) ih
    | false =>
      rw [List.takeWhile_cons_of_neg (by simp [hpc])]
      cases hc : isBreak c with
      | true => rw [stretch_break hc]; rfl
      | false => rw [stretch_cons (.inr hc), List.takeWhile_cons_of_neg (by simp [hpc])]

/-- A run of such characters is in the stretch. -/
theorem Continues.within (hp : Continues p) (cs : List Char) :
    Within false cs (cs.takeWhile p).length := by
  induction cs with
  | nil => exact .zero
  | cons c cs ih =>
    cases hpc : p c with
    | true =>
      rw [List.takeWhile_cons_of_pos hpc, List.length_cons]
      exact .cons (hp c hpc).1 (hp c hpc).2 ih
    | false =>
      rw [List.takeWhile_cons_of_neg (by simp [hpc])]
      exact .zero

theorem Continues.within_of_runLength (hp : Continues p) (h : runLength p cs = n) :
    Within false cs n := by
  rw [← h]
  exact hp.within cs

/-- A test is passed by no break and by no quote if it fails on the six of them. -/
theorem continues_of_not (hp : ['\n', ';', ' ', '\t', '\r', '"'].all (fun c => !p c) = true) :
    Continues p := by
  intro c hpc
  have hne : ∀ d ∈ ['\n', ';', ' ', '\t', '\r', '"'], c ≠ d := by
    rintro d hd rfl
    have hnot := List.all_eq_true.mp hp c hd
    rw [hpc] at hnot
    cases hnot
  simp only [List.forall_mem_cons] at hne
  obtain ⟨hnewline, hcomment, hspace, htab, hreturn, hquote, -⟩ := hne
  exact ⟨by simp [isBreak, hnewline, hcomment, hspace, htab, hreturn], hquote⟩

theorem continues_isNameChar : Continues Text.isNameChar := continues_of_not rfl

theorem continues_isDigit : Continues Char.isDigit := continues_of_not rfl

theorem continues_isHexNumeralChar : Continues isHexNumeralChar := continues_of_not rfl

theorem continues_metadata : Continues fun d => Text.isNameChar d || d == '\\' :=
  continues_of_not rfl

/-! ## Quoted text -/

theorem stretch_quoted (cs : List Char) :
    stretch true (c :: cs) = c :: stretch (true ^^ (c == '"')) cs := stretch_cons (.inl rfl) cs

theorem stretch_quoted_of_ne (hc : c ≠ '"') (cs : List Char) :
    stretch true (c :: cs) = c :: stretch true cs := by
  rw [stretch_quoted, beq_eq_false_iff_ne.mpr hc]
  rfl

/-- A quote is no part of an escape. -/
theorem escapedByte?_quote (c : Char) :
    Text.escapedByte? '"' c = none ∧ Text.escapedByte? c '"' = none := by
  refine ⟨?_, rfl⟩
  unfold Text.escapedByte?
  cases Text.hexValue? c <;> rfl

theorem ne_quote_of_escapedByte? {byte : UInt8} (h : Text.escapedByte? c d = some byte) :
    c ≠ '"' ∧ d ≠ '"' := by
  constructor
  · rintro rfl
    rw [(escapedByte?_quote d).1] at h
    cases h
  · rintro rfl
    rw [(escapedByte?_quote c).2] at h
    cases h

/-- Quoted text goes on to its closing quote, whatever it contains. -/
theorem readQuoted_stretch (cs : List Char) :
    Text.readQuoted (stretch true cs) = Text.readQuoted cs := by
  -- The end of the text, the closing quote, a doubled backslash, an escape, a backslash that starts none,
  -- and any other character.
  induction cs using Text.readQuoted.induct with
  | case1 => rfl
  | case2 cs => rw [stretch_quoted, Text.readQuoted, Text.readQuoted]
  | case3 cs ih =>
    rw [stretch_quoted_of_ne (by decide), stretch_quoted_of_ne (by decide), Text.readQuoted,
      Text.readQuoted, ih]
  | case4 a b cs ha byte hbyte ih =>
    obtain ⟨hfirst, hsecond⟩ := ne_quote_of_escapedByte? hbyte
    rw [stretch_quoted_of_ne (by decide), stretch_quoted_of_ne hfirst, stretch_quoted_of_ne hsecond,
      Text.readQuoted, Text.readQuoted, hbyte, ih]
    all_goals exact ha
  | case5 a b cs ha hbyte ih =>
    rw [stretch_quoted_of_ne (by decide), Text.readQuoted, hbyte]
    · rw [stretch_quoted] at ih ⊢
      rw [Text.readQuoted_backslash ha, ih]
      -- Behind a quote the stretch may end, and otherwise it goes on as the text does.
      intro d ds hd
      by_cases hquote : a = '"'
      · rw [hquote]
        exact (escapedByte?_quote d).1
      · have hgoes : d = b := by
          rw [beq_eq_false_iff_ne.mpr hquote, Bool.xor_false, stretch_quoted] at hd
          exact (List.cons.inj hd).1.symm
        rw [hgoes, hbyte]
    · exact ha
  | case6 c cs hquote hdouble hescape ih =>
    rw [stretch_quoted_of_ne hquote]
    by_cases hslash : c = '\\'
    · -- There is no room for an escape, so the text is at its end.
      rcases cs with _ | ⟨a, _ | ⟨b, cs⟩⟩
      · rfl
      · rfl
      · exact absurd rfl (hescape a b cs hslash)
    · rw [Text.readQuoted, Text.readQuoted, ih]
      all_goals first | exact hquote | simp [hslash]

/-- One more character between quotes. -/
theorem Within.quoted_cons (hc : c ≠ '"') (h : Within true cs n) : Within true (c :: cs) (n + 1) := by
  refine .succ (.inl rfl) ?_
  rwa [beq_eq_false_iff_ne.mpr hc]

/-- What is read behind the first characters of a quoted text is a reading of the rest. -/
theorem exists_of_prepend {r : Option (List UInt8 × Nat)} {front bytes : List UInt8}
    (h : r.map (Text.prepend front n) = some (bytes, used)) :
    ∃ bytes' used', r = some (bytes', used') ∧ used = used' + n := by
  obtain ⟨⟨bytes', used'⟩, hr, hall⟩ := Option.map_eq_some_iff.mp h
  rw [Text.prepend, Prod.mk.injEq] at hall
  exact ⟨bytes', used', hr, by rw [← hall.2, Nat.add_comm]⟩

/-- Quoted text is in its stretch, and so is its closing quote. -/
theorem within_readQuoted {bytes : List UInt8} (h : Text.readQuoted cs = some (bytes, used)) :
    Within true cs used := by
  induction cs using Text.readQuoted.induct generalizing bytes used with
  | case1 => cases h
  | case2 cs =>
    rw [Text.readQuoted, Option.some.injEq, Prod.mk.injEq] at h
    rw [← h.2]
    exact .succ (.inl rfl) .zero
  | case3 cs ih =>
    rw [Text.readQuoted] at h
    obtain ⟨bytes', used', h', rfl⟩ := exists_of_prepend h
    exact .quoted_cons (by decide) (.quoted_cons (by decide) (ih h'))
  | case4 a b cs ha byte hbyte ih =>
    rw [Text.readQuoted, hbyte] at h
    · obtain ⟨bytes', used', h', rfl⟩ := exists_of_prepend h
      obtain ⟨hfirst, hsecond⟩ := ne_quote_of_escapedByte? hbyte
      exact .quoted_cons (by decide) (.quoted_cons hfirst (.quoted_cons hsecond (ih h')))
    · exact ha
  | case5 a b cs ha hbyte ih =>
    rw [Text.readQuoted, hbyte] at h
    · obtain ⟨bytes', used', h', rfl⟩ := exists_of_prepend h
      exact .quoted_cons (by decide) (ih h')
    · exact ha
  | case6 c cs hquote hdouble hescape ih =>
    rw [Text.readQuoted] at h
    · obtain ⟨bytes', used', h', rfl⟩ := exists_of_prepend h
      exact .quoted_cons hquote (ih h')
    · exact hquote
    · exact hdouble
    · exact hescape

theorem quoted_stretch (cs : List Char) : quoted (stretch true cs) = quoted cs := by
  rw [quoted, quoted, readQuoted_stretch]

theorem within_quoted {bytes : List UInt8} (h : quoted cs = .ok (bytes, used)) :
    Within true cs used := by
  unfold quoted at h
  split at h
  · next hread =>
    cases h
    exact within_readQuoted hread
  · cases h

/-! ## Sigils -/

theorem reference_stretch (sigil : Char) (cs : List Char) :
    reference sigil (stretch false cs) = reference sigil cs := by
  cases cs with
  | nil => rfl
  | cons c cs =>
    cases hc : isBreak c with
    | true =>
      -- No name begins with a break.
      have hquote : c ≠ '"' := by rintro rfl; cases hc
      have hname : Text.isNameChar c = false := by
        cases hname : Text.isNameChar c with
        | false => rfl
        | true => rw [(continues_isNameChar c hname).1] at hc; cases hc
      have hdigit : c.isDigit = false := by
        cases hdigit : c.isDigit with
        | false => rfl
        | true => rw [(continues_isDigit c hdigit).1] at hc; cases hc
      rw [stretch_break hc, reference_of_ne hquote, hdigit, hname]
      rfl
    | false =>
      have hrow : stretch false (c :: cs) = c :: stretch (false ^^ (c == '"')) cs :=
        stretch_cons (.inr hc) cs
      by_cases hquote : c = '"'
      · subst hquote
        rw [hrow, reference_quote, reference_quote]
        exact congrArg (· >>= _) (quoted_stretch cs)
      · have hdigits := continues_isDigit.takeWhile_stretch (c :: cs)
        have hname := continues_isNameChar.takeWhile_stretch (c :: cs)
        rw [hrow] at hdigits hname ⊢
        rw [reference_of_ne hquote, reference_of_ne hquote, hdigits, hname]

theorem within_reference {sigil : Char} {id : Ident}
    (h : reference sigil cs = .ok (id, used)) : Within false cs used := by
  cases reference_eq_ok_iff.mp h with
  | quoted hcs hq _ =>
    subst hcs
    exact .succ (.inr (by decide)) (within_quoted hq)
  | slot hdigits _ _ =>
    subst hdigits
    exact continues_isDigit.within cs
  | bare _ hname _ =>
    subst hname
    exact continues_isNameChar.within cs

/-! ## Numerals -/

theorem runLength_stretch (hp : Continues p) (cs : List Char) :
    runLength p (stretch false cs) = runLength p cs := by
  rw [runLength, hp.takeWhile_stretch, runLength]

theorem fractionLength_stretch (cs : List Char) :
    fractionLength (stretch false cs) = fractionLength cs := by
  cases cs with
  | nil => rfl
  | cons c cs =>
    by_cases hpoint : c = '.'
    · subst hpoint
      have hrow : stretch false ('.' :: cs) = '.' :: stretch false cs := rfl
      rw [hrow, fractionLength, fractionLength, runLength_stretch continues_isDigit]
    · have hnone : ∀ ds, fractionLength (c :: ds) = 0 := fun ds => by
        unfold fractionLength
        split
        · next h => exact absurd (List.cons.inj h).1 hpoint
        · rfl
      rw [hnone, stretch]
      split
      · rfl
      · exact hnone _

theorem exponentDigits_stretch (sign : Nat) (cs : List Char) :
    exponentDigits sign (stretch false cs) = exponentDigits sign cs := by
  rw [exponentDigits, exponentDigits, runLength_stretch continues_isDigit]

/-- An exponent, told by what stands behind its letter. -/
theorem exponentLength_cons (c : Char) (cs : List Char) : exponentLength (c :: cs) =
    if c = 'e' ∨ c = 'E' then
      if cs.head? = some '+' ∨ cs.head? = some '-' then exponentDigits 1 cs.tail
      else exponentDigits 0 cs
    else 0 := by
  cases cs with
  | nil => simp [exponentLength, exponentDigits, runLength]
  | cons d cs => simp [exponentLength]

theorem exponentLength_stretch (cs : List Char) :
    exponentLength (stretch false cs) = exponentLength cs := by
  cases cs with
  | nil => rfl
  | cons c cs =>
    by_cases hletter : c = 'e' ∨ c = 'E'
    · have hrow : stretch false (c :: cs) = c :: stretch false cs := by
        rcases hletter with rfl | rfl <;> rfl
      rw [hrow, exponentLength_cons, exponentLength_cons, if_pos hletter, if_pos hletter]
      simp only [head?_stretch (show isBreak '+' = false from rfl),
        head?_stretch (show isBreak '-' = false from rfl), exponentDigits_stretch]
      by_cases hsign : cs.head? = some '+' ∨ cs.head? = some '-'
      · rw [if_pos hsign, if_pos hsign]
        -- A sign is no break, so the stretch goes on behind it.
        obtain ⟨d, ds, rfl, hrest⟩ : ∃ d ds, cs = d :: ds
            ∧ stretch false (d :: ds) = d :: stretch false ds := by
          cases cs with
          | nil => simp at hsign
          | cons d ds =>
            simp only [List.head?_cons, Option.some.injEq] at hsign
            rcases hsign with rfl | rfl <;> exact ⟨_, ds, rfl, rfl⟩
        rw [hrest]
        exact exponentDigits_stretch 1 ds
      · rw [if_neg hsign, if_neg hsign]
    · have hnone : ∀ ds, exponentLength (c :: ds) = 0 := fun ds => by
        rw [exponentLength_cons, if_neg hletter]
      rw [hnone, stretch]
      split
      · rfl
      · exact hnone _

/-- A numeral without the mark of a hexadecimal one. -/
theorem numeral_of_ne (h : ∀ ds, cs ≠ '0' :: 'x' :: ds) : numeral cs =
    let digits := runLength Char.isDigit cs
    let fraction := fractionLength (cs.drop digits)
    let exponent := exponentLength (cs.drop (digits + fraction))
    (fraction + exponent != 0, digits + fraction + exponent) := by
  unfold numeral
  split
  · exact absurd rfl (h _)
  · rfl

theorem within_fractionLength (cs : List Char) : Within false cs (fractionLength cs) := by
  unfold fractionLength
  split
  · next cs =>
    split
    · exact .zero
    · next hrun =>
      exact .cons (by decide) (by decide) (continues_isDigit.within_of_runLength hrun)
  · exact .zero

theorem within_exponentDigits (front : List Char)
    (hfront : ∀ n, Within false cs n → Within false (front ++ cs) (n + front.length)) (c : Char)
    (hc : isBreak c = false) (hquote : c ≠ '"') :
    Within false (c :: (front ++ cs)) (exponentDigits front.length cs) := by
  unfold exponentDigits
  split
  · exact .zero
  · next hrun =>
    exact .cons hc hquote (hfront _ (continues_isDigit.within_of_runLength hrun))

theorem within_exponentLength (cs : List Char) : Within false cs (exponentLength cs) := by
  cases cs with
  | nil => exact .zero
  | cons c cs =>
    rw [exponentLength_cons]
    split
    · next hletter =>
      have hc : isBreak c = false ∧ c ≠ '"' := by
        rcases hletter with rfl | rfl <;> exact ⟨by decide, by decide⟩
      split
      · next hsign =>
        cases cs with
        | nil => simp at hsign
        | cons d ds =>
          refine within_exponentDigits [d] (fun n hn => ?_) c hc.1 hc.2
          simp only [List.head?_cons, Option.some.injEq] at hsign
          rcases hsign with rfl | rfl <;> exact .cons (by decide) (by decide) hn
      · exact within_exponentDigits [] (fun n hn => hn) c hc.1 hc.2
    · exact .zero

theorem within_numeral (cs : List Char) : Within false cs (numeral cs).2 := by
  by_cases hhex : ∃ ds, cs = '0' :: 'x' :: ds
  · obtain ⟨ds, rfl⟩ := hhex
    exact .cons (by decide) (by decide)
      (.cons (by decide) (by decide) (continues_isHexNumeralChar.within ds))
  · rw [not_exists] at hhex
    rw [numeral_of_ne hhex]
    have hdigits := continues_isDigit.within cs
    have hfraction := hdigits.add (within_fractionLength _)
    exact hfraction.add (within_exponentLength _)

theorem numeral_stretch (cs : List Char) : numeral (stretch false cs) = numeral cs := by
  by_cases hhex : ∃ ds, cs = '0' :: 'x' :: ds
  · obtain ⟨ds, rfl⟩ := hhex
    have hrow : stretch false ('0' :: 'x' :: ds) = '0' :: 'x' :: stretch false ds := rfl
    rw [hrow, numeral, numeral, runLength_stretch continues_isHexNumeralChar]
  · rw [not_exists] at hhex
    have hhex' : ∀ ds, stretch false cs ≠ '0' :: 'x' :: ds := by
      intro ds hds
      -- What a stretch begins with, its text begins with.
      obtain ⟨cs', rfl⟩ := exists_cons_of_stretch (show isBreak '0' = false from rfl) hds
      obtain ⟨cs'', rfl⟩ := exists_cons_of_stretch (show isBreak 'x' = false from rfl)
        (List.cons.inj hds).2
      exact hhex cs'' rfl
    have hdigits := continues_isDigit.within cs
    have hfraction := hdigits.add (within_fractionLength (cs.drop (runLength Char.isDigit cs)))
    rw [numeral_of_ne hhex, numeral_of_ne hhex']
    simp only [runLength_stretch continues_isDigit]
    rw [show runLength Char.isDigit cs = (cs.takeWhile Char.isDigit).length from rfl] at *
    rw [hdigits.drop_stretch, fractionLength_stretch, hfraction.drop_stretch,
      exponentLength_stretch]

/-! ## Tokens -/

/-- A colon behind characters of a stretch is in the stretch. -/
theorem Within.head?_drop_stretch (h : Within inside cs n) :
    ((stretch inside cs).drop n).head? = some ':' ↔ (cs.drop n).head? = some ':' := by
  rw [h.drop_stretch, head?_stretch (by decide)]

theorem Within.colon (h : Within inside cs n) (hcolon : (cs.drop n).head? = some ':') :
    Within inside cs (n + 1) := by
  refine h.add ?_
  obtain ⟨ds, hds⟩ := List.head?_eq_some_iff.mp hcolon
  rw [hds]
  exact .cons (by decide) (by decide) .zero

theorem Within.behind (h : Within false (c :: cs) n) (hc : c ≠ '"') :
    Within false cs (n - 1) := by
  cases h with
  | zero => exact .zero
  | succ _ h => rwa [beq_eq_false_iff_ne.mpr hc] at h

theorem within_wordOrLabel (h : Within false cs used) :
    Within false cs (wordOrLabel c cs used).2 := by
  unfold wordOrLabel
  dsimp only
  split
  · next hcolon => exact h.colon hcolon
  · exact h

theorem wordOrLabel_stretch (c : Char) (h : Within false cs used) :
    wordOrLabel c (stretch false cs) used = wordOrLabel c cs used := by
  simp only [wordOrLabel, h.take_stretch, h.head?_drop_stretch]

/-- Characters that are neither breaks nor quotes are in front of a text if they are in front of its
stretch. -/
theorem isPrefixOf_stretch {ds : List Char} (hds : ∀ d ∈ ds, isBreak d = false ∧ d ≠ '"')
    (cs : List Char) : ds.isPrefixOf (stretch false cs) = ds.isPrefixOf cs := by
  induction ds generalizing cs with
  | nil => rfl
  | cons d ds ih =>
    obtain ⟨⟨hd, hquote⟩, hds⟩ := List.forall_mem_cons.mp hds
    cases cs with
    | nil => rfl
    | cons c cs =>
      by_cases hcd : d = c
      · subst hcd
        rw [stretch_cons (.inr hd), beq_eq_false_iff_ne.mpr hquote]
        simp only [List.isPrefixOf, BEq.rfl, Bool.true_and]
        exact ih hds cs
      · have hnot : ∀ es, (d :: ds).isPrefixOf (c :: es) = false := fun es => by
          simp [List.isPrefixOf, hcd]
        rw [hnot, stretch]
        split
        · rfl
        · exact hnot _

/-- The stretch has a digit in front if the text does. -/
theorem digitAhead_stretch (cs : List Char) :
    ((stretch false cs).head?.map Char.isDigit).getD false
      = (cs.head?.map Char.isDigit).getD false := by
  cases cs with
  | nil => rfl
  | cons c cs =>
    cases hc : isBreak c with
    | false => rw [stretch_cons (.inr hc), List.head?_cons, List.head?_cons]
    | true =>
      rw [stretch_break hc]
      cases hdigit : c.isDigit with
      | false => simp [hdigit]
      | true => rw [(continues_isDigit c hdigit).1] at hc; cases hc

/-- Of three points, the two behind the first one are in the stretch. -/
theorem isPrefixOf_dots_stretch (cs : List Char) :
    ['.', '.'].isPrefixOf (stretch false cs) = ['.', '.'].isPrefixOf cs := by
  refine isPrefixOf_stretch ?_ cs
  simp only [List.forall_mem_cons]
  exact ⟨⟨rfl, by decide⟩, ⟨rfl, by decide⟩, nofun⟩

theorem taken_stretch (c : Char) (cs : List Char) : Taken c (stretch false cs) ↔ Taken c cs := by
  rw [Taken, isPrefixOf_dots_stretch, head?_stretch (show isBreak '"' = false from rfl),
    digitAhead_stretch, Taken]

/-- What one of the first branches takes looks at nothing behind its stretch. -/
theorem lexeme_stretch_of_taken (h : Taken c cs) : lexeme c (stretch false cs) = lexeme c cs := by
  rcases h with hp | ⟨rfl, hdots⟩ | ⟨rfl, hquote⟩ | ⟨rfl, hdigit⟩
  · obtain ⟨kind, hp⟩ := Option.isSome_iff_exists.mp hp
    rw [lexeme_of_punctuation hp, lexeme_of_punctuation hp]
  · rw [lexeme_dots hdots, lexeme_dots ((isPrefixOf_dots_stretch cs).trans hdots)]
  · obtain ⟨ds, rfl⟩ := List.head?_eq_some_iff.mp hquote
    have hrow : stretch false ('"' :: ds) = '"' :: stretch true ds := rfl
    rw [hrow, lexeme_chars, lexeme_chars, quoted_stretch]
  · rw [lexeme_dash hdigit, lexeme_dash ((digitAhead_stretch cs).trans hdigit), numeral_stretch,
      (within_numeral cs).take_stretch]

/-- So does what begins with a character that no name has. -/
theorem lexeme_stretch_of_sign (hc : c ∈ ['%', '@', '!', '#', '"']) (cs : List Char) :
    lexeme c (stretch (c == '"') cs) = lexeme c cs := by
  simp only [List.mem_cons, List.not_mem_nil, or_false] at hc
  rcases hc with rfl | rfl | rfl | rfl | rfl
  · rw [lexeme_percent, lexeme_percent]
    exact congrArg _ (reference_stretch _ cs)
  · rw [lexeme_at, lexeme_at]
    exact congrArg _ (reference_stretch _ cs)
  · have hname := continues_metadata.takeWhile_stretch cs
    rw [lexeme_exclamation, lexeme_exclamation, ← hname]
    rfl
  · have hname := continues_isNameChar.takeWhile_stretch cs
    rw [lexeme_hash, lexeme_hash, ← hname]
    rfl
  · have hrow : stretch ('"' == '"') cs = stretch true cs := rfl
    rw [hrow, lexeme_quote, lexeme_quote, quoted_stretch]
    cases hq : quoted cs with
    | error fault => rfl
    | ok r =>
      have hcolon := (within_quoted hq).head?_drop_stretch
      simp only [Bind.bind, Except.bind, hcolon]

theorem lexeme_stretch_of_isDigit (hc : c.isDigit = true) (cs : List Char) :
    lexeme c (stretch false cs) = lexeme c cs := by
  have hrun : Within false cs (runLength Char.isDigit cs) := continues_isDigit.within cs
  -- The digit itself begins the stretch of a numeral.
  have hrow : c :: stretch false cs = stretch false (c :: cs) := by
    have hquote : (c == '"') = false := beq_eq_false_iff_ne.mpr (ne_of_isDigit hc (by decide))
    rw [stretch_cons (.inr (continues_isDigit c hc).1), hquote]
    rfl
  rw [lexeme_of_isDigit hc, lexeme_of_isDigit hc, hrow, numeral_stretch,
    runLength_stretch continues_isDigit]
  simp only [hrun.head?_drop_stretch, hrun.take_stretch, (within_numeral (c :: cs)).take_stretch]

/-- **A token looks at nothing behind its stretch.** -/
theorem lexeme_stretch (c : Char) (cs : List Char) :
    lexeme c (stretch (c == '"') cs) = lexeme c cs := by
  by_cases hsign : c ∈ ['%', '@', '!', '#', '"']
  · exact lexeme_stretch_of_sign hsign cs
  have hquote : (c == '"') = false := beq_eq_false_iff_ne.mpr fun hc => hsign (by simp [hc])
  rw [hquote]
  by_cases htaken : Taken c cs
  · exact lexeme_stretch_of_taken htaken
  have htaken' : ¬Taken c (stretch false cs) := mt (taken_stretch c cs).mp htaken
  by_cases hdigit : c.isDigit = true
  · exact lexeme_stretch_of_isDigit hdigit cs
  rw [Bool.not_eq_true] at hdigit
  cases hname : Text.isNameChar c with
  | true =>
    have hrun : Within false cs (runLength Text.isNameChar cs) := continues_isNameChar.within cs
    rw [lexeme_of_word hname hdigit htaken, lexeme_of_word hname hdigit htaken',
      runLength_stretch continues_isNameChar, wordOrLabel_stretch c hrun]
  | false => rw [lexeme_of_other hname hsign htaken, lexeme_of_other hname hsign htaken']

/-- **A token ends in its stretch**, and quotes are closed behind it. -/
theorem within_lexeme (h : lexeme c cs = .ok (kind, used)) : Within (c == '"') cs used := by
  -- Only where the token begins with a quote does its stretch begin inside of quotes.
  have hunquoted : c ≠ '"' → (c == '"') = false := beq_eq_false_iff_ne.mpr
  cases lexes_of_lexeme h with
  | punctuation hp =>
    rw [hunquoted (by rintro rfl; cases hp)]
    exact .zero
  | ellipsis hc hdots =>
    subst hc
    obtain ⟨ds, rfl⟩ := List.isPrefixOf_iff_prefix.mp hdots
    exact .cons (by decide) (by decide) (.cons (by decide) (by decide) .zero)
  | localRef hc hr =>
    subst hc
    exact within_reference hr
  | globalRef hc hr =>
    subst hc
    exact within_reference hr
  | bang hc _ =>
    subst hc
    exact .zero
  | metadata hc hname _ =>
    subst hc hname
    exact continues_metadata.within cs
  | hash hc hname =>
    subst hc hname
    exact continues_isNameChar.within cs
  | quotedLabel hc hq hcolon _ =>
    subst hc
    have hwithin : Within ('"' == '"') cs _ := within_quoted hq
    exact hwithin.colon hcolon
  | string hc hq _ =>
    subst hc
    exact within_quoted hq
  | chars hc hcs hq =>
    subst hc hcs
    exact .succ (.inr (by decide)) (within_quoted hq)
  | negative hc hn _ =>
    subst hc
    have hwithin := within_numeral cs
    rwa [hn] at hwithin
  | numberedLabel hc hdigits hcolon =>
    subst hdigits
    rw [hunquoted (by rintro rfl; cases hc)]
    exact Within.colon (continues_isDigit.within cs) hcolon
  | numeral hc hn _ =>
    have hquote : c ≠ '"' := by
      rintro rfl
      cases hc
    have hwithin := (within_numeral (c :: cs)).behind hquote
    rw [hunquoted hquote]
    rwa [hn] at hwithin
  | word hc _ hword =>
    rw [hunquoted (by rintro rfl; cases hc)]
    have hwithin : Within false cs (wordOrLabel c cs (runLength Text.isNameChar cs)).2 :=
      within_wordOrLabel (continues_isNameChar.within cs)
    rwa [hword] at hwithin
  | other _ hfirst =>
    rw [hunquoted fun hc => hfirst (by simp [hc])]
    exact .zero

end IrRecords.Token
