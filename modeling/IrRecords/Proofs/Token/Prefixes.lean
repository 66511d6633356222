import IrRecords.Proofs.Token.Stretches

/-!
# Tokens in front of less

What stands behind a token may be cut away, at once or further on, and the token is still cut off as it
was (`lexeme_of_append`). Only where rows of characters end does a token look at what is behind it, and
what it does not find there it does not find at the end of a text either.
-/

namespace IrRecords.Token

variable {p : Char → Bool} {c d : Char} {ds es : List Char} {n used : Nat} {kind : TokenKind}

/-! ## Runs of characters -/

/-- A run that ends in the front of a text is a run of the front. -/
theorem takeWhile_of_append (h : ((ds ++ es).takeWhile p).length ≤ ds.length) :
    ds.takeWhile p = (ds ++ es).takeWhile p := by
  induction ds with
  | nil =>
    rw [List.nil_append] at h ⊢
    exact (List.eq_nil_of_length_eq_zero (Nat.le_zero.mp h)).symm
  | cons d ds ih =>
    rw [List.cons_append] at h ⊢
    cases hd : p d with
    | true =>
      rw [List.takeWhile_cons_of_pos hd, List.length_cons, List.length_cons] at h
      rw [List.takeWhile_cons_of_pos hd, List.takeWhile_cons_of_pos hd,
        ih (Nat.le_of_succ_le_succ h)]
    | false =>
      rw [List.takeWhile_cons_of_neg (by simp [hd]), List.takeWhile_cons_of_neg (by simp [hd])]

theorem runLength_of_append (h : runLength p (ds ++ es) ≤ ds.length) :
    runLength p ds = runLength p (ds ++ es) := congrArg List.length (takeWhile_of_append h)

/-- What stands at a place of the front stands there in the text. -/
theorem head?_drop_append (h : (ds.drop n).head? = some d) :
    ((ds ++ es).drop n).head? = some d := by
  rw [List.head?_drop] at h ⊢
  rw [List.getElem?_append_left (List.getElem?_eq_some_iff.mp h).1, h]

theorem head?_drop_of_append (hn : n < ds.length) (h : ((ds ++ es).drop n).head? = some d) :
    (ds.drop n).head? = some d := by
  rw [List.head?_drop] at h ⊢
  rwa [List.getElem?_append_left hn] at h

/-! ## Quoted text -/

/-- Quoted text goes further than any row of characters without a quote in front of it. -/
theorem Within.lt_of_not_mem (h : Within true (ds ++ es) used) (hds : '"' ∉ ds) :
    ds.length < used := by
  induction ds generalizing used with
  | nil =>
    cases h with
    | succ _ _ => exact Nat.succ_pos _
  | cons d ds ih =>
    rw [List.mem_cons, not_or] at hds
    rw [List.cons_append] at h
    cases h with
    | succ _ h =>
      rw [beq_eq_false_iff_ne.mpr (Ne.symm hds.1)] at h
      exact Nat.succ_lt_succ (ih h hds.2)

/-- What is read behind the first characters of a quoted text is read there in the front, too. -/
theorem map_prepend_of {r r' : Option (List UInt8 × Nat)} {front bytes : List UInt8} {m : Nat}
    (hr : ∀ {bytes used}, r = some (bytes, used) → used ≤ m → r' = some (bytes, used))
    (h : r.map (Text.prepend front n) = some (bytes, used)) (hle : used ≤ m + n) :
    r'.map (Text.prepend front n) = some (bytes, used) := by
  obtain ⟨⟨bytes', used'⟩, hread, hall⟩ := Option.map_eq_some_iff.mp h
  have hused : n + used' = used := congrArg Prod.snd hall
  rw [hr hread (by omega), Option.map_some, hall]

/-- Quoted text that is closed in the front of a text is quoted text of the front. -/
theorem readQuoted_of_append {bytes : List UInt8}
    (h : Text.readQuoted (ds ++ es) = some (bytes, used)) (hle : used ≤ ds.length) :
    Text.readQuoted ds = some (bytes, used) := by
  induction ds using Text.readQuoted.induct generalizing bytes used with
  | case1 => exact absurd hle (Nat.not_le.mpr ((within_readQuoted h).lt_of_not_mem List.not_mem_nil))
  | case2 cs =>
    rw [List.cons_append, Text.readQuoted] at h
    rw [Text.readQuoted, h]
  | case3 cs ih =>
    rw [List.cons_append, List.cons_append, Text.readQuoted] at h
    rw [Text.readQuoted]
    exact map_prepend_of ih h hle
  | case4 a b cs ha byte hbyte ih =>
    rw [List.cons_append, List.cons_append, List.cons_append, Text.readQuoted, hbyte] at h
    · rw [Text.readQuoted, hbyte]
      · exact map_prepend_of ih h hle
      · exact ha
    · exact ha
  | case5 a b cs ha hbyte ih =>
    rw [List.cons_append, List.cons_append, List.cons_append, Text.readQuoted, hbyte] at h
    · rw [Text.readQuoted, hbyte]
      · exact map_prepend_of ih h hle
      · exact ha
    · exact ha
  | case6 c cs hquote hdouble hescape ih =>
    by_cases hslash : c = '\\'
    · subst hslash
      -- An escape would need characters of what is cut away.
      rcases cs with _ | ⟨a, _ | ⟨b, cs⟩⟩
      · exact absurd hle (Nat.not_le.mpr ((within_readQuoted h).lt_of_not_mem (by decide)))
      · by_cases ha : a = '"'
        · have hnone : ∀ d, Text.escapedByte? a d = none := fun d => by
            rw [ha]
            exact (escapedByte?_quote d).1
          have hslash : a ≠ '\\' := by rw [ha]; decide
          rw [List.cons_append, List.singleton_append,
            Text.readQuoted_backslash hslash fun d _ _ => hnone d] at h
          rw [Text.readQuoted_backslash hslash fun d _ _ => hnone d]
          exact map_prepend_of ih h hle
        · refine absurd hle (Nat.not_le.mpr ((within_readQuoted h).lt_of_not_mem ?_))
          simp [Ne.symm ha]
      · exact absurd rfl (hescape a b cs rfl)
    · rw [List.cons_append, Text.readQuoted] at h
      · rw [Text.readQuoted]
        · exact map_prepend_of ih h hle
        all_goals first | exact hquote | simp [hslash]
      all_goals first | exact hquote | simp [hslash]

theorem quoted_of_append {bytes : List UInt8} (h : quoted (ds ++ es) = .ok (bytes, used))
    (hle : used ≤ ds.length) : quoted ds = .ok (bytes, used) := by
  unfold quoted at h ⊢
  split at h
  · next hread =>
    cases h
    rw [readQuoted_of_append hread hle]
  · cases h

/-! ## Sigils -/

theorem reference_of_append {sigil : Char} {id : Ident}
    (h : reference sigil (ds ++ es) = .ok (id, used)) (hle : used ≤ ds.length) :
    reference sigil ds = .ok (id, used) := by
  refine reference_eq_ok_iff.mpr ?_
  cases reference_eq_ok_iff.mp h with
  | quoted hcs hq hname =>
    cases ds with
    | nil => exact absurd hle (Nat.not_succ_le_zero _)
    | cons d ds =>
      cases hcs
      exact .quoted rfl (quoted_of_append hq (Nat.le_of_succ_le_succ hle)) hname
  | slot hdigits hne hn =>
    subst hdigits
    exact .slot (takeWhile_of_append hle) hne hn
  | bare hnone hname hne =>
    subst hname
    have hdigits : ds.takeWhile Char.isDigit = (ds ++ es).takeWhile Char.isDigit :=
      takeWhile_of_append (by rw [hnone]; exact Nat.zero_le _)
    exact .bare (hdigits.trans hnone) (takeWhile_of_append hle) hne

/-! ## Numerals -/

theorem fractionLength_of_append (h : fractionLength (ds ++ es) ≤ ds.length) :
    fractionLength ds = fractionLength (ds ++ es) := by
  cases ds with
  | nil => exact (Nat.le_zero.mp h).symm
  | cons d ds =>
    by_cases hpoint : d = '.'
    · subst hpoint
      have hrun : runLength Char.isDigit (ds ++ es) ≤ ds.length := by
        rw [List.cons_append, fractionLength] at h
        split at h
        · next hzero =>
          rw [hzero]
          exact Nat.zero_le _
        · next hrun =>
          rw [hrun]
          exact Nat.le_of_succ_le_succ h
      rw [List.cons_append, fractionLength, fractionLength, runLength_of_append hrun]
    · have hnone : ∀ cs, fractionLength (d :: cs) = 0 := fun cs => by
        unfold fractionLength
        split
        · next h => exact absurd (List.cons.inj h).1 hpoint
        · rfl
      rw [List.cons_append, hnone, hnone]

theorem exponentDigits_of_append {sign : Nat}
    (h : exponentDigits sign (ds ++ es) ≤ ds.length + sign + 1) :
    exponentDigits sign ds = exponentDigits sign (ds ++ es) := by
  have hrun : runLength Char.isDigit (ds ++ es) ≤ ds.length := by
    rw [exponentDigits] at h
    split at h
    · next hzero =>
      rw [hzero]
      exact Nat.zero_le _
    · next hrun =>
      rw [hrun]
      omega
  rw [exponentDigits, exponentDigits, runLength_of_append hrun]

theorem exponentLength_of_append (h : exponentLength (ds ++ es) ≤ ds.length) :
    exponentLength ds = exponentLength (ds ++ es) := by
  cases ds with
  | nil => exact (Nat.le_zero.mp h).symm
  | cons d ds =>
    rw [List.cons_append, exponentLength_cons] at h ⊢
    rw [exponentLength_cons]
    by_cases hletter : d = 'e' ∨ d = 'E'
    · rw [if_pos hletter] at h ⊢
      rw [if_pos hletter]
      cases ds with
      | nil =>
        -- An exponent has two characters at least.
        have hzero : ∀ {sign : Nat} {cs : List Char}, exponentDigits sign cs ≤ 1 →
            exponentDigits sign cs = 0 := by
          intro sign cs hle
          unfold exponentDigits at hle ⊢
          split at hle
          · rfl
          · omega
        have hnil : exponentDigits 0 [] = 0 := rfl
        rw [List.nil_append] at h ⊢
        split at h
        · next hsign => rw [if_pos hsign, hzero h]; exact hnil
        · next hsign => rw [if_neg hsign, hzero h]; exact hnil
      | cons s ds =>
        by_cases hsign : (s :: ds).head? = some '+' ∨ (s :: ds).head? = some '-'
        · have hsign' : (s :: ds ++ es).head? = some '+' ∨ (s :: ds ++ es).head? = some '-' := hsign
          rw [if_pos hsign'] at h
          rw [if_pos hsign', if_pos hsign]
          exact exponentDigits_of_append h
        · have hsign' : ¬((s :: ds ++ es).head? = some '+' ∨ (s :: ds ++ es).head? = some '-') := hsign
          rw [if_neg hsign'] at h
          rw [if_neg hsign', if_neg hsign]
          exact exponentDigits_of_append h
    · rw [if_neg hletter, if_neg hletter]

/-- A numeral has all the digits that it begins with. -/
theorem runLength_lt_numeral {cs : List Char} (hc : c.isDigit = true) :
    runLength Char.isDigit cs < (numeral (c :: cs)).2 := by
  by_cases hhex : ∃ cs', c :: cs = '0' :: 'x' :: cs'
  · obtain ⟨cs', hcs⟩ := hhex
    cases hcs
    exact Nat.succ_pos _
  · rw [not_exists] at hhex
    have hrun : runLength Char.isDigit (c :: cs) = runLength Char.isDigit cs + 1 := by
      rw [runLength, List.takeWhile_cons_of_pos hc]
      rfl
    rw [numeral_of_ne hhex]
    dsimp only
    omega

/-- A numeral that ends in the front of a text is a numeral of the front. -/
theorem numeral_of_append (h : (numeral (ds ++ es)).2 ≤ ds.length) :
    numeral ds = numeral (ds ++ es) := by
  by_cases hhex : ∃ cs, ds ++ es = '0' :: 'x' :: cs
  · obtain ⟨cs, hcs⟩ := hhex
    rw [hcs, numeral] at h
    -- The mark of a hexadecimal numeral is in the front, because the numeral is.
    obtain ⟨ds', rfl⟩ : ∃ ds', ds = '0' :: 'x' :: ds' := by
      rcases ds with _ | ⟨d, _ | ⟨d', ds'⟩⟩
      · exact absurd h (Nat.not_succ_le_zero _)
      · exact absurd (Nat.le_of_succ_le_succ h) (Nat.not_succ_le_zero _)
      · cases hcs
        exact ⟨ds', rfl⟩
    cases hcs
    rw [List.cons_append, List.cons_append, numeral, numeral,
      runLength_of_append (Nat.le_of_succ_le_succ (Nat.le_of_succ_le_succ h))]
  · have hhex' : ∀ cs, ds ≠ '0' :: 'x' :: cs := by
      rintro cs rfl
      exact hhex ⟨cs ++ es, rfl⟩
    rw [not_exists] at hhex
    rw [numeral_of_ne hhex] at h ⊢
    rw [numeral_of_ne hhex']
    dsimp only at h ⊢
    have hdigits : runLength Char.isDigit ds = runLength Char.isDigit (ds ++ es) :=
      runLength_of_append (by omega)
    rw [← hdigits] at h ⊢
    rw [List.drop_append_of_le_length (by omega)] at h ⊢
    have hfraction : fractionLength (ds.drop (runLength Char.isDigit ds))
        = fractionLength (ds.drop (runLength Char.isDigit ds) ++ es) :=
      fractionLength_of_append (by rw [List.length_drop]; omega)
    rw [← hfraction] at h ⊢
    generalize runLength Char.isDigit ds + fractionLength (ds.drop (runLength Char.isDigit ds)) = n at *
    rw [List.drop_append_of_le_length (by omega)] at h ⊢
    have hexponent : exponentLength (ds.drop n) = exponentLength (ds.drop n ++ es) :=
      exponentLength_of_append (by rw [List.length_drop]; omega)
    rw [hexponent]

/-! ## Tokens -/

/-- What is in front of the front is in front of the text. -/
theorem isPrefixOf_append {w : List Char} (h : w.isPrefixOf ds = true) :
    w.isPrefixOf (ds ++ es) = true :=
  List.isPrefixOf_iff_prefix.mpr ((List.isPrefixOf_iff_prefix.mp h).trans (List.prefix_append _ _))

theorem isPrefixOf_of_append {w : List Char} (h : w.isPrefixOf (ds ++ es) = true)
    (hle : w.length ≤ ds.length) : w.isPrefixOf ds = true :=
  List.isPrefixOf_iff_prefix.mpr (List.prefix_of_prefix_length_le (List.isPrefixOf_iff_prefix.mp h)
    (List.prefix_append _ _) hle)

theorem head?_append_of_eq (h : ds.head? = some d) : (ds ++ es).head? = some d := by
  rw [List.head?_append, h]
  rfl

theorem le_of_wordOrLabel {cs : List Char} (h : wordOrLabel c cs n = (kind, used)) : n ≤ used := by
  unfold wordOrLabel at h
  dsimp only at h
  split at h
  · cases h
    exact Nat.le_succ n
  · cases h
    exact Nat.le_refl _

theorem wordOrLabel_of_append (h : wordOrLabel c (ds ++ es) n = (kind, used)) (hle : used ≤ ds.length) :
    wordOrLabel c ds n = (kind, used) := by
  unfold wordOrLabel at h ⊢
  dsimp only at h ⊢
  split at h
  · next hcolon =>
    cases h
    rw [if_pos (head?_drop_of_append hle hcolon), List.take_append_of_le_length (Nat.le_of_lt hle)]
  · next hcolon =>
    cases h
    rw [if_neg (mt head?_drop_append hcolon), List.take_append_of_le_length hle]

/-- What takes the front takes the text. -/
theorem Taken.append (h : Taken c ds) : Taken c (ds ++ es) := by
  rcases h with hp | ⟨hc, hdots⟩ | ⟨hc, hquote⟩ | ⟨hc, hdigit⟩
  · exact .inl hp
  · exact .inr (.inl ⟨hc, isPrefixOf_append hdots⟩)
  · exact .inr (.inr (.inl ⟨hc, head?_append_of_eq hquote⟩))
  · refine .inr (.inr (.inr ⟨hc, ?_⟩))
    cases ds with
    | nil => cases hdigit
    | cons d ds => exact hdigit

/-- A branch that takes the text and no more than the front of it takes the front. -/
theorem Lexes.of_append (h : Lexes c (ds ++ es) kind used) (hle : used ≤ ds.length) :
    Lexes c ds kind used := by
  cases h with
  | punctuation hp => exact .punctuation hp
  | ellipsis hc hdots => exact .ellipsis hc (isPrefixOf_of_append hdots hle)
  | localRef hc hr => exact .localRef hc (reference_of_append hr hle)
  | globalRef hc hr => exact .globalRef hc (reference_of_append hr hle)
  | bang hc hname =>
    refine .bang hc ((takeWhile_of_append ?_).trans hname)
    rw [hname]
    exact Nat.zero_le _
  | metadata hc hname hne =>
    subst hname
    exact .metadata hc (takeWhile_of_append hle) hne
  | hash hc hname =>
    subst hname
    exact .hash hc (takeWhile_of_append hle)
  | quotedLabel hc hq hcolon hn =>
    exact .quotedLabel hc (quoted_of_append hq (Nat.le_of_succ_le hle))
      (head?_drop_of_append hle hcolon) hn
  | string hc hq hcolon => exact .string hc (quoted_of_append hq hle) (mt head?_drop_append hcolon)
  | chars hc hcs hq =>
    cases ds with
    | nil => exact absurd hle (Nat.not_succ_le_zero _)
    | cons d ds =>
      cases hcs
      exact .chars hc rfl (quoted_of_append hq (Nat.le_of_succ_le_succ hle))
  | @negative isFloat used hc hn hdigit =>
    have hnumeral : Token.numeral ds = Token.numeral (ds ++ es) :=
      numeral_of_append (by rw [hn]; exact hle)
    rw [List.take_append_of_le_length hle]
    refine .negative hc (hnumeral.trans hn) ?_
    cases ds with
    | cons d ds => exact hdigit
    | nil =>
      -- The digit would be in what is cut away, and the numeral would reach it.
      obtain rfl := Nat.le_zero.mp hle
      cases es with
      | nil => cases hdigit
      | cons e es =>
        have hlt : runLength Char.isDigit es < (Token.numeral (e :: es)).2 := runLength_lt_numeral hdigit
        rw [List.nil_append] at hn
        rw [hn] at hlt
        exact absurd hlt (Nat.not_lt_zero _)
  | numberedLabel hc hrun hcolon =>
    subst hrun
    have hdigits := runLength_of_append (Nat.le_of_succ_le hle)
    rw [List.take_append_of_le_length (Nat.le_of_succ_le hle)]
    exact .numberedLabel hc hdigits (head?_drop_of_append hle hcolon)
  | @numeral isFloat used hc hn hcolon =>
    have hlt : runLength Char.isDigit (ds ++ es) < (Token.numeral (c :: (ds ++ es))).2 :=
      runLength_lt_numeral hc
    rw [hn] at hlt
    have hrun : runLength Char.isDigit ds = runLength Char.isDigit (ds ++ es) :=
      runLength_of_append (by omega)
    have hfront : used ≤ (c :: ds).length := by
      rw [List.length_cons]
      omega
    rw [← List.cons_append] at hn ⊢
    rw [List.take_append_of_le_length hfront]
    refine .numeral hc ((numeral_of_append (by rw [hn]; exact hfront)).trans hn) ?_
    rw [hrun]
    exact mt head?_drop_append hcolon
  | word hc hdigit hword =>
    refine .word hc hdigit ?_
    rw [runLength_of_append (Nat.le_trans (le_of_wordOrLabel hword) hle)]
    exact wordOrLabel_of_append hword hle
  | other hc hfirst => exact .other hc hfirst

/-- **A token is the same in front of less.** -/
theorem lexeme_of_append (h : lexeme c (ds ++ es) = .ok (kind, used)) (hle : used ≤ ds.length) :
    lexeme c ds = .ok (kind, used) := by
  obtain ⟨hlexes, hlast⟩ := lexeme_eq_ok_iff.mp h
  exact lexeme_eq_ok_iff.mpr ⟨hlexes.of_append hle, fun hkind htaken => hlast hkind htaken.append⟩

end IrRecords.Token
