import IrRecords.Token.Lexer

/-!
# What a token can be

The first character decides what kind of token is cut off, with some help from the characters behind it.
`Lexes` has a case for each branch of `lexeme` with what is known there of the characters, and a token comes from
one of them (`lexes_of_lexeme`), so that what holds of all tokens is shown case by case.

Words and single characters come last: they are cut off where no branch in front of theirs takes the text
(`Taken`). With this the cases are also enough to know the token (`lexeme_eq_ok_iff`), as those of `Names` are
enough to know what stands behind a sigil (`reference_eq_ok_iff`). So to show that a token is cut off in front of
another text as well, it is enough to look at what its branch has read.
-/

namespace IrRecords

/-- Whether a token of this kind may be what is left where no branch with a test of its own takes the text. -/
def TokenKind.comesLast : TokenKind → Bool
  | .word _ | .label _ | .other _ => true
  | _ => false

namespace Token

/-- What can be cut off at the character `c` in front of `cs`, and how much of `cs` goes with it. -/
inductive Lexes (c : Char) (cs : List Char) : TokenKind → Nat → Prop
  | punctuation {kind : TokenKind} (h : punctuation? c = some kind) : Lexes c cs kind 0
  | ellipsis (hc : c = '.') (hdots : ['.', '.'].isPrefixOf cs = true) : Lexes c cs .ellipsis 2
  | localRef {id : Ident} {used : Nat} (hc : c = '%') (h : reference c cs = .ok (id, used)) :
      Lexes c cs (.localRef id) used
  | globalRef {id : Ident} {used : Nat} (hc : c = '@') (h : reference c cs = .ok (id, used)) :
      Lexes c cs (.globalRef id) used
  | bang (hc : c = '!') (h : cs.takeWhile (fun d => Text.isNameChar d || d == '\\') = []) :
      Lexes c cs .bang 0
  | metadata {name : List Char} (hc : c = '!')
      (hname : cs.takeWhile (fun d => Text.isNameChar d || d == '\\') = name) (hne : name ≠ []) :
      Lexes c cs (.metadata (String.ofList name)) name.length
  | hash {name : List Char} (hc : c = '#') (hname : cs.takeWhile Text.isNameChar = name) :
      Lexes c cs (.hash (String.ofList name)) name.length
  | quotedLabel {bytes : List UInt8} {used : Nat} {name : String} (hc : c = '"')
      (h : quoted cs = .ok (bytes, used)) (hcolon : (cs.drop used).head? = some ':')
      (hname : nameOf bytes = .ok name) : Lexes c cs (.label name) (used + 1)
  | string {bytes : List UInt8} {used : Nat} (hc : c = '"') (h : quoted cs = .ok (bytes, used))
      (hcolon : (cs.drop used).head? ≠ some ':') : Lexes c cs (.str (literalOf bytes)) used
  | chars {bytes : List UInt8} {used : Nat} {ds : List Char} (hc : c = 'c') (hcs : cs = '"' :: ds)
      (h : quoted ds = .ok (bytes, used)) : Lexes c cs (.chars (literalOf bytes)) (used + 1)
  | negative {isFloat : Bool} {used : Nat} (hc : c = '-') (h : numeral cs = (isFloat, used))
      (hdigit : (cs.head?.map Char.isDigit).getD false = true) :
      Lexes c cs (numeralKind isFloat (c :: cs.take used)) used
  | numberedLabel {digits : Nat} (hc : c.isDigit = true) (h : runLength Char.isDigit cs = digits)
      (hcolon : (cs.drop digits).head? = some ':') :
      Lexes c cs (.label (String.ofList (c :: cs.take digits))) (digits + 1)
  | numeral {isFloat : Bool} {used : Nat} (hc : c.isDigit = true) (h : numeral (c :: cs) = (isFloat, used))
      (hcolon : (cs.drop (runLength Char.isDigit cs)).head? ≠ some ':') :
      Lexes c cs (numeralKind isFloat ((c :: cs).take used)) (used - 1)
  | word {kind : TokenKind} {used : Nat} (hc : Text.isNameChar c = true) (hdigit : c.isDigit = false)
      (h : wordOrLabel c cs (runLength Text.isNameChar cs) = (kind, used)) : Lexes c cs kind used
  | other (hc : Text.isNameChar c = false) (hfirst : c ∉ ['%', '@', '!', '#', '"']) : Lexes c cs (.other c) 0

variable {c d : Char} {cs ds : List Char} {kind : TokenKind} {used : Nat}

/-! ## First characters -/

theorem isNameChar_of_isDigit (hc : c.isDigit = true) : Text.isNameChar c = true := by
  simp [Text.isNameChar, Char.isAlphanum, hc]

/-- A digit is no character but the ten. -/
theorem ne_of_isDigit (hc : c.isDigit = true) (hd : d.isDigit = false) : c ≠ d := by
  rintro rfl
  rw [hd] at hc
  cases hc

theorem ne_of_isNameChar (hc : Text.isNameChar c = true) (hd : Text.isNameChar d = false) : c ≠ d := by
  rintro rfl
  rw [hd] at hc
  cases hc

theorem punctuation?_of_isNameChar (h : Text.isNameChar c = true) : punctuation? c = none := by
  unfold punctuation?
  split
  all_goals first | rfl | exact absurd h (by decide)

/-! ## Behind a sigil -/

/-- What stands behind a sigil at the start of `cs`, and how many characters it has. -/
inductive Names (cs : List Char) : Ident → Nat → Prop
  | quoted {ds : List Char} {bytes : List UInt8} {used : Nat} {name : String} (hcs : cs = '"' :: ds)
      (h : quoted ds = .ok (bytes, used)) (hname : nameOf bytes = .ok name) :
      Names cs (.named name) (used + 1)
  | slot {digits : List Char} {n : Nat} (hdigits : cs.takeWhile Char.isDigit = digits) (hne : digits ≠ [])
      (hn : Text.decimal? Text.bound32 digits = some n) : Names cs (.slot n) digits.length
  | bare {name : List Char} (hnone : cs.takeWhile Char.isDigit = [])
      (hname : cs.takeWhile Text.isNameChar = name) (hne : name ≠ []) :
      Names cs (.named (String.ofList name)) name.length

theorem reference_quote (sigil : Char) (ds : List Char) : reference sigil ('"' :: ds) = (do
    let (bytes, used) ← quoted ds
    return (.named (← nameOf bytes), used + 1)) := rfl

/-- What is told from the rows of digits and of name characters that the text begins with. -/
theorem reference_of_ne {sigil : Char} (hc : c ≠ '"') (cs : List Char) : reference sigil (c :: cs) =
    if c.isDigit = true then
      match Text.decimal? Text.bound32 ((c :: cs).takeWhile Char.isDigit) with
      | some n => .ok (.slot n, ((c :: cs).takeWhile Char.isDigit).length)
      | none => .error (.numberTooLarge (String.ofList ((c :: cs).takeWhile Char.isDigit)))
    else if Text.isNameChar c = true then
      .ok (.named (String.ofList ((c :: cs).takeWhile Text.isNameChar)),
        ((c :: cs).takeWhile Text.isNameChar).length)
    else .error (.nameMissing sigil) :=
  reference.eq_3 sigil c cs hc

theorem names_of_reference {sigil : Char} {id : Ident} (h : reference sigil cs = .ok (id, used)) :
    Names cs id used := by
  cases cs with
  | nil => cases h
  | cons c cs =>
    by_cases hquote : c = '"'
    · subst hquote
      rw [reference_quote] at h
      cases hq : quoted cs with
      | error fault => rw [hq] at h; cases h
      | ok r =>
        rw [hq] at h
        dsimp only [Bind.bind, Except.bind] at h
        cases hn : nameOf r.1 with
        | error fault => rw [hn] at h; cases h
        | ok name =>
          rw [hn] at h
          cases h
          exact .quoted rfl hq hn
    · rw [reference_of_ne hquote] at h
      cases hdigit : c.isDigit with
      | true =>
        rw [if_pos hdigit] at h
        cases hn : Text.decimal? Text.bound32 ((c :: cs).takeWhile Char.isDigit) with
        | none => rw [hn] at h; cases h
        | some n =>
          rw [hn] at h
          cases h
          refine .slot rfl ?_ hn
          rw [List.takeWhile_cons_of_pos hdigit]
          exact List.cons_ne_nil _ _
      | false =>
        rw [hdigit, if_neg Bool.false_ne_true] at h
        split at h
        · next hname =>
          cases h
          refine .bare (List.takeWhile_cons_of_neg (by simp [hdigit])) rfl ?_
          rw [List.takeWhile_cons_of_pos hname]
          exact List.cons_ne_nil _ _
        · cases h

/-- **What stands behind a sigil** is a name in quotes, a number or a name without quotes. -/
theorem reference_eq_ok_iff {sigil : Char} {id : Ident} :
    reference sigil cs = .ok (id, used) ↔ Names cs id used := by
  refine ⟨names_of_reference, fun h => ?_⟩
  cases h with
  | quoted hcs hq hname =>
    rw [hcs, reference_quote, hq]
    simp only [Bind.bind, Except.bind, hname]
    rfl
  | slot hdigits hne hn =>
    cases cs with
    | nil => exact absurd hdigits.symm hne
    | cons c cs =>
      have hdigit : c.isDigit = true := by
        by_cases hdigit : c.isDigit = true
        · exact hdigit
        · exact absurd (hdigits.symm.trans (List.takeWhile_cons_of_neg hdigit)) hne
      rw [reference_of_ne (ne_of_isDigit hdigit (by decide)), if_pos hdigit, hdigits, hn]
  | bare hnone hname hne =>
    cases cs with
    | nil => exact absurd hname.symm hne
    | cons c cs =>
      have hc : Text.isNameChar c = true := by
        by_cases hc : Text.isNameChar c = true
        · exact hc
        · exact absurd (hname.symm.trans (List.takeWhile_cons_of_neg hc)) hne
      have hdigit : ¬c.isDigit = true := fun hdigit => by
        rw [List.takeWhile_cons_of_pos hdigit] at hnone
        cases hnone
      rw [reference_of_ne (ne_of_isNameChar hc (by decide)), if_neg hdigit, if_pos hc, hname]

/-! ## What is left for words -/

/-- A branch in front of those for words and for single characters takes the text: punctuation, an ellipsis,
quoted text behind a `c` or a numeral with a sign. -/
def Taken (c : Char) (cs : List Char) : Prop :=
  (punctuation? c).isSome = true ∨ c = '.' ∧ ['.', '.'].isPrefixOf cs = true
    ∨ c = 'c' ∧ cs.head? = some '"' ∨ c = '-' ∧ (cs.head?.map Char.isDigit).getD false = true

/-- Nothing but these three looks behind a name character before it is taken for the start of a word. -/
theorem not_taken_of_isNameChar (hc : Text.isNameChar c = true)
    (hdots : c = '.' → ['.', '.'].isPrefixOf cs = false) (hquote : c = 'c' → cs.head? ≠ some '"')
    (hdigit : c = '-' → (cs.head?.map Char.isDigit).getD false = false) : ¬Taken c cs := by
  rintro (hp | ⟨hpoint, h⟩ | ⟨hchars, h⟩ | ⟨hdash, h⟩)
  · rw [punctuation?_of_isNameChar hc] at hp
    cases hp
  · exact Bool.false_ne_true ((hdots hpoint).symm.trans h)
  · exact hquote hchars h
  · exact Bool.false_ne_true ((hdigit hdash).symm.trans h)

/-! ## One branch at a time -/

theorem lexeme_of_punctuation (h : punctuation? c = some kind) (cs : List Char) :
    lexeme c cs = .ok (kind, 0) := by
  rw [lexeme, h]

theorem lexeme_dots (h : ['.', '.'].isPrefixOf cs = true) : lexeme '.' cs = .ok (.ellipsis, 2) := by
  rw [lexeme, punctuation?_of_isNameChar (by decide)]
  exact if_pos ⟨rfl, h⟩

theorem lexeme_percent (cs : List Char) : lexeme '%' cs
    = (reference '%' cs).map fun r => (.localRef r.1, r.2) := by
  simp only [lexeme, punctuation?]
  cases reference '%' cs <;> rfl

theorem lexeme_at (cs : List Char) : lexeme '@' cs
    = (reference '@' cs).map fun r => (.globalRef r.1, r.2) := by
  simp only [lexeme, punctuation?]
  cases reference '@' cs <;> rfl

theorem lexeme_exclamation (cs : List Char) : lexeme '!' cs =
    let name := cs.takeWhile fun d => Text.isNameChar d || d == '\\'
    if name.isEmpty then .ok (.bang, 0) else .ok (.metadata (String.ofList name), name.length) := rfl

theorem lexeme_hash (cs : List Char) : lexeme '#' cs
    = .ok (.hash (String.ofList (cs.takeWhile Text.isNameChar)), (cs.takeWhile Text.isNameChar).length) := rfl

/-- Quoted text alone, or a label if a colon follows it. -/
theorem lexeme_quote (cs : List Char) : lexeme '"' cs = (do
    let (bytes, used) ← quoted cs
    if (cs.drop used).head? = some ':' then return (.label (← nameOf bytes), used + 1)
    else return (.str (literalOf bytes), used)) := rfl

theorem lexeme_chars (ds : List Char) : lexeme 'c' ('"' :: ds) = (do
    let (bytes, used) ← quoted ds
    return (.chars (literalOf bytes), used + 1)) := rfl

theorem lexeme_dash (h : (cs.head?.map Char.isDigit).getD false = true) : lexeme '-' cs
    = .ok (numeralKind (numeral cs).1 ('-' :: cs.take (numeral cs).2), (numeral cs).2) := by
  rw [lexeme, punctuation?_of_isNameChar (by decide)]
  simp [h]

/-- A digit starts a numeral, or a label if a colon follows the digits. -/
theorem lexeme_of_isDigit (hc : c.isDigit = true) (cs : List Char) : lexeme c cs =
    let digits := runLength Char.isDigit cs
    if (cs.drop digits).head? = some ':' then
      .ok (.label (String.ofList (c :: cs.take digits)), digits + 1)
    else
      .ok (numeralKind (numeral (c :: cs)).1 ((c :: cs).take (numeral (c :: cs)).2),
        (numeral (c :: cs)).2 - 1) := by
  have hne : ∀ d, d.isDigit = false → c ≠ d := fun d hd => ne_of_isDigit hc hd
  rw [lexeme, punctuation?_of_isNameChar (isNameChar_of_isDigit hc)]
  simp only [hne '.' (by decide), hne '%' (by decide), hne '@' (by decide), hne '!' (by decide),
    hne '#' (by decide), hne '"' (by decide), hne 'c' (by decide), hne '-' (by decide), hc, false_and,
    if_false, if_true]

/-- Any other name character starts a word or a label. -/
theorem lexeme_of_word (hc : Text.isNameChar c = true) (hdigit : c.isDigit = false) (hfree : ¬Taken c cs) :
    lexeme c cs = .ok (wordOrLabel c cs (runLength Text.isNameChar cs)) := by
  have hne : ∀ d, Text.isNameChar d = false → c ≠ d := fun d hd => ne_of_isNameChar hc hd
  simp only [Taken, not_or] at hfree
  obtain ⟨_, hdots, hchars, hdash⟩ := hfree
  rw [lexeme, punctuation?_of_isNameChar hc]
  simp only [hdots, hne '%' (by decide), hne '@' (by decide), hne '!' (by decide), hne '#' (by decide),
    hne '"' (by decide), hchars, hdash, hdigit, hc, if_false, if_true, Bool.false_eq_true]

/-- Any other character is a token of its own. -/
theorem lexeme_of_other (hc : Text.isNameChar c = false) (hfirst : c ∉ ['%', '@', '!', '#', '"'])
    (hfree : ¬Taken c cs) : lexeme c cs = .ok (.other c, 0) := by
  simp only [Taken, not_or, Bool.not_eq_true, Option.isSome_eq_false_iff, Option.isNone_iff_eq_none] at hfree
  simp only [List.mem_cons, List.not_mem_nil, or_false, not_or] at hfirst
  obtain ⟨hp, hdots, hchars, hdash⟩ := hfree
  have hdigit : c.isDigit = false := by
    cases hdigit : c.isDigit with
    | false => rfl
    | true => rw [isNameChar_of_isDigit hdigit] at hc; cases hc
  rw [lexeme, hp]
  simp only [hdots, hfirst, hchars, hdash, hdigit, hc, if_false, Bool.false_eq_true]

/-! ## All branches -/

theorem lexes_of_quote (h : lexeme '"' cs = .ok (kind, used)) : Lexes '"' cs kind used := by
  rw [lexeme_quote] at h
  cases hq : quoted cs with
  | error fault => rw [hq] at h; cases h
  | ok r =>
    rw [hq] at h
    dsimp only [Bind.bind, Except.bind] at h
    by_cases hcolon : (cs.drop r.2).head? = some ':'
    · rw [if_pos hcolon] at h
      cases hn : nameOf r.1 with
      | error fault => rw [hn] at h; cases h
      | ok name =>
        rw [hn] at h
        cases h
        exact .quotedLabel rfl hq hcolon hn
    · rw [if_neg hcolon] at h
      cases h
      exact .string rfl hq hcolon

theorem exists_of_map_reference {make : Ident × Nat → TokenKind × Nat}
    (h : (reference c cs).map make = .ok (kind, used)) :
    ∃ r, reference c cs = .ok r ∧ make r = (kind, used) := by
  cases hr : reference c cs with
  | error fault => rw [hr] at h; cases h
  | ok r => rw [hr] at h; exact ⟨r, rfl, Except.ok.inj h⟩

/-- What one of the five characters starts that no name has. -/
theorem lexes_of_sign (hc : c ∈ ['%', '@', '!', '#', '"']) (h : lexeme c cs = .ok (kind, used)) :
    Lexes c cs kind used := by
  simp only [List.mem_cons, List.not_mem_nil, or_false] at hc
  rcases hc with rfl | rfl | rfl | rfl | rfl
  · rw [lexeme_percent] at h
    obtain ⟨r, hr, hmake⟩ := exists_of_map_reference h
    cases hmake
    exact .localRef rfl hr
  · rw [lexeme_at] at h
    obtain ⟨r, hr, hmake⟩ := exists_of_map_reference h
    cases hmake
    exact .globalRef rfl hr
  · rw [lexeme_exclamation] at h
    dsimp only at h
    split at h
    · next hname =>
      cases h
      exact .bang rfl (List.isEmpty_iff.mp hname)
    · next hname =>
      cases h
      exact .metadata rfl rfl fun hnil => hname (List.isEmpty_iff.mpr hnil)
  · rw [lexeme_hash] at h
    cases h
    exact .hash rfl rfl
  · exact lexes_of_quote h

theorem lexes_of_isDigit (hc : c.isDigit = true) (h : lexeme c cs = .ok (kind, used)) :
    Lexes c cs kind used := by
  rw [lexeme_of_isDigit hc] at h
  dsimp only at h
  split at h
  · next hcolon =>
    cases h
    exact .numberedLabel hc rfl hcolon
  · next hcolon =>
    cases h
    exact .numeral hc rfl hcolon

theorem comesLast_punctuation (h : punctuation? c = some kind) : kind.comesLast = false := by
  unfold punctuation? at h
  split at h
  all_goals cases h
  all_goals rfl

theorem comesLast_numeralKind (isFloat : Bool) (cs : List Char) :
    (numeralKind isFloat cs).comesLast = false := by
  cases isFloat <;> rfl

theorem comesLast_wordOrLabel (c : Char) (cs : List Char) (used : Nat) :
    (wordOrLabel c cs used).1.comesLast = true := by
  rw [wordOrLabel]
  split <;> rfl

theorem lexes_of_taken (htaken : Taken c cs) (h : lexeme c cs = .ok (kind, used)) :
    Lexes c cs kind used ∧ kind.comesLast = false := by
  rcases htaken with hp | ⟨rfl, hdots⟩ | ⟨rfl, hquote⟩ | ⟨rfl, hdigit⟩
  · obtain ⟨_, hp⟩ := Option.isSome_iff_exists.mp hp
    rw [lexeme_of_punctuation hp] at h
    cases h
    exact ⟨.punctuation hp, comesLast_punctuation hp⟩
  · rw [lexeme_dots hdots] at h
    cases h
    exact ⟨.ellipsis rfl hdots, rfl⟩
  · obtain ⟨ds, rfl⟩ := List.head?_eq_some_iff.mp hquote
    rw [lexeme_chars] at h
    cases hq : quoted ds with
    | error fault => rw [hq] at h; cases h
    | ok r =>
      rw [hq] at h
      cases h
      exact ⟨.chars rfl rfl hq, rfl⟩
  · rw [lexeme_dash hdigit] at h
    cases h
    exact ⟨.negative rfl rfl hdigit, comesLast_numeralKind _ _⟩

/-- **A token is what one of the branches makes.** -/
theorem lexes_of_lexeme (h : lexeme c cs = .ok (kind, used)) : Lexes c cs kind used := by
  by_cases htaken : Taken c cs
  · exact (lexes_of_taken htaken h).1
  by_cases hsign : c ∈ ['%', '@', '!', '#', '"']
  · exact lexes_of_sign hsign h
  by_cases hdigit : c.isDigit = true
  · exact lexes_of_isDigit hdigit h
  rw [Bool.not_eq_true] at hdigit
  cases hname : Text.isNameChar c with
  | true =>
    rw [lexeme_of_word hname hdigit htaken] at h
    exact .word hname hdigit (Except.ok.inj h)
  | false =>
    rw [lexeme_of_other hname hsign htaken] at h
    cases h
    exact .other hname hsign

/-- What a branch makes is the token, if words and single characters are left to the last. -/
theorem lexeme_of_lexes (h : Lexes c cs kind used) (hlast : kind.comesLast = true → ¬Taken c cs) :
    lexeme c cs = .ok (kind, used) := by
  cases h with
  | punctuation hp => exact lexeme_of_punctuation hp cs
  | ellipsis hc hdots => exact hc ▸ lexeme_dots hdots
  | localRef hc hr =>
    subst hc
    rw [lexeme_percent, hr]
    rfl
  | globalRef hc hr =>
    subst hc
    rw [lexeme_at, hr]
    rfl
  | bang hc hname =>
    subst hc
    rw [lexeme_exclamation, hname]
    rfl
  | metadata hc hname hne =>
    subst hc hname
    exact if_neg (mt List.isEmpty_iff.mp hne)
  | hash hc hname =>
    subst hc hname
    exact lexeme_hash cs
  | quotedLabel hc hq hcolon hn =>
    subst hc
    rw [lexeme_quote, hq]
    simp only [Bind.bind, Except.bind, if_pos hcolon, hn]
    rfl
  | string hc hq hcolon =>
    subst hc
    rw [lexeme_quote, hq]
    exact if_neg hcolon
  | chars hc hcs hq =>
    subst hc hcs
    rw [lexeme_chars, hq]
    rfl
  | negative hc hn hdigit =>
    subst hc
    rw [lexeme_dash hdigit, hn]
  | numberedLabel hc hrun hcolon =>
    subst hrun
    rw [lexeme_of_isDigit hc]
    exact if_pos hcolon
  | numeral hc hn hcolon =>
    rw [lexeme_of_isDigit hc, hn]
    exact if_neg hcolon
  | word hc hdigit hword =>
    -- The branches for words and for single characters are reached only if no other takes the text.
    have hkind := comesLast_wordOrLabel c cs (runLength Text.isNameChar cs)
    rw [hword] at hkind
    rw [lexeme_of_word hc hdigit (hlast hkind), hword]
  | other hc hfirst => exact lexeme_of_other hc hfirst (hlast rfl)

/-- **A token is known from its branch**, if words and single characters are left to the last. -/
theorem lexeme_eq_ok_iff : lexeme c cs = .ok (kind, used)
    ↔ Lexes c cs kind used ∧ (kind.comesLast = true → ¬Taken c cs) := by
  refine ⟨fun h => ⟨lexes_of_lexeme h, fun hlast htaken => ?_⟩, fun h => lexeme_of_lexes h.1 h.2⟩
  rw [(lexes_of_taken htaken h).2] at hlast
  cases hlast

end Token

end IrRecords
