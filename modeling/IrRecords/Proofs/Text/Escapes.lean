import IrRecords.Proofs.Text.Quoted

/-!
# What quoted text stands for

Escapes are about bytes, and so is what quoted text stands for. From the left, two backslashes stand for one,
a backslash and two bytes that name a byte stand for this byte, and every other byte stands for itself, until
a quote is reached (`unit?`, `Unescapes`). Which bytes name one is left open: two hexadecimal digits do
(`hexPair?`), and where numerals may have a sign, `+` and a digit do, too (`signedPair?`).

Reading quoted text character by character comes to the same (`readQuoted_eq_some_iff`,
`readQuoted_eq_none_iff`), because a character that has more than one byte has no byte that counts here.
-/

namespace IrRecords.Text

open Utf8

/-! ## Bytes between quotes -/

/-- The value of a hexadecimal digit. -/
def digit? (b : UInt8) : Option UInt8 :=
  if 0x30 ≤ b ∧ b ≤ 0x39 then some (b - 0x30)
  else if 0x41 ≤ b ∧ b ≤ 0x46 then some (b - 0x37)
  else if 0x61 ≤ b ∧ b ≤ 0x66 then some (b - 0x57)
  else none

/-- The byte that two hexadecimal digits name. -/
def hexPair? (a b : UInt8) : Option UInt8 := do
  let high ← digit? a
  let low ← digit? b
  return high * 16 + low

/-- The byte that two digits name, or a plus sign and a digit. -/
def signedPair? (a b : UInt8) : Option UInt8 := if a = 0x2B then digit? b else hexPair? a b

/-- What the bytes at a place between quotes stand for, and what is left of them; `none` at the closing quote
and at the end of the text. -/
def unit? (pair? : UInt8 → UInt8 → Option UInt8) : List UInt8 → Option (UInt8 × List UInt8)
  | [] => none
  | 0x22 :: _ => none
  | 0x5C :: 0x5C :: bs => some (0x5C, bs)
  | 0x5C :: a :: b :: bs =>
    match pair? a b with
    | some byte => some (byte, bs)
    | none => some (0x5C, a :: b :: bs)
  | b :: bs => some (b, bs)

/-- From `bs` on, the bytes in front of `rest` stand for `decoded`. -/
inductive Unescapes (pair? : UInt8 → UInt8 → Option UInt8) : List UInt8 → List UInt8 → List UInt8 → Prop
  | nil (bs : List UInt8) : Unescapes pair? bs [] bs
  | cons {bs bs₁ decoded rest : List UInt8} {byte : UInt8} (h : unit? pair? bs = some (byte, bs₁))
      (hrest : Unescapes pair? bs₁ decoded rest) : Unescapes pair? bs (byte :: decoded) rest

/-- Decoding reaches a backslash in front of a plus sign and a digit. -/
def MeetsSign (bs : List UInt8) : Prop :=
  ∃ decoded h rest, Unescapes hexPair? bs decoded (0x5C :: 0x2B :: h :: rest) ∧ (digit? h).isSome

variable {pair? : UInt8 → UInt8 → Option UInt8} {bs mid rest front decoded : List UInt8} {x y byte : UInt8}

theorem unit?_plain (hquote : x ≠ 0x22) (hslash : x ≠ 0x5C) : unit? pair? (x :: bs) = some (x, bs) := by
  rw [unit?]
  all_goals first | exact hquote | simp [hslash]

/-- A backslash that starts no escape stands for itself. -/
theorem unit?_backslash (hslash : ∀ xs, bs ≠ 0x5C :: xs)
    (hpair : ∀ a b xs, bs = a :: b :: xs → pair? a b = none) :
    unit? pair? (0x5C :: bs) = some (0x5C, bs) := by
  unfold unit?
  split
  · next h => cases h
  · next h => cases h
  · next h => exact absurd (List.cons.inj h).2 (hslash _)
  · next h =>
    cases h
    rw [hpair _ _ _ rfl]
  · next h => cases h; rfl

theorem unit?_pair (hx : x ≠ 0x5C) (hpair : pair? x y = some byte) :
    unit? pair? (0x5C :: x :: y :: bs) = some (byte, bs) := by
  rw [unit?, hpair]
  exact hx

/-- Bytes that no escape and no quote has stand for themselves. -/
theorem unescapes_plain (h : ∀ b ∈ front, b ≠ 0x22 ∧ b ≠ 0x5C) : Unescapes pair? (front ++ bs) front bs := by
  induction front with
  | nil => exact .nil bs
  | cons b front ih =>
    obtain ⟨hb, hfront⟩ := List.forall_mem_cons.mp h
    exact .cons (unit?_plain hb.1 hb.2) (ih hfront)

theorem Unescapes.append (h : Unescapes pair? bs front mid) (hrest : Unescapes pair? mid decoded rest) :
    Unescapes pair? bs (front ++ decoded) rest := by
  induction h with
  | nil bs => exact hrest
  | cons hunit _ ih => exact .cons hunit (ih hrest)

/-- What reaches a quote reaches it from everywhere on its way. -/
theorem Unescapes.tail (h : Unescapes pair? bs front mid)
    (hall : Unescapes pair? bs decoded (0x22 :: rest)) :
    ∃ tail, decoded = front ++ tail ∧ Unescapes pair? mid tail (0x22 :: rest) := by
  induction h generalizing decoded with
  | nil bs => exact ⟨decoded, rfl, hall⟩
  | cons hunit _ ih =>
    cases hall with
    | nil => cases hunit
    | cons hunit' hrest =>
      cases hunit.symm.trans hunit'
      obtain ⟨tail, rfl, htail⟩ := ih hrest
      exact ⟨tail, rfl, htail⟩

/-- Only one quote is reached. -/
theorem Unescapes.unique {decoded' rest' : List UInt8} (h : Unescapes pair? bs decoded (0x22 :: rest))
    (h' : Unescapes pair? bs decoded' (0x22 :: rest')) : decoded' = decoded ∧ rest' = rest := by
  obtain ⟨tail, rfl, htail⟩ := h.tail h'
  cases htail with
  | nil => exact ⟨List.append_nil _, rfl⟩
  | cons hunit _ => cases hunit

/-! ## Signs -/

/-- Where there is no sign, it does not matter whether there may be one. -/
theorem unit?_signedPair? (h : ¬ MeetsSign bs) : unit? signedPair? bs = unit? hexPair? bs := by
  unfold unit?
  split
  · rfl
  · rfl
  · rfl
  · next a b bs _ =>
    have hpair : signedPair? a b = hexPair? a b := by
      rw [signedPair?]
      split
      · next ha =>
        subst ha
        cases hb : digit? b with
        | none => rfl
        | some low => exact absurd ⟨[], b, bs, .nil _, hb ▸ rfl⟩ h
      · rfl
    rw [hpair]
  · rfl

theorem MeetsSign.cons (hunit : unit? hexPair? bs = some (byte, mid)) (h : MeetsSign mid) : MeetsSign bs := by
  obtain ⟨decoded, d, rest, hrest, hd⟩ := h
  exact ⟨byte :: decoded, d, rest, .cons hunit hrest, hd⟩

theorem unescapes_signedPair?_iff (h : ¬ MeetsSign bs) :
    Unescapes signedPair? bs decoded rest ↔ Unescapes hexPair? bs decoded rest := by
  constructor
  · intro hall
    induction hall with
    | nil bs => exact .nil bs
    | cons hunit _ ih =>
      rw [unit?_signedPair? h] at hunit
      exact .cons hunit (ih fun hmeets => h (hmeets.cons hunit))
  · intro hall
    induction hall with
    | nil bs => exact .nil bs
    | cons hunit _ ih =>
      refine .cons ?_ (ih fun hmeets => h (hmeets.cons hunit))
      rw [unit?_signedPair? h, hunit]

/-! ## Characters and their bytes -/

variable {c a b : Char} {cs ds : List Char} {used : Nat}

theorem encode_cons (c : Char) (cs : List Char) : encode (c :: cs) = String.utf8EncodeChar c ++ encode cs :=
  List.flatMap_cons

theorem encode_backslash (cs : List Char) : encode ('\\' :: cs) = 0x5C :: encode cs := rfl

/-- A character of one byte is this byte, and the bytes of others are out of its range. -/
theorem utf8EncodeChar_cases (c : Char) :
    (∃ n < 128, c = Char.ofNat n ∧ String.utf8EncodeChar c = [UInt8.ofNat n])
      ∨ 128 ≤ c.toNat ∧ String.utf8EncodeChar c ≠ [] ∧ ∀ b ∈ String.utf8EncodeChar c, 128 ≤ b.toNat := by
  by_cases hc : c.toNat < 128
  · refine .inl ⟨c.toNat, hc, (Char.ofNat_toNat c).symm, ?_⟩
    rw [String.utf8EncodeChar]
    exact if_pos (Nat.le_of_lt_succ hc)
  · refine .inr ⟨Nat.not_lt.mp hc, ?_⟩
    have hmore : ¬ c.val.toNat ≤ 127 := fun h => hc (Nat.lt_succ_of_le h)
    rw [String.utf8EncodeChar]
    simp only [if_neg hmore]
    split
    · simp; omega
    split
    · simp; omega
    · simp; omega

/-- What counts of the first byte of a character. -/
structure FirstByte (c : Char) (x : UInt8) : Prop where
  digit : digit? x = (hexValue? c).map Nat.toUInt8
  sign : x = 0x2B ↔ c = '+'
  slash : x = 0x5C ↔ c = '\\'
  quote : x = 0x22 ↔ c = '"'

theorem firstByte_of_lt {n : Nat} (h : n < 128) : FirstByte (Char.ofNat n) (UInt8.ofNat n) := by
  have hall : ∀ n < 128, digit? (UInt8.ofNat n) = (hexValue? (Char.ofNat n)).map Nat.toUInt8
      ∧ (UInt8.ofNat n = 0x2B ↔ Char.ofNat n = '+') ∧ (UInt8.ofNat n = 0x5C ↔ Char.ofNat n = '\\')
      ∧ (UInt8.ofNat n = 0x22 ↔ Char.ofNat n = '"') := by decide +kernel
  obtain ⟨hdigit, hsign, hslash, hquote⟩ := hall n h
  exact ⟨hdigit, hsign, hslash, hquote⟩

/-- No digit is out of the range of single bytes. -/
theorem hexValue?_of_le (h : 128 ≤ c.toNat) : hexValue? c = none := by
  have hbound : 128 ≤ c.val.toNat := h
  have hdigit : c.isDigit = false := by
    simp only [Char.isDigit, Bool.and_eq_false_imp, decide_eq_true_eq, decide_eq_false_iff_not,
      UInt32.le_iff_toNat_le, ge_iff_le]
    intro _
    simp
    omega
  rw [hexValue?, hdigit, if_neg Bool.false_ne_true, if_neg, if_neg]
  all_goals
    simp only [Char.le_def, UInt32.le_iff_toNat_le]
    simp
    omega

theorem digit?_of_le (h : 128 ≤ x.toNat) : digit? x = none := by
  rw [digit?, if_neg, if_neg, if_neg]
  all_goals
    simp only [UInt8.le_iff_toNat_le]
    simp
    omega

theorem firstByte_of_le (hc : 128 ≤ c.toNat) (hx : 128 ≤ x.toNat) : FirstByte c x := by
  have hne : ∀ {d : Char} {y : UInt8}, d.toNat < 128 → y.toNat < 128 → (x = y ↔ c = d) := by
    intro d y hd hy
    refine iff_of_false ?_ ?_
    · rintro rfl
      omega
    · rintro rfl
      omega
  refine ⟨?_, hne (by decide) (by decide), hne (by decide) (by decide), hne (by decide) (by decide)⟩
  rw [hexValue?_of_le hc, digit?_of_le hx]
  rfl

/-- The first byte of a character tells what it is, and only a character of no meaning has others. -/
theorem exists_firstByte (c : Char) : ∃ x xs, String.utf8EncodeChar c = x :: xs ∧ FirstByte c x
    ∧ (∀ y ∈ xs, y ≠ 0x22 ∧ y ≠ 0x5C) ∧ (xs = [] ∨ hexValue? c = none ∧ c ≠ '+') := by
  rcases utf8EncodeChar_cases c with ⟨n, hn, rfl, hbytes⟩ | ⟨hc, hne, hbytes⟩
  · exact ⟨_, [], hbytes, firstByte_of_lt hn, List.forall_mem_nil _, .inl rfl⟩
  · obtain ⟨x, xs, hxs⟩ := List.exists_cons_of_ne_nil hne
    rw [hxs] at hbytes
    obtain ⟨hx, hrest⟩ := List.forall_mem_cons.mp hbytes
    refine ⟨x, xs, hxs, firstByte_of_le hc hx, fun y hy => ⟨?_, ?_⟩, .inr ⟨hexValue?_of_le hc, ?_⟩⟩
    · rintro rfl
      exact absurd (hrest _ hy) (by decide)
    · rintro rfl
      exact absurd (hrest _ hy) (by decide)
    · rintro rfl
      exact absurd hc (by decide)

/-- Two first bytes name what their characters name. -/
theorem signedPair?_eq (ha : FirstByte a x) (hb : FirstByte b y) : signedPair? x y = escapedByte? a b := by
  rw [signedPair?, hexPair?, escapedByte?, ha.digit, hb.digit]
  by_cases hsign : a = '+'
  · rw [if_pos (ha.sign.mpr hsign)]
    cases hexValue? b with
    | none => rfl
    | some low => exact (if_pos hsign).symm
  · rw [if_neg fun h => hsign (ha.sign.mp h)]
    cases hexValue? b with
    | none => cases hexValue? a <;> rfl
    | some low =>
      refine Eq.trans ?_ (if_neg hsign).symm
      cases hexValue? a with
      | none => rfl
      | some high => simp [Nat.toUInt8]

/-- Characters that no escape and no quote has stand for their bytes. -/
theorem unescapes_char (hquote : c ≠ '"') (hslash : c ≠ '\\') :
    Unescapes pair? (encode (c :: cs)) (String.utf8EncodeChar c) (encode cs) := by
  obtain ⟨x, xs, hbytes, hx, hxs, -⟩ := exists_firstByte c
  rw [encode_cons, hbytes]
  exact unescapes_plain (List.forall_mem_cons.mpr
    ⟨⟨fun h => hquote (hx.quote.mp h), fun h => hslash (hx.slash.mp h)⟩, hxs⟩)

theorem unit?_encode_pair (ha : a ≠ '\\') (h : escapedByte? a b = some byte) :
    unit? signedPair? (encode ('\\' :: a :: b :: cs)) = some (byte, encode cs) := by
  obtain ⟨x, xs, hx, hax, -, hxs⟩ := exists_firstByte a
  obtain ⟨y, ys, hy, hby, -, hys⟩ := exists_firstByte b
  have hpair := (signedPair?_eq hax hby).trans h
  -- The characters of an escape have one byte each.
  obtain rfl : xs = [] := by
    refine hxs.resolve_right fun hno => ?_
    rw [escapedByte?, hno.1] at h
    split at h
    · cases h
    · rw [if_neg hno.2] at h
      cases h
  obtain rfl : ys = [] := by
    refine hys.resolve_right fun hno => ?_
    rw [escapedByte?, hno.1] at h
    cases h
  rw [encode_cons, encode_cons, encode_cons, hx, hy]
  exact unit?_pair (fun hslash => ha (hax.slash.mp hslash)) hpair

theorem unit?_encode_backslash (hslash : ∀ a ds, cs = a :: ds → a ≠ '\\')
    (hpair : ∀ a b ds, cs = a :: b :: ds → escapedByte? a b = none) :
    unit? signedPair? (encode ('\\' :: cs)) = some (0x5C, encode cs) := by
  rw [encode_backslash]
  refine unit?_backslash ?_ ?_
  · intro zs hzs
    cases cs with
    | nil => cases hzs
    | cons a ds =>
      obtain ⟨x, xs, hx, hax, -⟩ := exists_firstByte a
      rw [encode_cons, hx] at hzs
      exact hslash a ds rfl (hax.slash.mp (List.cons.inj hzs).1)
  · intro z z' zs hzs
    cases cs with
    | nil => cases hzs
    | cons a ds =>
      -- A character of more than one byte begins with a byte that is neither a digit nor a sign.
      obtain ⟨x, xs, hx, hax, -, rfl | ⟨hdigit, hsign⟩⟩ := exists_firstByte a
      · cases ds with
        | nil =>
          rw [encode_cons, hx] at hzs
          cases hzs
        | cons b ds =>
          obtain ⟨y, ys, hy, hby, -⟩ := exists_firstByte b
          rw [encode_cons, encode_cons, hx, hy] at hzs
          cases hzs
          rw [signedPair?_eq hax hby, hpair a b ds rfl]
      · rw [encode_cons, hx] at hzs
        obtain ⟨rfl, -⟩ := List.cons.inj hzs
        rw [signedPair?, if_neg fun h => hsign (hax.sign.mp h), hexPair?, hax.digit, hdigit]
        rfl

/-! ## Reading quoted text -/

/-- Quoted text that is not closed here is read some characters further on, and these stand for the bytes that
are put in front. -/
theorem readQuoted_cons (hquote : c ≠ '"') : ∃ front used, 0 < used ∧ used ≤ (c :: cs).length
    ∧ readQuoted (c :: cs) = (readQuoted ((c :: cs).drop used)).map (prepend front used)
    ∧ Unescapes signedPair? (encode (c :: cs)) front (encode ((c :: cs).drop used)) := by
  by_cases hslash : c = '\\'
  · subst hslash
    -- A backslash is doubled, or written in front of two digits, or stands for itself.
    by_cases hdouble : ∃ ds, cs = '\\' :: ds
    · obtain ⟨ds, rfl⟩ := hdouble
      exact ⟨[0x5C], 2, by decide, by simp, by rw [readQuoted]; rfl, .cons rfl (.nil _)⟩
    have hne : ∀ a ds, cs = a :: ds → a ≠ '\\' := fun a ds hcs ha => hdouble ⟨ds, ha ▸ hcs⟩
    by_cases hpair : ∃ a b ds byte, cs = a :: b :: ds ∧ escapedByte? a b = some byte
    · obtain ⟨a, b, ds, byte, rfl, hbyte⟩ := hpair
      refine ⟨[byte], 3, by decide, by simp, ?_, .cons (unit?_encode_pair (hne a _ rfl) hbyte) (.nil _)⟩
      rw [readQuoted, hbyte]
      · rfl
      · exact hne a _ rfl
    · have hnone : ∀ a b ds, cs = a :: b :: ds → escapedByte? a b = none := fun a b ds hcs =>
        Option.eq_none_iff_forall_ne_some.mpr fun byte hbyte => hpair ⟨a, b, ds, byte, hcs, hbyte⟩
      refine ⟨[0x5C], 1, by decide, by simp, ?_, .cons (unit?_encode_backslash hne hnone) (.nil _)⟩
      cases cs with
      | nil => rfl
      | cons a ds => exact readQuoted_backslash (hne a ds rfl) fun b es hds => hnone a b es (hds ▸ rfl)
  · refine ⟨_, 1, by decide, by simp, ?_, unescapes_char hquote hslash⟩
    rw [readQuoted]
    · rfl
    all_goals first | exact hquote | simp [hslash]

/-- What is read is what the bytes up to the first quote stand for, and where there is none nothing is read. -/
theorem readQuoted_spec (cs : List Char) :
    (∀ bytes used, readQuoted cs = some (bytes, used) → ∃ front behind, cs = front ++ '"' :: behind
      ∧ used = front.length + 1 ∧ Unescapes signedPair? (encode cs) bytes (0x22 :: encode behind))
    ∧ (readQuoted cs = none → ∀ bytes rest, ¬ Unescapes signedPair? (encode cs) bytes (0x22 :: rest)) := by
  -- An escape takes three characters at once, so the induction is on the length of what is left.
  induction hn : cs.length using Nat.strongRecOn generalizing cs with
  | ind n ih =>
    cases cs with
    | nil =>
      refine ⟨fun _ _ h => (nomatch h), fun _ bytes rest h => ?_⟩
      cases h with
      | cons hunit _ => cases hunit
    | cons c cs =>
      by_cases hquote : c = '"'
      · subst hquote
        refine ⟨fun bytes used h => ?_, fun h => ?_⟩
        · rw [readQuoted] at h
          cases h
          exact ⟨[], cs, rfl, rfl, .nil _⟩
        · rw [readQuoted] at h
          cases h
      obtain ⟨front, used, hpos, hle, hread, hfront⟩ := @readQuoted_cons c cs hquote
      obtain ⟨hsome, hnone⟩ := ih _ (by rw [← hn, List.length_drop]; omega) ((c :: cs).drop used) rfl
      rw [hread]
      refine ⟨fun bytes all h => ?_, fun h bytes rest hall => ?_⟩
      · obtain ⟨⟨bytes', used'⟩, hrest, hprepend⟩ := Option.map_eq_some_iff.mp h
        rw [prepend, Prod.mk.injEq] at hprepend
        obtain ⟨rfl, rfl⟩ := hprepend
        obtain ⟨front', behind, hcs, rfl, htail⟩ := hsome _ _ hrest
        refine ⟨(c :: cs).take used ++ front', behind, ?_, ?_, hfront.append htail⟩
        · rw [List.append_assoc, ← hcs, List.take_append_drop]
        · rw [List.length_append, List.length_take_of_le hle, Nat.add_assoc]
      · obtain ⟨tail, -, htail⟩ := hfront.tail hall
        exact hnone (Option.map_eq_none_iff.mp h) tail rest htail

/-- **Quoted text is read up to the first quote that decoding reaches**, and as the bytes that it stands for. -/
theorem readQuoted_of_unescapes {bytes : List UInt8}
    (h : Unescapes signedPair? (encode cs) bytes (0x22 :: rest)) : ∃ front behind,
    cs = front ++ '"' :: behind ∧ encode behind = rest ∧ readQuoted cs = some (bytes, front.length + 1) := by
  obtain ⟨hsome, hnone⟩ := readQuoted_spec cs
  cases hread : readQuoted cs with
  | none => exact absurd h (hnone hread bytes rest)
  | some reading =>
    obtain ⟨front, behind, hcs, hused, hreading⟩ := hsome _ _ hread
    obtain ⟨hbytes, hrest⟩ := h.unique hreading
    refine ⟨front, behind, hcs, hrest, ?_⟩
    rw [← hbytes, ← hused]

/-- Reading fails where decoding reaches no quote. -/
theorem readQuoted_eq_none (h : ∀ bytes rest, ¬ Unescapes signedPair? (encode cs) bytes (0x22 :: rest)) :
    readQuoted cs = none := by
  cases hread : readQuoted cs with
  | none => rfl
  | some reading =>
    obtain ⟨front, behind, -, -, hreading⟩ := (readQuoted_spec cs).1 _ _ hread
    exact absurd hreading (h _ _)

end IrRecords.Text
