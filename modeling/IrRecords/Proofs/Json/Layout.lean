import IrRecords.Proofs.Json.Reading
import IrRecords.Text.Utf8

/-!
# The two layouts

The pretty layout differs from the compact one by blanks outside of strings only. Where a string
starts and ends can be told from the bytes alone: quotes and backslashes inside of strings are
escaped, and the bytes of a character beyond ASCII are all beyond ASCII. So blanks can be taken out
of a row of documents byte by byte (`squeeze`), and what this makes of a row of texts it makes of
each of them (`Squeezes.append`), which is how the two writers are compared, piece by piece.

The compact layout has no line breaks, in strings or outside of them.
-/

namespace IrRecords

/-! ## Bytes of characters -/

namespace Utf8

theorem encode_append (cs ds : List Char) : encode (cs ++ ds) = encode cs ++ encode ds :=
  List.flatMap_append

/-- An ASCII character is one byte. -/
theorem encodeChar_ascii {c : Char} (h : c.toNat < 0x80) :
    String.utf8EncodeChar c = [UInt8.ofNat c.toNat] := if_pos (Nat.le_of_lt_succ h)

/-- The bytes of every other character are beyond ASCII. -/
theorem encodeChar_beyond {c : Char} (h : 0x80 ≤ c.toNat) :
    ∀ b ∈ String.utf8EncodeChar c, 0x80 ≤ b.toNat := by
  have hbyte : ∀ n, 0x80 ≤ n → n < 0x100 → 0x80 ≤ (UInt8.ofNat n).toNat := by
    intro n hlow hhigh
    rwa [UInt8.toNat_ofNat', Nat.mod_eq_of_lt hhigh]
  change 0x80 ≤ c.val.toNat at h
  unfold String.utf8EncodeChar
  generalize c.val.toNat = v at h
  dsimp only
  rw [if_neg (by omega)]
  -- As many bytes as it takes, each a part of the code and a mark above it.
  split
  · simp only [List.forall_mem_cons]
    exact ⟨hbyte _ (by omega) (by omega), hbyte _ (by omega) (by omega), by simp⟩
  split
  · simp only [List.forall_mem_cons]
    exact ⟨hbyte _ (by omega) (by omega), hbyte _ (by omega) (by omega),
      hbyte _ (by omega) (by omega), by simp⟩
  · simp only [List.forall_mem_cons]
    exact ⟨hbyte _ (by omega) (by omega), hbyte _ (by omega) (by omega),
      hbyte _ (by omega) (by omega), hbyte _ (by omega) (by omega), by simp⟩

/-- An ASCII byte stands for its character. -/
theorem mem_of_mem_encode {c : Char} {cs : List Char} (hc : c.toNat < 0x80)
    (h : UInt8.ofNat c.toNat ∈ encode cs) : c ∈ cs := by
  have hbyte : (UInt8.ofNat c.toNat).toNat = c.toNat := by
    rw [UInt8.toNat_ofNat', Nat.mod_eq_of_lt (by omega)]
  obtain ⟨d, hd, hmem⟩ := List.mem_flatMap.mp h
  rcases Nat.lt_or_ge d.toNat 0x80 with hascii | hbeyond
  · rw [encodeChar_ascii hascii, List.mem_singleton] at hmem
    have hsame : c.toNat = d.toNat := by
      rw [← hbyte, hmem, UInt8.toNat_ofNat', Nat.mod_eq_of_lt (by omega)]
    rwa [← Char.ofNat_toNat c, hsame, Char.ofNat_toNat]
  · have := encodeChar_beyond hbeyond _ hmem
    omega

end Utf8

namespace Json

/-! ## Taking out blanks -/

/-- Where a byte stands in a row of documents. -/
inductive Place where
  | outside
  /-- In a string. -/
  | inside
  /-- In a string, behind the backslash of an escape. -/
  | escaped
  deriving DecidableEq

/-- The place behind a byte. -/
def Place.next (p : Place) (b : UInt8) : Place :=
  match p with
  | outside => if b = 0x22 then inside else outside
  | inside => if b = 0x22 then outside else if b = 0x5C then escaped else inside
  | escaped => inside

/-- The white space of documents: blank, tabulator, line feed and carriage return. -/
def isSpace (b : UInt8) : Bool := b == 0x20 || b == 0x09 || b == 0x0A || b == 0x0D

/-- Takes out the white space outside of strings. The bytes start at `p`. -/
def squeeze (p : Place) : List UInt8 → List UInt8
  | [] => []
  | b :: bs => if p = .outside ∧ isSpace b then squeeze p bs else b :: squeeze (p.next b) bs

/-- Taking out white space makes `out` of the text `s`, whatever stands behind it. -/
def Squeezes (s out : String) : Prop := ∀ rest,
  squeeze .outside (Utf8.encode s.toList ++ rest) = Utf8.encode out.toList ++ squeeze .outside rest

theorem Squeezes.append {s t out out' : String} (hs : Squeezes s out) (ht : Squeezes t out') :
    Squeezes (s ++ t) (out ++ out') := by
  intro rest
  rw [String.toList_append, String.toList_append, Utf8.encode_append, Utf8.encode_append,
    List.append_assoc, hs, ht, List.append_assoc]

/-- Texts that are taken out. -/
theorem Squeezes.blank_append {s t out : String} (hs : Squeezes s "") (ht : Squeezes t out) :
    Squeezes (s ++ t) out := by
  rw [← String.empty_append (s := out)]
  exact hs.append ht

theorem Squeezes.append_blank {s t out : String} (hs : Squeezes s out) (ht : Squeezes t "") :
    Squeezes (s ++ t) out := by
  rw [← String.append_empty (s := out)]
  exact hs.append ht

/-- The marks of the compact layout stay. -/
theorem squeezes_mark : ∀ s ∈ ["[", "]", "\x7b", "\x7d", ",", ":"], Squeezes s s := by
  simp only [List.forall_mem_cons]
  exact ⟨fun _ => rfl, fun _ => rfl, fun _ => rfl, fun _ => rfl, fun _ => rfl, fun _ => rfl,
    fun _ h => absurd h List.not_mem_nil⟩

/-- The colon of the pretty layout has a blank behind it. -/
theorem squeezes_colon : Squeezes ": " ":" := fun _ => rfl

/-- A line break and an indentation are taken out. -/
theorem squeezes_newline (level : Nat) : Squeezes (newline level) "" := by
  intro rest
  rw [newline, String.toList_ofList]
  change squeeze .outside (0x0A :: (Utf8.encode (List.replicate (2 * level) ' ') ++ rest)) = _
  generalize 2 * level = n
  rw [squeeze, if_pos (by decide)]
  induction n with
  | zero => rfl
  | succ n ih =>
    change squeeze .outside (0x20 :: (Utf8.encode (List.replicate n ' ') ++ rest)) = _
    rw [squeeze, if_pos (by decide), ih]

/-! ### Strings -/

/-- Inside of a string bytes stay there that neither close it nor start an escape. -/
theorem squeeze_inside {bs : List UInt8} (hquote : 0x22 ∉ bs) (hslash : 0x5C ∉ bs)
    (rest : List UInt8) : squeeze .inside (bs ++ rest) = bs ++ squeeze .inside rest := by
  induction bs with
  | nil => rfl
  | cons b bs ih =>
    rw [List.mem_cons, not_or] at hquote hslash
    have hnext : Place.next .inside b = .inside := by
      rw [Place.next, if_neg (Ne.symm hquote.1), if_neg (Ne.symm hslash.1)]
    rw [List.cons_append, squeeze, if_neg (fun h => nomatch h.1), hnext, ih hquote.2 hslash.2]
    rfl

/-- Behind a backslash every byte stays. -/
theorem squeeze_escape (b : UInt8) (rest : List UInt8) :
    squeeze .inside (0x5C :: b :: rest) = 0x5C :: b :: squeeze .inside rest := by
  have hnext : Place.next .inside 0x5C = .escaped := rfl
  rw [squeeze, if_neg (by decide), hnext, squeeze, if_neg (fun h => nomatch h.1)]
  rfl

/-- A character of a string stays, escaped or not. -/
theorem squeeze_escapeChar (c : Char) (rest : List UInt8) :
    squeeze .inside (Utf8.encode (escapeChar c) ++ rest)
      = Utf8.encode (escapeChar c) ++ squeeze .inside rest := by
  rcases escapeChar_cases c with ⟨d, hd, hescape, _⟩ | ⟨hcontrol, hescape⟩
    | ⟨_, hquote, hslash, hescape⟩
  · have hletter : ∀ d ∈ escapeLetters, Utf8.encode ['\\', d] = [0x5C, UInt8.ofNat d.toNat] :=
      forall_escapeLetters (by decide)
    rw [hescape, hletter d hd]
    exact squeeze_escape _ rest
  · -- Behind the backslash and its letter there are digits.
    have hdigits : ∀ n < 0x20,
        0x22 ∉ Utf8.encode ['0', '0', Nat.digitChar (n / 16), Nat.digitChar (n % 16)]
        ∧ 0x5C ∉ Utf8.encode ['0', '0', Nat.digitChar (n / 16), Nat.digitChar (n % 16)] := by decide
    obtain ⟨hquote, hslash⟩ := hdigits c.toNat hcontrol
    rw [hescape]
    exact (squeeze_escape _ _).trans
      (congrArg (0x5C :: 0x75 :: ·) (squeeze_inside hquote hslash rest))
  · rw [hescape]
    refine squeeze_inside (fun h => hquote ?_) (fun h => hslash ?_) rest
    · exact (List.mem_singleton.mp (Utf8.mem_of_mem_encode (c := '"') (by decide) h)).symm
    · exact (List.mem_singleton.mp (Utf8.mem_of_mem_encode (c := '\\') (by decide) h)).symm

/-- A string stays. -/
theorem squeezes_quote (s : String) : Squeezes (quote s) (quote s) := by
  intro rest
  have hchars : ∀ cs rest, squeeze .inside (Utf8.encode (List.flatMap escapeChar cs) ++ rest)
      = Utf8.encode (List.flatMap escapeChar cs) ++ squeeze .inside rest := by
    intro cs rest
    induction cs with
    | nil => rfl
    | cons c cs ih =>
      rw [List.flatMap_cons, Utf8.encode_append, List.append_assoc, squeeze_escapeChar, ih,
        List.append_assoc]
  rw [toList_quote, ← List.singleton_append, Utf8.encode_append, Utf8.encode_append,
    List.append_assoc, List.append_assoc, List.append_assoc, List.append_assoc]
  change squeeze .outside (0x22 :: (Utf8.encode (List.flatMap escapeChar s.toList) ++ 0x22 :: rest))
    = 0x22 :: (Utf8.encode (List.flatMap escapeChar s.toList) ++ (0x22 :: squeeze .outside rest))
  rw [squeeze, if_neg (by decide)]
  change 0x22 :: squeeze .inside _ = _
  rw [hchars, squeeze, if_neg (by decide)]
  rfl

/-! ### Documents -/

/-- The elements of a list, if each of them becomes compact. -/
theorem squeezes_prettyItems {items : List Json} {level : Nat}
    (h : ∀ item ∈ items, Squeezes (prettyAt level item) (compact item)) :
    Squeezes (prettyItems level items) (compactItems items) := by
  have hcomma : Squeezes "," "," := squeezes_mark "," (by simp)
  induction items with
  | nil => exact fun _ => rfl
  | cons item items ih =>
    obtain ⟨hitem, hitems⟩ := List.forall_mem_cons.mp h
    have hline := (squeezes_newline level).blank_append hitem
    cases items with
    | nil => exact hline
    | cons next items =>
      rw [prettyItems, compactItems]
      · exact (hline.append hcomma).append (ih hitems)
      all_goals exact List.cons_ne_nil _ _

/-- The fields of an object, if each value becomes compact. -/
theorem squeezes_prettyFields {fields : List (String × Json)} {level : Nat}
    (h : ∀ field ∈ fields, Squeezes (prettyAt level field.2) (compact field.2)) :
    Squeezes (prettyFields level fields) (compactFields fields) := by
  have hcomma : Squeezes "," "," := squeezes_mark "," (by simp)
  induction fields with
  | nil => exact fun _ => rfl
  | cons field fields ih =>
    obtain ⟨key, value⟩ := field
    obtain ⟨hvalue, hfields⟩ := List.forall_mem_cons.mp h
    have hline := (((squeezes_newline level).blank_append (squeezes_quote key)).append
      squeezes_colon).append hvalue
    cases fields with
    | nil => exact hline
    | cons next fields =>
      rw [prettyFields, compactFields]
      · exact (hline.append hcomma).append (ih hfields)
      all_goals exact List.cons_ne_nil _ _

/-- **The layouts differ by white space outside of strings.** -/
theorem squeezes_prettyAt (j : Json) (level : Nat) : Squeezes (prettyAt level j) (compact j) := by
  induction j using induction_on generalizing level with
  | str s =>
    rw [prettyAt, compact]
    exact squeezes_quote s
  | arr items ih =>
    cases items with
    | nil =>
      rw [prettyAt, compact, compactItems]
      exact fun _ => rfl
    | cons item items =>
      have hitems := squeezes_prettyItems fun item hitem => ih item hitem (level + 1)
      rw [prettyAt, compact]
      · exact (((squeezes_mark "[" (by simp)).append hitems).append_blank
          (squeezes_newline level)).append (squeezes_mark "]" (by simp))
      · exact List.cons_ne_nil _ _
  | obj fields ih =>
    cases fields with
    | nil =>
      rw [prettyAt, compact, compactFields]
      exact fun _ => rfl
    | cons field fields =>
      have hfields := squeezes_prettyFields fun field hfield => ih field hfield (level + 1)
      rw [prettyAt, compact]
      · exact (((squeezes_mark "\x7b" (by simp)).append hfields).append_blank
          (squeezes_newline level)).append (squeezes_mark "\x7d" (by simp))
      · exact List.cons_ne_nil _ _

/-! ## Lines -/

theorem newline_not_mem_quote (s : String) : '\n' ∉ (quote s).toList := by
  have hescape : ∀ c, '\n' ∉ escapeChar c := by
    intro c
    rcases escapeChar_cases c with ⟨d, hd, hescape, _⟩ | ⟨hcontrol, hescape⟩
      | ⟨hblank, _, _, hescape⟩
    · have hletter : ∀ d ∈ escapeLetters, '\n' ∉ ['\\', d] := forall_escapeLetters (by decide)
      rw [hescape]
      exact hletter d hd
    · have hdigits : ∀ n < 0x20, '\n' ∉ ['\\', 'u', '0', '0', Nat.digitChar (n / 16),
          Nat.digitChar (n % 16)] := by decide
      rw [hescape]
      exact hdigits c.toNat hcontrol
    · rw [hescape, List.mem_singleton]
      rintro rfl
      exact absurd hblank (by decide)
  intro h
  rw [toList_quote, List.mem_cons, List.mem_append, List.mem_singleton, List.mem_flatMap] at h
  rcases h with h | ⟨c, _, h⟩ | h
  · exact absurd h (by decide)
  · exact hescape c h
  · exact absurd h (by decide)

/-- **The compact layout has no line breaks.** -/
theorem newline_not_mem_compact (j : Json) : '\n' ∉ (compact j).toList := by
  induction j using induction_on with
  | str s =>
    rw [compact]
    exact newline_not_mem_quote s
  | arr items ih =>
    -- `induction_on` speaks of all items at once; the row of them is walked here.
    have hitems : '\n' ∉ (compactItems items).toList := by
      induction items with
      | nil => exact List.not_mem_nil
      | cons item items ihitems =>
        obtain ⟨hitem, hrest⟩ := List.forall_mem_cons.mp ih
        cases items with
        | nil => exact hitem
        | cons next items => simp [toList_compactItems_cons, hitem, ihitems hrest]
    simp [toList_compact_arr, hitems]
  | obj fields ih =>
    have hfields : '\n' ∉ (compactFields fields).toList := by
      induction fields with
      | nil => exact List.not_mem_nil
      | cons field fields ihfields =>
        obtain ⟨key, value⟩ := field
        obtain ⟨hvalue, hrest⟩ := List.forall_mem_cons.mp ih
        have hfield : '\n' ∉ (compactFields [(key, value)]).toList := by
          simp [toList_compactFields_singleton, newline_not_mem_quote, hvalue]
        cases fields with
        | nil => exact hfield
        | cons next fields => simp [toList_compactFields_cons, hfield, ihfields hrest]
    simp [toList_compact_obj, hfields]

end Json

end IrRecords
