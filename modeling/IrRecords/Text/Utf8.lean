/-!
# Bytes of a text

Escapes inside quoted text name bytes, not characters, so the decoded form of a quoted text is a
list of bytes. Two readings of such a list are needed. A name has to be a text: `decode?` refuses
bytes that are not well-formed UTF-8. A string literal may hold any bytes: `decodeLossy` shows
each maximal ill-formed part as one replacement character.

A part is maximal in the sense of the Unicode standard: it is the longest beginning of some
well-formed sequence that the bytes at that point offer, or one byte if they offer none. The range
of the second byte depends on the first (`Lead`), and that is what keeps overlong forms,
surrogates and values above U+10FFFF out.
-/

namespace IrRecords.Utf8

/-- The UTF-8 bytes of `cs`. -/
def encode (cs : List Char) : List UInt8 := cs.flatMap String.utf8EncodeChar

/-- The text whose bytes are `bs`, if there is one. -/
def decode? (bs : List UInt8) : Option String := String.fromUTF8? ⟨bs.toArray⟩

/-- What the first byte of a sequence announces. -/
structure Lead where
  /-- The bits of the scalar value that the first byte itself carries. -/
  bits : Nat
  /-- How many bytes have to follow. -/
  more : Nat
  /-- The least second byte. -/
  low : UInt8
  /-- The greatest second byte. -/
  high : UInt8

/-- Reads a first byte; `none` if no well-formed sequence starts with it. -/
def lead? (b : UInt8) : Option Lead :=
  if b < 0x80 then some ⟨b.toNat, 0, 0x80, 0xBF⟩
  -- Bytes that only continue a sequence, and those that would begin overlong forms.
  else if b < 0xC2 then none
  else if b < 0xE0 then some ⟨b.toNat - 0xC0, 1, 0x80, 0xBF⟩
  else if b = 0xE0 then some ⟨0, 2, 0xA0, 0xBF⟩
  -- Surrogates are above this range.
  else if b = 0xED then some ⟨0xD, 2, 0x80, 0x9F⟩
  else if b < 0xF0 then some ⟨b.toNat - 0xE0, 2, 0x80, 0xBF⟩
  else if b = 0xF0 then some ⟨0, 3, 0x90, 0xBF⟩
  else if b < 0xF4 then some ⟨b.toNat - 0xF0, 3, 0x80, 0xBF⟩
  else if b = 0xF4 then some ⟨4, 3, 0x80, 0x8F⟩
  else none

/-- Reads `more` further bytes, the first of them between `low` and `high`. Answers the scalar
value, if all of them were there, and how many bytes fitted. -/
def follow (more : Nat) (low high : UInt8) (bits : Nat) (bs : List UInt8) : Option Nat × Nat :=
  match more, bs with
  | 0, _ => (some bits, 0)
  | _ + 1, [] => (none, 0)
  | more + 1, b :: rest =>
    if low ≤ b ∧ b ≤ high then
      let (value, taken) := follow more 0x80 0xBF (bits * 64 + (b.toNat - 0x80)) rest
      (value, taken + 1)
    else (none, 0)

/-- Stands for bytes that are no text. -/
def replacement : Char := '\uFFFD'

/-- The characters of `bs`, a replacement character for each maximal ill-formed part. -/
def decodeLossy (bs : List UInt8) : List Char :=
  match bs with
  | [] => []
  | b :: rest =>
    match lead? b with
    | none => replacement :: decodeLossy rest
    | some lead =>
      let (value, taken) := follow lead.more lead.low lead.high lead.bits rest
      (value.map Char.ofNat).getD replacement :: decodeLossy (rest.drop taken)
termination_by bs.length

end IrRecords.Utf8
