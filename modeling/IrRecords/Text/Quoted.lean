/-!
# Names and quoted text

A name is written bare if it is made of name characters and does not start with a digit, and
between double quotes otherwise. Inside the quotes a byte that is not plain printable ASCII, the
quote and the backslash are written as a backslash and two hexadecimal digits.

Reading is more generous than writing: two backslashes are one, a backslash and two hexadecimal
digits are that byte, and a backslash in front of anything else stands for itself. A sign `+` and
one digit are also a numeral of two places. Reading works on the text behind the opening quote and
answers the bytes together with the number of characters used, closing quote included.
-/

namespace IrRecords.Text

/-- The characters of bare names. -/
def isNameChar (c : Char) : Bool :=
  c.isAlphanum || c == '-' || c == '$' || c == '.' || c == '_'

/-- Whether `name` is written without quotes. -/
def isBare (name : List Char) : Bool :=
  match name with
  | [] => false
  | c :: _ => !c.isDigit && name.all isNameChar

/-- The upper-case hexadecimal digit of a number below sixteen. -/
def hexDigit (n : Nat) : Char :=
  if n < 10 then Char.ofNat (48 + n) else Char.ofNat (55 + n)

/-- The value of a hexadecimal digit of either case. -/
def hexValue? (c : Char) : Option Nat :=
  if c.isDigit then some (c.toNat - 48)
  else if 'a' ≤ c ∧ c ≤ 'f' then some (c.toNat - 87)
  else if 'A' ≤ c ∧ c ≤ 'F' then some (c.toNat - 55)
  else none

/-- Whether a byte between quotes stands for itself. -/
def isPlainByte (b : UInt8) : Bool :=
  0x20 ≤ b && b < 0x7F && b != 0x22 && b != 0x5C

/-- One byte of a quoted name. -/
def escapeByte (b : UInt8) : List Char :=
  if isPlainByte b then [Char.ofNat b.toNat]
  else ['\\', hexDigit (b.toNat / 16), hexDigit (b.toNat % 16)]

/-- A name as it is written behind a sigil. -/
def quoteName (name : String) : String :=
  if isBare name.toList then name
  else
    let bytes := name.toList.flatMap String.utf8EncodeChar
    String.ofList ('"' :: bytes.flatMap escapeByte ++ ['"'])

/-- The byte that the two characters behind a backslash name. -/
def escapedByte? (a b : Char) : Option UInt8 :=
  match hexValue? b with
  | none => none
  | some low =>
    -- A sign in place of the first digit adds nothing to the value.
    if a = '+' then some low.toUInt8 else (hexValue? a).map fun high => (high * 16 + low).toUInt8

/-- Puts `bytes` in front of a reading that starts `used` characters further on. -/
def prepend (bytes : List UInt8) (used : Nat) (r : List UInt8 × Nat) : List UInt8 × Nat :=
  (bytes ++ r.1, used + r.2)

/-- Reads quoted text from behind its opening quote; `none` if the closing quote is missing. -/
def readQuoted : List Char → Option (List UInt8 × Nat)
  | [] => none
  | '"' :: _ => some ([], 1)
  | '\\' :: '\\' :: cs => (readQuoted cs).map (prepend [0x5C] 2)
  | '\\' :: a :: b :: cs =>
    match escapedByte? a b with
    | some byte => (readQuoted cs).map (prepend [byte] 3)
    -- Only the backslash is used up: `a` may be the closing quote.
    | none => (readQuoted (a :: b :: cs)).map (prepend [0x5C] 1)
  | c :: cs => (readQuoted cs).map (prepend (String.utf8EncodeChar c) 1)

end IrRecords.Text
