import IrRecords.Diagnostic
import IrRecords.Token.Basic

/-!
# Cutting a text into tokens

A text is cut from the left. In front of each token there is a gap (`gapLength`), and what the
token is depends on its first character and the text behind it (`lexeme`). Both answer how many
characters they cover, never the text that is left: so nothing can be lost or doubled, every cut
makes the text shorter, and positions follow from the characters cut off.
-/

namespace IrRecords.Token

/-! ## Gaps -/

/-- How many of the leading characters are blanks and comments; `comment` tells whether the text
starts inside a comment. A comment ends in front of the line break. -/
def gapFrom (comment : Bool) : List Char → Nat
  | [] => 0
  | c :: cs =>
    if c == '\n' then gapFrom false cs + 1
    else if comment then gapFrom true cs + 1
    else if c == ';' then gapFrom true cs + 1
    else if c == ' ' || c == '\t' || c == '\r' then gapFrom false cs + 1
    else 0

/-- The length of the gap at the start of a text. -/
def gapLength (cs : List Char) : Nat := gapFrom false cs

/-! ## Numerals -/

/-- How many characters at the start satisfy `p`. -/
def runLength (p : Char → Bool) (cs : List Char) : Nat := (cs.takeWhile p).length

/-- The digits of hexadecimal numerals, and the letters that tell their format. -/
def isHexNumeralChar (c : Char) : Bool :=
  (Text.hexValue? c).isSome || c == 'K' || c == 'L' || c == 'M' || c == 'H' || c == 'R'

/-- The length of a fraction: a point and at least one digit. -/
def fractionLength : List Char → Nat
  | '.' :: cs =>
    match runLength Char.isDigit cs with
    | 0 => 0
    | n + 1 => n + 2
  | _ => 0

/-- The length of the digits of an exponent, with `sign` characters and the letter before them. -/
def exponentDigits (sign : Nat) (cs : List Char) : Nat :=
  match runLength Char.isDigit cs with
  | 0 => 0
  | n + 1 => n + 1 + sign + 1

/-- The length of an exponent: the letter, a sign or none, and at least one digit. -/
def exponentLength : List Char → Nat
  | c :: s :: cs =>
    if c == 'e' || c == 'E' then
      if s == '+' || s == '-' then exponentDigits 1 cs else exponentDigits 0 (s :: cs)
    else 0
  | _ => 0

/-- Whether a numeral without sign is a float, and its length. -/
def numeral : List Char → Bool × Nat
  -- Hexadecimal numerals are floats, whatever follows the two characters.
  | '0' :: 'x' :: cs => (true, runLength isHexNumeralChar cs + 2)
  | cs =>
    let digits := runLength Char.isDigit cs
    let fraction := fractionLength (cs.drop digits)
    let exponent := exponentLength (cs.drop (digits + fraction))
    (fraction + exponent != 0, digits + fraction + exponent)

/-- The kind of a numeral with the text `cs`. -/
def numeralKind (isFloat : Bool) (cs : List Char) : TokenKind :=
  if isFloat then .float (String.ofList cs) else .int (String.ofList cs)

/-! ## Single tokens -/

/-- The kinds of the tokens of one character. -/
def punctuation? : Char → Option TokenKind
  | '=' => some .equal
  | ',' => some .comma
  | '*' => some .star
  | '(' => some (.opener .round)
  | ')' => some (.closer .round)
  | '[' => some (.opener .square)
  | ']' => some (.closer .square)
  | '{' => some (.opener .curly)
  | '}' => some (.closer .curly)
  | '<' => some (.opener .angle)
  | '>' => some (.closer .angle)
  | _ => none

/-- The name that the bytes of a quoted text make. -/
def nameOf (bytes : List UInt8) : Except Fault String :=
  match Utf8.decode? bytes with
  | some name => .ok name
  | none => .error .nameNotUtf8

/-- The text of a string literal. -/
def literalOf (bytes : List UInt8) : String := String.ofList (Utf8.decodeLossy bytes)

/-- Quoted text from behind its opening quote. -/
def quoted (cs : List Char) : Except Fault (List UInt8 × Nat) :=
  match Text.readQuoted cs with
  | some reading => .ok reading
  | none => .error .unterminatedString

/-- What stands behind a sigil, and how many characters it has. -/
def reference (sigil : Char) : List Char → Except Fault (Ident × Nat)
  | [] => .error (.nameMissing sigil)
  | '"' :: cs => do
    let (bytes, used) ← quoted cs
    return (.named (← nameOf bytes), used + 1)
  | c :: cs =>
    if c.isDigit then
      let digits := (c :: cs).takeWhile Char.isDigit
      match Text.decimal? Text.bound32 digits with
      | some number => .ok (.slot number, digits.length)
      | none => .error (.numberTooLarge (String.ofList digits))
    else if Text.isNameChar c then
      let name := (c :: cs).takeWhile Text.isNameChar
      .ok (.named (String.ofList name), name.length)
    else .error (.nameMissing sigil)

/-- A word of `used + 1` characters or, if a colon follows it, a label. -/
def wordOrLabel (c : Char) (cs : List Char) (used : Nat) : TokenKind × Nat :=
  let text := String.ofList (c :: cs.take used)
  if (cs.drop used).head? = some ':' then (.label text, used + 1) else (.word text, used)

/-- The token that starts with `c` in front of `cs`, and how many characters of `cs` belong to
it. -/
def lexeme (c : Char) (cs : List Char) : Except Fault (TokenKind × Nat) :=
  match punctuation? c with
  | some kind => .ok (kind, 0)
  | none =>
    if c = '.' ∧ ['.', '.'].isPrefixOf cs then .ok (.ellipsis, 2)
    else if c = '%' then do
      let (id, used) ← reference c cs
      return (.localRef id, used)
    else if c = '@' then do
      let (id, used) ← reference c cs
      return (.globalRef id, used)
    else if c = '!' then
      let name := cs.takeWhile fun d => Text.isNameChar d || d == '\\'
      if name.isEmpty then .ok (.bang, 0)
      else .ok (.metadata (String.ofList name), name.length)
    else if c = '#' then
      let name := cs.takeWhile Text.isNameChar
      .ok (.hash (String.ofList name), name.length)
    else if c = '"' then do
      let (bytes, used) ← quoted cs
      if (cs.drop used).head? = some ':' then return (.label (← nameOf bytes), used + 1)
      else return (.str (literalOf bytes), used)
    -- The letter would be a word by itself.
    else if c = 'c' ∧ cs.head? = some '"' then do
      let (bytes, used) ← quoted (cs.drop 1)
      return (.chars (literalOf bytes), used + 1)
    -- Any other dash is left to the words.
    else if c = '-' ∧ (cs.head?.map Char.isDigit).getD false then
      let (isFloat, used) := numeral cs
      .ok (numeralKind isFloat (c :: cs.take used), used)
    else if c.isDigit then
      -- In front of a colon digits are a label.
      let digits := runLength Char.isDigit cs
      if (cs.drop digits).head? = some ':' then
        .ok (.label (String.ofList (c :: cs.take digits)), digits + 1)
      else
        let (isFloat, used) := numeral (c :: cs)
        .ok (numeralKind isFloat ((c :: cs).take used), used - 1)
    else if Text.isNameChar c then .ok (wordOrLabel c cs (runLength Text.isNameChar cs))
    else .ok (.other c, 0)

/-! ## Whole texts -/

/-- A text cut into tokens: all but the last, and the end of the text. -/
structure Stream where
  tokens : List Token
  stop : Token
  deriving Repr

/-- Puts a token in front of a stream. -/
def Stream.cons (t : Token) (s : Stream) : Stream := { s with tokens := t :: s.tokens }

/-- Cuts the text `cs`, which starts at `p`. -/
def scanFrom (p : Position) (cs : List Char) : Except Diagnostic Stream :=
  let gap := cs.take (gapLength cs)
  let start := p.after gap
  match _h : cs.drop (gapLength cs) with
  | [] => .ok ⟨[], ⟨.eof, gap, [], start⟩⟩
  | c :: rest =>
    match lexeme c rest with
    | .error fault => .error ⟨start, fault⟩
    | .ok (kind, used) =>
      let text := c :: rest.take used
      match scanFrom (start.after text) (rest.drop used) with
      | .error d => .error d
      | .ok stream => .ok (stream.cons ⟨kind, gap, text, start⟩)
termination_by cs.length
decreasing_by
  have shorter := congrArg List.length _h
  simp only [List.length_drop, List.length_cons] at shorter ⊢
  omega

/-- Cuts a source text. -/
def scan (source : String) : Except Diagnostic Stream := scanFrom Position.start source.toList

/-- The tokens of a source text, the end of the text included. -/
def tokenize (source : String) : Except Diagnostic (List Token) :=
  match scan source with
  | .error d => .error d
  | .ok stream => .ok (stream.tokens ++ [stream.stop])

end IrRecords.Token
