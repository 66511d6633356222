import IrRecords.Ident
import IrRecords.Text.Position
import IrRecords.Text.Utf8

/-!
# Tokens

A token knows its kind, its own text and the gap in front of it: the blanks and comments that
separate it from the token before. So a row of tokens is the source text, cut in pieces and with
nothing missing, and the text between any two tokens is there to be shown without the source at
hand. The end of a text is a token too, of kind `eof` and without text.
-/

namespace IrRecords

/-- The kinds of brackets. -/
inductive Bracket where
  | round | square | curly | angle
  deriving Repr, DecidableEq

/-- What a token is. -/
inductive TokenKind where
  /-- A reference with the sigil `%`. -/
  | localRef (id : Ident)
  /-- A reference with the sigil `@`. -/
  | globalRef (id : Ident)
  /-- Name, digits or quoted text in front of a colon. -/
  | label (text : String)
  /-- A keyword, a type name or any other bare name. -/
  | word (text : String)
  /-- A row of digits, possibly signed. -/
  | int (text : String)
  /-- A decimal with fraction or exponent, or a hexadecimal numeral. -/
  | float (text : String)
  /-- Quoted text. -/
  | str (text : String)
  /-- Quoted text marked as a row of characters. -/
  | chars (text : String)
  /-- A name behind an exclamation mark. -/
  | metadata (name : String)
  /-- An exclamation mark without a name. -/
  | bang
  /-- A hash sign and the name behind it, possibly empty. -/
  | hash (name : String)
  | equal | comma | star | ellipsis
  | opener (bracket : Bracket)
  | closer (bracket : Bracket)
  /-- A character that starts nothing else. -/
  | other (c : Char)
  | eof
  deriving Repr, DecidableEq

/-- A token of a source text. -/
structure Token where
  kind : TokenKind
  /-- Blanks and comments in front of the token. -/
  gap : List Char
  /-- The characters of the token itself. -/
  text : List Char
  /-- Where the first of them stands. -/
  start : Position
  deriving Repr, DecidableEq

namespace Token

/-- The line that the token starts on. -/
def line (t : Token) : Nat := t.start.line

/-- The byte offset behind the token. -/
def stop (t : Token) : Nat := (t.start.after t.text).offset

/-- The token as error messages show it; `none` for the end of the text. -/
def shown? (t : Token) : Option String :=
  match t.kind with
  | .eof => none
  | _ => some (String.ofList t.text)

/-- The source text from the first to the last of `tokens`. -/
def spanText : List Token → List Char
  | [] => []
  | first :: rest => first.text ++ rest.flatMap fun t => t.gap ++ t.text

end Token

end IrRecords
