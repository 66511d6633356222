/-!
# JSON documents

Documents hold strings, lists and objects only: every number in them is part of a text. They are
written in two layouts. The compact one has no blanks outside strings; the pretty one puts each
element on a line of its own, indented by two spaces for each level, and writes empty lists and
objects without a line break inside. In strings the quote, the backslash and the control characters
below U+0020 are escaped and everything else stands as it is.
-/

namespace IrRecords

/-- A document. -/
inductive Json where
  | str (s : String)
  | arr (items : List Json)
  /-- Keys with their values, in the order in which they are written. -/
  | obj (fields : List (String × Json))
  deriving Repr

namespace Json

/-! ## Strings -/

/-- A control character as its code. -/
def unicodeEscape (c : Char) : List Char :=
  ['\\', 'u', '0', '0', Nat.digitChar (c.toNat / 16), Nat.digitChar (c.toNat % 16)]

/-- One character of a string. -/
def escapeChar (c : Char) : List Char :=
  if c = '"' then ['\\', '"']
  else if c = '\\' then ['\\', '\\']
  else if c = '\x08' then ['\\', 'b']
  else if c = '\t' then ['\\', 't']
  else if c = '\n' then ['\\', 'n']
  else if c = '\x0C' then ['\\', 'f']
  else if c = '\r' then ['\\', 'r']
  else if c.toNat < 0x20 then unicodeEscape c
  else [c]

/-- A string with its quotes. -/
def quote (s : String) : String := String.ofList ('"' :: s.toList.flatMap escapeChar ++ ['"'])

/-! ## The compact layout -/

mutual

/-- A document without blanks. -/
def compact : Json → String
  | str s => quote s
  | arr items => "[" ++ compactItems items ++ "]"
  | obj fields => "\x7b" ++ compactFields fields ++ "\x7d"

/-- The elements of a list. -/
def compactItems : List Json → String
  | [] => ""
  | [item] => compact item
  | item :: rest => compact item ++ "," ++ compactItems rest

/-- The fields of an object. -/
def compactFields : List (String × Json) → String
  | [] => ""
  | [(key, value)] => quote key ++ ":" ++ compact value
  | (key, value) :: rest => quote key ++ ":" ++ compact value ++ "," ++ compactFields rest

end

/-! ## The pretty layout -/

/-- A line break and the indentation of a level. -/
def newline (level : Nat) : String := String.ofList ('\n' :: List.replicate (2 * level) ' ')

mutual

/-- A document at a level of indentation. -/
def prettyAt (level : Nat) : Json → String
  | str s => quote s
  | arr [] => "[]"
  | arr items => "[" ++ prettyItems (level + 1) items ++ newline level ++ "]"
  | obj [] => "\x7b\x7d"
  | obj fields => "\x7b" ++ prettyFields (level + 1) fields ++ newline level ++ "\x7d"

/-- The elements of a list, each on a line of its own. -/
def prettyItems (level : Nat) : List Json → String
  | [] => ""
  | [item] => newline level ++ prettyAt level item
  | item :: rest => newline level ++ prettyAt level item ++ "," ++ prettyItems level rest

/-- The fields of an object, each on a line of its own. -/
def prettyFields (level : Nat) : List (String × Json) → String
  | [] => ""
  | [(key, value)] => newline level ++ quote key ++ ": " ++ prettyAt level value
  | (key, value) :: rest =>
    newline level ++ quote key ++ ": " ++ prettyAt level value ++ "," ++ prettyFields level rest

end

/-- A document with line breaks and indentation. -/
def pretty (j : Json) : String := prettyAt 0 j

end Json

end IrRecords
