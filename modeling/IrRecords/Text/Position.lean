/-!
# Where in a text

Everything this library says about a source text is said at a position: the byte offset from the
start, the line and the byte column, lines and columns counted from one. A position is never
stored beside a moving index and adjusted by hand. It is a function of the characters in front of
it, `Position.start.after cs`, and the functions that split a text hand those characters on, so
that the position of each piece follows from the pieces before it.
-/

namespace IrRecords

/-- A place in a source text. -/
structure Position where
  /-- Bytes in front of the place. -/
  offset : Nat
  /-- One more than the line breaks in front of the place. -/
  line : Nat
  /-- One more than the bytes between the last line break and the place. -/
  column : Nat
  deriving Repr, DecidableEq

namespace Position

/-- The first position of every text. -/
def start : Position := ⟨0, 1, 1⟩

/-- The position behind one more character. -/
def next (p : Position) (c : Char) : Position :=
  if c = '\n' then ⟨p.offset + 1, p.line + 1, 1⟩
  else ⟨p.offset + c.utf8Size, p.line, p.column + c.utf8Size⟩

/-- The position behind the characters `cs`. -/
def after (p : Position) (cs : List Char) : Position := cs.foldl next p

@[simp] theorem after_nil (p : Position) : p.after [] = p := rfl

@[simp] theorem after_cons (p : Position) (c : Char) (cs : List Char) :
    p.after (c :: cs) = (p.next c).after cs := rfl

@[simp] theorem after_append (p : Position) (cs ds : List Char) :
    p.after (cs ++ ds) = (p.after cs).after ds := by
  simp only [after, List.foldl_append]

/-- Line and column as error messages show them. -/
def text (p : Position) : String := s!"{p.line}:{p.column}"

end Position

end IrRecords
