/-!
# Control sequences

A name can hold any characters, also those that a terminal takes as orders: control characters, and
the sequences that the escape character begins. What the program tells is shown without them, so
that a source text cannot recolour or rename the terminal it is reported on. Of the control
characters only tabs and line breaks are shown, the delete character is not.

A sequence has a form from its first characters on (`Sequence`), and the form says which character
ends it. Two things do not depend on the form: the escape character begins a new sequence, and the
characters for cancellation end any sequence.

Some forms let tabs and line breaks through. Such a character does not end the sequence, but what
follows it is shown as if it did, up to the next control character. There the sequence goes on,
unless a character beyond ASCII stood in between.
-/

namespace IrRecords.Text

/-! ## Characters -/

/-- The character that begins sequences. -/
def escape : Char := '\x1b'

/-- Whether the character is one of the two that end any sequence. -/
def cancels (c : Char) : Bool := c == '\x18' || c == '\x1a'

/-- Tabs and line breaks. -/
def isLayout (c : Char) : Bool := c == '\t' || c == '\n' || c == '\x0c' || c == '\r'

/-- Whether the code of `c` lies between `low` and `high`. -/
def within (low high : Nat) (c : Char) : Bool := low ≤ c.toNat && c.toNat ≤ high

/-- Whether `c` is shown where no sequence is open. -/
def isShowable (c : Char) : Bool := isLayout c || (0x20 ≤ c.toNat && c.toNat != 0x7F)

/-! ## Sequences -/

/-- The forms of an open sequence. -/
inductive Sequence where
  /-- Nothing but the escape character. -/
  | bare
  /-- The escape character and some of the characters from space to slash. -/
  | intermediate
  /-- A control sequence, `[` and parameters. -/
  | control
  /-- The head of a device control string, `P` alone. -/
  | device
  /-- The head of a device control string, up to a parameter. -/
  | deviceParameter
  /-- The head of a device control string, up to a character from space to slash. -/
  | deviceIntermediate
  /-- The body of a device control string, or another string for the terminal. -/
  | string
  /-- An operating system command, `]` and a text. -/
  | command
  deriving Repr, DecidableEq

/-- What the characters so far leave open. -/
inductive Opening where
  /-- No sequence. -/
  | none
  /-- A sequence. -/
  | inside (s : Sequence)
  /-- A sequence that a tab or a line break has interrupted. -/
  | interrupted (s : Sequence)
  deriving Repr, DecidableEq

namespace Sequence

/-- Whether tabs and line breaks inside the sequence are shown. -/
def showsLayout : Sequence → Bool
  | bare | intermediate | control => true
  | _ => false

/-- What is open behind the escape character and `c`. -/
def ofIntroducer (c : Char) : Opening :=
  if c = '[' then .inside control
  else if c = ']' then .inside command
  else if c = 'P' then .inside device
  else if c = 'X' || c = '^' || c = '_' then .inside string
  else if within 0x20 0x2F c then .inside intermediate
  else if within 0x30 0x7E c then .none
  else .inside bare

/-- Whether a byte of `c` is the string terminator. -/
def hasTerminator (c : Char) : Bool := (String.utf8EncodeChar c).contains 0x9C

/-- What is open behind the sequence and `c`, which neither begins nor cancels a sequence. -/
def after : Sequence → Char → Opening
  | bare, c => ofIntroducer c
  | intermediate, c => if within 0x30 0x7E c then .none else .inside intermediate
  | control, c => if within 0x40 0x7E c then .none else .inside control
  | device, c =>
    if within 0x20 0x2F c then .inside deviceIntermediate
    else if within 0x30 0x3F c then .inside deviceParameter
    else if within 0x40 0x7E c then .inside string
    else .inside device
  | deviceParameter, c =>
    if within 0x20 0x2F c then .inside deviceIntermediate
    else if within 0x3C 0x7E c then .inside string
    else .inside deviceParameter
  | deviceIntermediate, c =>
    if within 0x30 0x7E c then .inside string else .inside deviceIntermediate
  | string, c => if hasTerminator c then .none else .inside string
  | command, c => if c = '\x07' then .none else .inside command

end Sequence

/-! ## Texts -/

namespace Opening

/-- Whether `c` is shown. -/
def shows : Opening → Char → Bool
  | inside s, c => s.showsLayout && isLayout c
  | none, c | interrupted _, c => isShowable c

/-- What is open behind `c`. -/
def next (o : Opening) (c : Char) : Opening :=
  if c = escape then inside .bare
  else if cancels c then none
  else
    match o with
    | none => none
    | inside s => if o.shows c then interrupted s else s.after c
    | interrupted s =>
      if !isShowable c then inside s
      -- Beyond ASCII a character ends what was interrupted.
      else if c.toNat < 0x80 then interrupted s
      else none

end Opening

/-- The shown characters of a text behind what `o` says. -/
def shownBehind (o : Opening) : List Char → List Char
  | [] => []
  | c :: cs =>
    let rest := shownBehind (o.next c) cs
    if o.shows c then c :: rest else rest

/-- The characters of a text that are shown. -/
def shown (cs : List Char) : List Char := shownBehind .none cs

theorem Opening.next_none {c : Char} (h : isShowable c) : Opening.none.next c = none := by
  have notEscape : c ≠ escape := fun e => by subst e; revert h; decide
  simp only [next, if_neg notEscape, ite_self]

/-- A text of characters that can be shown is shown as it is. -/
theorem shown_eq_self {cs : List Char} (h : ∀ c ∈ cs, isShowable c) : shown cs = cs := by
  unfold shown
  induction cs with
  | nil => rfl
  | cons c cs ih =>
    have first : isShowable c := h c List.mem_cons_self
    have rest := ih fun d member => h d (List.mem_cons_of_mem c member)
    simp only [shownBehind, Opening.next_none first, Opening.shows, first, if_true, rest]

end IrRecords.Text
