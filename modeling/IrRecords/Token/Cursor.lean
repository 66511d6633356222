import IrRecords.Text.Blank
import IrRecords.Token.Basic

/-!
# Cursors

A cursor stands between two tokens of a text. It knows the tokens ahead and, of those behind, the
line of the last one, because some constructs extend to the end of that line. Behind the last
token there is the end of the text, as often as one asks; moving on from there goes nowhere.
-/

namespace IrRecords

/-- A place between two tokens. -/
structure Cursor where
  /-- The line of the token just passed, if there is one. -/
  lastLine? : Option Nat
  /-- The tokens ahead. -/
  rest : List Token
  /-- The end of the text. -/
  stop : Token
  deriving Repr, DecidableEq

namespace Cursor

/-- The token ahead. -/
def current (c : Cursor) : Token := c.rest.headD c.stop

/-- The token ahead of `n` others. -/
def lookahead (c : Cursor) (n : Nat) : Token := (c.rest.drop n).headD c.stop

/-- How many tokens are ahead. -/
def remaining (c : Cursor) : Nat := c.rest.length

/-- The tokens ahead, and one more. Loops and nested readers are bounded by this row: they are
recursive on it and drop one element a round, so the bound costs nothing. -/
def bound (c : Cursor) : List Token := c.stop :: c.rest

/-- Passes one token. -/
def advance (c : Cursor) : Cursor :=
  match c.rest with
  | [] => c
  | t :: rest => { c with lastLine? := some t.line, rest := rest }

/-- Passes the tokens that satisfy `p`, up to the first that does not. -/
def advanceWhileIn (p : Token → Bool) (c : Cursor) : List Token → Cursor
  | [] => { c with rest := [] }
  | t :: rest =>
    if p t then advanceWhileIn p { c with lastLine? := some t.line } rest
    else { c with rest := t :: rest }

/-- Passes the tokens ahead that satisfy `p`. -/
def advanceWhile (c : Cursor) (p : Token → Bool) : Cursor := advanceWhileIn p c c.rest

/-- Passes all tokens on the line of the token ahead. -/
def skipLine (c : Cursor) : Cursor :=
  let line := c.current.line
  -- A token counts for the line on which it begins, also if it ends further down.
  c.advanceWhile (·.line == line)

/-- Passes the tokens left on the line of the token just passed. -/
def skipRestOfLine (c : Cursor) : Cursor :=
  match c.lastLine? with
  | none => c
  | some line => c.advanceWhile (·.line == line)

/-- The brackets that are open behind `t`, if `stack` were open in front of it. A closer that does
not answer the innermost open bracket is passed over. -/
def bracketsAfter (stack : List Bracket) (t : Token) : List Bracket :=
  match t.kind, stack with
  | .opener b, stack => b :: stack
  | .closer b, top :: stack => if b = top then stack else top :: stack
  | _, stack => stack

/-- Passes tokens until no bracket is open; `none` if they run out before. -/
def skipBrackets (stack : List Bracket) (c : Cursor) : List Token → Option Cursor
  | [] => none
  | t :: rest =>
    let c : Cursor := { c with lastLine? := some t.line, rest := rest }
    match bracketsAfter stack t with
    | [] => some c
    | stack => skipBrackets stack c rest

/-- Passes the group whose opening bracket is ahead, nested groups included. -/
def skipGroup? (c : Cursor) : Option Cursor := skipBrackets [] c c.rest

/-- The tokens between `c` and a cursor further on. -/
def tokensUpTo (c later : Cursor) : List Token := c.rest.take (c.remaining - later.remaining)

/-- The source text between `c` and a cursor further on, on one line. -/
def textUpTo (c later : Cursor) : String :=
  String.ofList (Text.collapse (Token.spanText (c.tokensUpTo later)))

end Cursor

end IrRecords
