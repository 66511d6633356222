import IrRecords.Diagnostic
import IrRecords.Token.Cursor

/-!
# Readers

A reader looks at the tokens ahead of a cursor, moves the cursor on, and answers a value or a
diagnostic. All readers of the library are built from the few primitives of this module. The only
loop among them is `iterate`, which takes as many rounds as there are tokens ahead and one more;
since every round of every loop in the library passes a token or ends the loop, that is enough.
-/

namespace IrRecords

/-- A computation on the tokens ahead of a cursor. -/
abbrev Reader (α : Type) : Type := StateT Cursor (Except Diagnostic) α

/-- What one round of a loop comes to. -/
inductive Round (σ α : Type) where
  /-- Another round, from this state. -/
  | again (state : σ)
  /-- The end of the loop, with its result. -/
  | done (result : α)

namespace Reader

variable {α σ : Type}

/-! ## Looking -/

/-- The token ahead. -/
def current : Reader Token := fun c => .ok (c.current, c)

/-- The kind of the token ahead. -/
def kind : Reader TokenKind := fun c => .ok (c.current.kind, c)

/-- The kind of the token behind the one ahead. -/
def nextKind : Reader TokenKind := fun c => .ok ((c.lookahead 1).kind, c)

/-- The position of the token ahead. -/
def position : Reader Position := fun c => .ok (c.current.start, c)

/-- Whether the token ahead is of the given kind. -/
def isAt (k : TokenKind) : Reader Bool := fun c => .ok (c.current.kind == k, c)

/-! ## Failing -/

/-- Stops with a fault at a position. -/
def failAt (p : Position) (fault : Fault) : Reader α := fun _ => .error ⟨p, fault⟩

/-- Stops because the token ahead is not `what`. -/
def unexpected (what : String) : Reader α := fun c =>
  .error ⟨c.current.start, .expected what c.current.shown?⟩

/-! ## Moving on -/

/-- Passes the token ahead. -/
def advance : Reader Unit := fun c => .ok ((), c.advance)

/-- Passes the tokens ahead that satisfy `p`. -/
def skipWhile (p : Token → Bool) : Reader Unit := fun c => .ok ((), c.advanceWhile p)

/-- Passes all tokens on the line of the token ahead. -/
def skipLine : Reader Unit := fun c => .ok ((), c.skipLine)

/-- Passes the tokens left on the line of the token just passed. -/
def skipRestOfLine : Reader Unit := fun c => .ok ((), c.skipRestOfLine)

/-- Passes the bracketed group ahead. -/
def skipGroup : Reader Unit := fun c =>
  match c.skipGroup? with
  | some c => .ok ((), c)
  | none => .error ⟨c.current.start, .unbalancedBrackets⟩

/-- Passes a token of the given kind, if one is ahead, and tells whether. -/
def accept (k : TokenKind) : Reader Bool := do
  if ← isAt k then
    advance
    return true
  else return false

/-- Passes the word `w`, if it is ahead, and tells whether. -/
def acceptWord (w : String) : Reader Bool := accept (.word w)

/-- Passes a token of the given kind, which messages call `what`. -/
def expect (k : TokenKind) (what : String) : Reader Unit := do
  if ← isAt k then advance else unexpected what

/-- Passes the word `w`. -/
def expectWord (w : String) : Reader Unit := expect (.word w) s!"'{w}'"

/-- Passes a comma. -/
def expectComma : Reader Unit := expect .comma "','"

/-- Passes a numeral below `bound` and answers its value. -/
def expectNumber (bound : Nat) (what : String) : Reader Nat := do
  match ← kind with
  | .int text =>
    match Text.decimal? bound text.toList with
    | some n =>
      advance
      return n
    | none => unexpected what
  | _ => unexpected what

/-- Whether `t` is one of the words `ws`. -/
def isWordOf (ws : List String) (t : Token) : Bool :=
  match t.kind with
  | .word w => ws.contains w
  | _ => false

/-- Passes any run of the words `ws`. -/
def skipWords (ws : List String) : Reader Unit := skipWhile (isWordOf ws)

/-- Runs `r` and answers, instead of its result, the source text that it passed. -/
def passedText (r : Reader Unit) : Reader String := fun c =>
  match r c with
  | .error d => .error d
  | .ok (_, later) => .ok (c.textUpTo later, later)

/-! ## Loops -/

/-- A loop of at most as many rounds as `bound` has elements. -/
def iterateFor (step : σ → Reader (Round σ α)) : (bound : List Token) → σ → Reader α
  | [], _ => fun c => .error ⟨c.current.start, .stalled⟩
  | _ :: bound, state => do
    match ← step state with
    | .again state => iterateFor step bound state
    | .done result => return result

/-- Repeats `step` from `state` until it answers a result. -/
def iterate (step : σ → Reader (Round σ α)) (state : σ) : Reader α := fun c =>
  iterateFor step c.bound state c

/-- One or more items, separated by commas. -/
def commaSeparated (item : Reader α) : Reader (List α) := do
  let items ← iterate (fun (items : Array α) => do
    let items := items.push (← item)
    if ← accept .comma then return .again items else return .done items) #[]
  return items.toList

/-- Passes words that satisfy `isAttribute`, each with the bracketed group behind it or, after a
word that satisfies `takesNumber`, with the numeral behind it. -/
def skipAttributes (isAttribute takesNumber : String → Bool) : Reader Unit :=
  iterate (fun () => do
    match ← kind with
    | .word w =>
      if isAttribute w then
        advance
        match ← kind with
        | .opener .round => skipGroup
        | .int _ => if takesNumber w then advance
        | _ => pure ()
        return .again ()
      else return .done ()
    | _ => return .done ()) ()

end Reader

end IrRecords
