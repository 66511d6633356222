import IrRecords.Proofs.Text.Escapes
import IrRecords.Proofs.Token.Calls
import IrRecords.Proofs.Token.Stretches

/-!
# Tokens with quoted text

Quoted text is a string, the text behind a `c`, a name behind a sigil or a label. Wherever such a token starts
in a source text, the call that cuts it off answers what the bytes up to the closing quote stand for
(`decoded_of_calls`), and names and labels have to be texts. A call fails exactly if there is no closing
quote, or if the bytes of a name are not UTF-8, and then the whole text cannot be cut.

Digits with a plus sign are taken for a numeral. Where no backslash that is reached stands in front of one,
an escape has two hexadecimal digits.
-/

namespace IrRecords.Token

open Text Utf8

/-- How a token with quoted text begins. -/
inductive Opening where
  /-- A string, or a label if a colon follows. -/
  | string
  | chars
  | localName
  | globalName
  deriving Repr, DecidableEq

namespace Opening

/-- The first character. -/
def first : Opening → Char
  | string => '"'
  | chars => 'c'
  | localName => '%'
  | globalName => '@'

/-- The quote, unless it is the first character. -/
def quote : Opening → List Char
  | string => []
  | _ => ['"']

/-- What is in front of the quoted text. -/
def text (o : Opening) : List Char := o.first :: o.quote

/-- The colon that makes a label of the text. -/
def colon (o : Opening) (behind : List Char) : List Char :=
  if o = string ∧ behind.head? = some ':' then [':'] else []

/-- Nothing but the colon goes with the token. -/
theorem colon_append (o : Opening) (behind : List Char) :
    o.colon behind ++ behind.drop (o.colon behind).length = behind := by
  rw [colon]
  split
  · next h =>
    obtain ⟨ds, rfl⟩ := List.head?_eq_some_iff.mp h.2
    rfl
  · rfl

/-- The kind of a token whose text stands for `bytes`, in front of `behind`. -/
def kind (o : Opening) (bytes : List UInt8) (behind : List Char) : Except Fault TokenKind :=
  match o with
  | string =>
    if behind.head? = some ':' then (nameOf bytes).map .label else .ok (.str (literalOf bytes))
  | chars => .ok (.chars (literalOf bytes))
  | localName => (nameOf bytes).map fun name => .localRef (.named name)
  | globalName => (nameOf bytes).map fun name => .globalRef (.named name)

/-- The token whose quotes have `inside` between them, which stands for `bytes`. -/
def answer (o : Opening) (gap : List Char) (start : Position) (bytes : List UInt8)
    (inside behind : List Char) : Except Diagnostic (Token × List Char) :=
  match o.kind bytes behind with
  | .error fault => .error ⟨start, fault⟩
  | .ok kind =>
    .ok (⟨kind, gap, o.text ++ inside ++ '"' :: o.colon behind, start⟩,
      behind.drop (o.colon behind).length)

end Opening

variable {o : Opening} {source : String} {p q : Position} {cs ds inside behind rest : List Char}
  {bytes : List UInt8} {ts : List Token} {d : Diagnostic}

/-! ## Names -/

/-- The bytes of a name are those that were written. -/
theorem nameOf_eq_ok_iff {name : String} : nameOf bytes = .ok name ↔ encode name.toList = bytes := by
  rw [nameOf]
  constructor
  · intro h
    split at h
    · next hdecode =>
      cases h
      exact encode_of_decode? hdecode
    · cases h
  · rintro rfl
    rw [decode?_encode, String.ofList_toList]

/-! ## One token -/

theorem lexeme_of_unclosed (h : quoted ds = .error .unterminatedString) :
    lexeme o.first (o.quote ++ ds) = .error .unterminatedString := by
  cases o with
  | string => exact (lexeme_quote ds).trans (by rw [h]; rfl)
  | chars => exact (lexeme_chars ds).trans (by rw [h]; rfl)
  | localName => exact (lexeme_percent ('"' :: ds)).trans (by rw [reference_quote, h]; rfl)
  | globalName => exact (lexeme_at ('"' :: ds)).trans (by rw [reference_quote, h]; rfl)

theorem reference_of_closed {sigil : Char} {n : Nat} (h : quoted ds = .ok (bytes, n)) :
    reference sigil ('"' :: ds) = (nameOf bytes).map fun name => (.named name, n + 1) := by
  rw [reference_quote, h]
  rfl

/-- What quotes make that are closed in front of `behind`. -/
theorem lexeme_of_closed {n : Nat} (h : quoted ds = .ok (bytes, n)) (hbehind : ds.drop n = behind) :
    lexeme o.first (o.quote ++ ds)
      = (o.kind bytes behind).map fun kind => (kind, n + o.quote.length + (o.colon behind).length) := by
  cases o with
  | string =>
    refine (lexeme_quote ds).trans ?_
    rw [h, Opening.kind, Opening.colon, ← hbehind]
    by_cases hcolon : (ds.drop n).head? = some ':'
    · rw [if_pos hcolon, if_pos ⟨rfl, hcolon⟩]
      refine (if_pos hcolon).trans ?_
      cases nameOf bytes <;> rfl
    · rw [if_neg hcolon, if_neg fun h => hcolon h.2]
      exact if_neg hcolon
  | chars => exact (lexeme_chars ds).trans (by rw [h]; rfl)
  | localName =>
    refine (lexeme_percent ('"' :: ds)).trans ?_
    rw [reference_of_closed h, Opening.kind]
    cases nameOf bytes <;> rfl
  | globalName =>
    refine (lexeme_at ('"' :: ds)).trans ?_
    rw [reference_of_closed h, Opening.kind]
    cases nameOf bytes <;> rfl

/-- A token whose quotes are not closed is none. -/
theorem next_of_unclosed (hopen : cs.drop (gapLength cs) = o.text ++ ds) (hds : readQuoted ds = none) :
    next q cs = .error ⟨q.after (cs.take (gapLength cs)), .unterminatedString⟩ := by
  have hlex : lexeme o.first (o.quote ++ ds) = .error .unterminatedString :=
    lexeme_of_unclosed (by rw [quoted, hds])
  rw [next, hopen, Opening.text, List.cons_append]
  dsimp only
  rw [hlex]

/-- A token whose quotes are closed is what its bytes make. -/
theorem next_of_closed (hopen : cs.drop (gapLength cs) = o.text ++ (inside ++ '"' :: behind))
    (hds : readQuoted (inside ++ '"' :: behind) = some (bytes, inside.length + 1)) :
    next q cs = o.answer (cs.take (gapLength cs)) (q.after (cs.take (gapLength cs))) bytes inside behind := by
  have hquoted : quoted (inside ++ '"' :: behind) = .ok (bytes, inside.length + 1) := by rw [quoted, hds]
  have hbehind : (inside ++ '"' :: behind).drop (inside.length + 1) = behind := by
    rw [List.append_cons]
    exact List.drop_left' (by simp)
  have hlex := lexeme_of_closed (o := o) hquoted hbehind
  -- The text of the token, without its first character, and what is left.
  have hcut : o.quote ++ (inside ++ '"' :: behind) = (o.quote ++ inside ++ '"' :: o.colon behind)
      ++ behind.drop (o.colon behind).length := by
    have hcolon := o.colon_append behind
    simp only [List.append_assoc, List.cons_append, hcolon]
  rw [next, hopen, Opening.text, List.cons_append]
  dsimp only
  rw [hlex, Opening.answer]
  cases o.kind bytes behind with
  | error fault => rfl
  | ok kind =>
    have hlength : inside.length + 1 + o.quote.length + (o.colon behind).length
        = (o.quote ++ inside ++ '"' :: o.colon behind).length := by
      simp only [List.length_append, List.length_cons]
      omega
    simp only [Except.map]
    rw [hcut, hlength, List.take_left, List.drop_left]
    simp only [Opening.text, List.cons_append]

/-! ## Source texts -/

/-- The token at `q`, of which `ds` is left behind its opening quote, is read by the pairs that name a byte:
it is what the bytes up to the first quote make that decoding reaches. -/
structure Decoded (pair? : UInt8 → UInt8 → Option UInt8) (source : String) (q : Position) (cs : List Char)
    (o : Opening) (ds : List Char) : Prop where
  closed : ∀ bytes rest, Unescapes pair? (encode ds) bytes (0x22 :: rest) → ∃ inside behind,
    ds = inside ++ '"' :: behind ∧ encode behind = rest ∧ next q cs
      = o.answer (cs.take (gapLength cs)) (q.after (cs.take (gapLength cs))) bytes inside behind
  unclosed : (∀ bytes rest, ¬ Unescapes pair? (encode ds) bytes (0x22 :: rest)) →
    next q cs = .error ⟨q.after (cs.take (gapLength cs)), .unterminatedString⟩
  /-- A name or a label is the text that has the bytes. -/
  names : ∀ bytes name, nameOf bytes = .ok name ↔ encode name.toList = bytes
  fails : ∀ d, next q cs = .error d → scan source = .error d

/-- **Quoted text is what its escapes say**, where a sign and a digit are an escape, too. Where no sign is
met, these are the escapes of two hexadecimal digits. -/
theorem decoded_of_calls (h : Calls .start source.toList ts q cs)
    (hopen : cs.drop (gapLength cs) = o.text ++ ds) : Decoded signedPair? source q cs o ds
      ∧ (¬ MeetsSign (encode ds) → Decoded hexPair? source q cs o ds) := by
  have hdecoded : Decoded signedPair? source q cs o ds := by
    refine ⟨fun bytes rest hall => ?_, fun hnone => next_of_unclosed hopen (readQuoted_eq_none hnone),
      fun _ _ => nameOf_eq_ok_iff, fun d hfail => h.scanFrom_error hfail⟩
    obtain ⟨inside, behind, rfl, hrest, hread⟩ := readQuoted_of_unescapes hall
    exact ⟨inside, behind, rfl, hrest, next_of_closed hopen hread⟩
  refine ⟨hdecoded, fun hsign => ?_⟩
  refine ⟨fun bytes rest hall => ?_, fun hnone => ?_, hdecoded.names, hdecoded.fails⟩
  · exact hdecoded.closed bytes rest ((unescapes_signedPair?_iff hsign).mpr hall)
  · exact hdecoded.unclosed fun bytes rest hall =>
      hnone bytes rest ((unescapes_signedPair?_iff hsign).mp hall)

/-- The name `@"\+a"` is a line break, and not three characters. -/
theorem decoded_of_calls_sign :
    Decoded signedPair? "@\"\\+a\"" .start "@\"\\+a\"".toList .globalName ['\\', '+', 'a', '"']
      ∧ Unescapes signedPair? (encode ['\\', '+', 'a', '"']) [0x0A] [0x22]
      ∧ Unescapes hexPair? (encode ['\\', '+', 'a', '"']) [0x5C, 0x2B, 0x61] [0x22] :=
  ⟨(decoded_of_calls (.nil _ _) rfl).1, .cons rfl (.nil _),
    .cons rfl (.cons rfl (.cons rfl (.nil _)))⟩

end IrRecords.Token
