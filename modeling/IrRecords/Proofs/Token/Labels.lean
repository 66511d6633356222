import IrRecords.Proofs.Token.Lexemes

/-!
# Labels and references to them

A label is a name or a row of digits in front of a colon, and a reference has the same text behind
its sigil (`LabelText.text`). The two are cut by different parts of the lexer. Behind a sigil every
name is a name. In front of a colon a bare name is a label only if it starts neither like a signed
numeral nor like an ellipsis, and what a label declares is told from its characters once the quotes
are gone: digits that fit 32 bits are a slot, whether they were quoted or not. So label and
reference stand for the same identifier unless the name is such a row of digits
(`LabelText.declared_eq_referred_iff`).
-/

namespace IrRecords

/-- What stands in front of the colon of a label or behind the sigil of a reference. -/
inductive LabelText where
  /-- A name, quoted where it has to be. -/
  | named (name : String)
  /-- A row of digits. -/
  | numbered (digits : String)
  deriving Repr, DecidableEq

namespace LabelText

/-- How it is written. -/
def text : LabelText → String
  | named name => Text.quoteName name
  | numbered digits => digits

/-- The characters without quotes and escapes. -/
def content : LabelText → String
  | named name => name
  | numbered digits => digits

/-- What it declares in front of a colon. -/
def declared (l : LabelText) : Ident := .ofLabel l.content

/-- What it refers to behind a sigil. -/
def referred : LabelText → Ident
  | named name => .named name
  | numbered digits => .ofLabel digits

/-- Whether a bare name starts like a signed numeral or like an ellipsis. -/
def startsOther : List Char → Bool
  | '-' :: c :: _ => c.isDigit
  | '.' :: '.' :: '.' :: _ => true
  | _ => false

/-- The lexer takes it for a label if a colon follows it. -/
def IsLabel : LabelText → Prop
  | named name => Text.isBare name.toList = true → startsOther name.toList = false
  | numbered digits => Text.IsNumeral digits.toList

/-- The lexer takes it for a reference behind a sigil. -/
def IsReference : LabelText → Prop
  | named _ => True
  | numbered digits =>
    Text.IsNumeral digits.toList ∧ (Text.decimal? Text.bound32 digits.toList).isSome

instance (l : LabelText) : Decidable l.IsLabel :=
  match l with
  | named _ => inferInstanceAs (Decidable (_ → _))
  | numbered _ => inferInstanceAs (Decidable (Text.IsNumeral _))

instance (l : LabelText) : Decidable l.IsReference :=
  match l with
  | named _ => .isTrue trivial
  | numbered _ => inferInstanceAs (Decidable (_ ∧ _))

/-- **A label declares what a reference of its spelling refers to**, unless it is a quoted row of
digits that could be a slot. -/
theorem declared_eq_referred_iff (l : LabelText) : l.declared = l.referred
    ↔ ∀ n, l = .named n → Text.decimal? Text.bound32 n.toList = none := by
  cases l with
  | numbered digits => exact ⟨fun _ _ h => (nomatch h), fun _ => rfl⟩
  | named name =>
    rw [declared, referred, content, Ident.ofLabel]
    cases hnumber : Text.decimal? Text.bound32 name.toList with
    | none =>
      refine ⟨fun _ n h => ?_, fun _ => rfl⟩
      cases h
      exact hnumber
    | some number =>
      refine ⟨fun h => (nomatch h), fun h => ?_⟩
      rw [h name rfl] at hnumber
      cases hnumber

end LabelText

namespace Token

/-! ## Labels -/

/-- What a name character makes that starts neither a numeral nor an ellipsis, nor marks quoted
text. -/
theorem lexeme_of_isNameChar {c : Char} {cs : List Char} (hc : Text.isNameChar c = true)
    (hdigit : c.isDigit = false) (hother : LabelText.startsOther (c :: cs) = false)
    (hcs : cs.head? ≠ some '"') :
    lexeme c cs = .ok (wordOrLabel c cs (runLength Text.isNameChar cs)) := by
  refine lexeme_of_word hc hdigit (not_taken_of_isNameChar hc ?_ (fun _ => hcs) ?_)
  · rintro rfl
    cases hdots : ['.', '.'].isPrefixOf cs with
    | false => rfl
    | true =>
      obtain ⟨rest, rfl⟩ := List.isPrefixOf_iff_prefix.mp hdots
      cases hother
  · rintro rfl
    cases cs with
    | nil => rfl
    | cons d cs => exact hother

/-- A colon behind a name does not change how it starts. -/
theorem startsOther_append {w : List Char} (hw : LabelText.startsOther w = false)
    (cs : List Char) : LabelText.startsOther (w ++ ':' :: cs) = false := by
  unfold LabelText.startsOther at hw ⊢
  split at hw
  · exact hw
  · cases hw
  · next hsigned hellipsis =>
    -- At most three characters decide. If the name has fewer, the colon is one of them, and it is neither a
    -- digit nor a dot.
    split
    · next c ds h =>
      rcases w with _ | ⟨a, _ | ⟨b, w⟩⟩
      · cases h
      · cases h
        decide
      · cases h
        exact absurd rfl (hsigned _ _)
    · next ds h =>
      rcases w with _ | ⟨a, _ | ⟨b, _ | ⟨d, w⟩⟩⟩
      · cases h
      · cases h
      · cases h
      · cases h
        exact absurd rfl (hellipsis _)
    · rfl

/-- A bare name with a colon behind it. -/
theorem lexeme_bareLabel {c : Char} {w : List Char} (hbare : Text.isBare (c :: w) = true)
    (hother : LabelText.startsOther (c :: w) = false) (cs : List Char) :
    lexeme c (w ++ ':' :: cs) = .ok (.label (String.ofList (c :: w)), w.length + 1) := by
  rw [Text.isBare, Bool.and_eq_true, Bool.not_eq_true', List.all_eq_true] at hbare
  obtain ⟨hdigit, hall⟩ := hbare
  have hw : ∀ d ∈ w, Text.isNameChar d = true := fun d hd => hall d (List.mem_cons_of_mem _ hd)
  have hquote : (w ++ ':' :: cs).head? ≠ some '"' := by
    intro h
    cases w with
    | nil => cases h
    | cons d w =>
      have hd := hw d List.mem_cons_self
      cases h
      cases hd
  have hrun : runLength Text.isNameChar (w ++ ':' :: cs) = w.length := by
    rw [runLength, takeWhile_append hw]
    rintro d hd
    cases hd
    decide
  have hstart : LabelText.startsOther (c :: (w ++ ':' :: cs)) = false :=
    startsOther_append hother cs
  rw [lexeme_of_isNameChar (hall c List.mem_cons_self) hdigit hstart hquote, hrun, wordOrLabel,
    List.drop_left, List.head?_cons, if_pos rfl, List.take_left]

/-- A quoted name with a colon behind it. -/
theorem lexeme_quotedLabel (name : String) (cs : List Char) :
    lexeme '"' ((Utf8.encode name.toList).flatMap Text.escapeByte ++ '"' :: ':' :: cs)
      = .ok (.label name, ((Utf8.encode name.toList).flatMap Text.escapeByte).length + 2) := by
  have hname : nameOf (Utf8.encode name.toList) = .ok name := by
    rw [nameOf, Utf8.decode?_encode, String.ofList_toList]
  have hdrop : ∀ w : List Char, (w ++ '"' :: ':' :: cs).drop (w.length + 1) = ':' :: cs := by
    intro w
    rw [List.append_cons]
    exact List.drop_left' (by simp)
  rw [lexeme_quote]
  simp only [quoted, Text.readQuoted_escape, Bind.bind, Except.bind, hdrop, List.head?_cons, hname]
  rfl

/-- A row of digits with a colon behind it. -/
theorem lexeme_numberedLabel {c : Char} {w : List Char} (hdigits : Text.IsNumeral (c :: w))
    (cs : List Char) :
    lexeme c (w ++ ':' :: cs) = .ok (.label (String.ofList (c :: w)), w.length + 1) := by
  have hc : c.isDigit = true := hdigits.2 c List.mem_cons_self
  have hrun : runLength Char.isDigit (w ++ ':' :: cs) = w.length := by
    rw [runLength, takeWhile_append fun d hd => hdigits.2 d (List.mem_cons_of_mem _ hd)]
    rintro d hd
    cases hd
    decide
  rw [lexeme_of_isDigit hc, hrun]
  simp

/-- **A label is cut into one token**, which holds its characters. -/
theorem Cuts.labelText {l : LabelText} (h : l.IsLabel) :
    Cuts (l.text.toList ++ [':']) [.label l.content] := by
  -- Numbers and bare names are cut alike: by the characters of a name up to the colon.
  have hbareChars : ∀ {c : Char} {w : List Char}, (∀ d ∈ c :: w, Text.isNameChar d = true) →
      (∀ cs, lexeme c (w ++ ':' :: cs) = .ok (.label (String.ofList (c :: w)), w.length + 1)) →
      Cuts (c :: w ++ [':']) [.label (String.ofList (c :: w))] := by
    intro c w hall hlex
    have hflat : '\n' ∉ c :: (w ++ [':']) := by
      have h := newline_not_mem hall
      rw [List.mem_cons, not_or] at h ⊢
      exact ⟨h.1, by simp [h.2]⟩
    refine .single hflat (gapLength_of_isNameChar (hall c List.mem_cons_self)) (by simp) ?_
    intro cs _
    change lexeme c ((w ++ [':']) ++ cs) = .ok (_, (w ++ [':']).length)
    rw [List.append_assoc, List.singleton_append, hlex cs, List.length_append]
    rfl
  cases l with
  | numbered digits =>
    rw [LabelText.text, LabelText.content]
    cases hdigits : digits.toList with
    | nil => exact absurd hdigits h.1
    | cons c w =>
      have hnumeral : Text.IsNumeral (c :: w) := hdigits ▸ h
      rw [← String.ofList_toList (s := digits), hdigits]
      exact hbareChars (fun d hd => isNameChar_of_isDigit (hnumeral.2 d hd))
        (lexeme_numberedLabel hnumeral)
  | named name =>
    rw [LabelText.text, LabelText.content]
    cases hbare : Text.isBare name.toList with
    | true =>
      have hother : LabelText.startsOther name.toList = false := h hbare
      rw [Text.quoteName_of_isBare hbare]
      cases hname : name.toList with
      | nil => rw [hname] at hbare; cases hbare
      | cons c w =>
        rw [hname] at hbare hother
        rw [← String.ofList_toList (s := name), hname]
        refine hbareChars ?_ (lexeme_bareLabel hbare hother)
        rw [Text.isBare, Bool.and_eq_true, List.all_eq_true] at hbare
        exact hbare.2
    | false =>
      have hescape := Text.newline_not_mem_escape (Utf8.encode name.toList)
      rw [Text.quoteName_of_not_isBare hbare, List.cons_append, List.append_assoc]
      refine .single (by simp [hescape]) (fun _ => rfl) (by simp) fun cs _ => ?_
      have hlex := lexeme_quotedLabel name cs
      rw [List.append_assoc, List.append_assoc]
      rw [List.length_append]
      exact hlex

/-! ## References -/

/-- **A reference is cut into one token**, which holds what it refers to. -/
theorem Cuts.reference {l : LabelText} (h : l.IsReference) :
    Cuts ('%' :: l.text.toList) [.localRef l.referred] := by
  cases l with
  | named name => exact .localName name
  | numbered digits =>
    obtain ⟨n, hn⟩ := Option.isSome_iff_exists.mp h.2
    rw [LabelText.referred, Ident.ofLabel, hn]
    exact .localDigits h.1 hn

end Token

end IrRecords
