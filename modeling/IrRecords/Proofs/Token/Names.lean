import IrRecords.Proofs.Token.Lexemes
import IrRecords.Proofs.Token.Tiles

/-!
# Names behind sigils

Whatever the name, what `Text.quoteName` writes for it is read as this name behind either sigil, at the
end of a text and in front of whatever ends a name (`readBack_quoteName`). So different names are written
differently, and no name is written like a number.
-/

namespace IrRecords.Token

open Text

/-- The kinds of the tokens of a text. -/
def kinds (source : String) : Except Diagnostic (List TokenKind) :=
  (tokenize source).map (·.map Token.kind)

/-- Wherever `w` stands in front of `rest`, it is cut off as one token of the kind `kind`, and then `rest`
is cut as it is cut by itself there. -/
def CutsOff (w : List Char) (kind : TokenKind) (rest : List Char) : Prop :=
  ∀ p, scanFrom p (w ++ rest) = (scanFrom (p.after w) rest).map (Stream.cons ⟨kind, [], w, p⟩)

/-- Nothing follows, or white space or punctuation does. -/
def Closes (rest : List Char) : Prop :=
  ∀ c, rest.head? = some c → isBlank c = true ∨ (punctuation? c).isSome

/-- What is written for a name is read as this name. -/
structure ReadBack (name : String) : Prop where
  localAlone : kinds ("%" ++ quoteName name) = .ok [.localRef (.named name), .eof]
  globalAlone : kinds ("@" ++ quoteName name) = .ok [.globalRef (.named name), .eof]
  localFirst : ∀ rest, Closes rest →
    CutsOff ('%' :: (quoteName name).toList) (.localRef (.named name)) rest
  globalFirst : ∀ rest, Closes rest →
    CutsOff ('@' :: (quoteName name).toList) (.globalRef (.named name)) rest
  /-- No other name and no number is written in the same way. -/
  apart : ∀ id : Ident, id.spelling = quoteName name → id = .named name
  notNumeral : ¬ IsNumeral (quoteName name).toList

variable {name : String} {rest w : List Char} {c : Char} {kind : TokenKind}

/-- No name character closes a name. -/
theorem Closes.not_isNameChar (h : Closes rest) (c : Char) (hc : rest.head? = some c) :
    isNameChar c = false := by
  cases hname : isNameChar c with
  | false => rfl
  | true =>
    rcases h c hc with hblank | hpunctuation
    · rw [isBlank_of_isNameChar hname] at hblank
      cases hblank
    · rw [punctuation?_of_isNameChar hname] at hpunctuation
      cases hpunctuation

theorem closes_nil : Closes [] := fun _ h => by cases h

/-! ## A token in front of a text -/

theorem cutsOff_of_lexeme (hgap : ∀ cs, gapLength (c :: cs) = 0)
    (hlex : lexeme c (w ++ rest) = .ok (kind, w.length)) : CutsOff (c :: w) kind rest := by
  intro p
  have hdrop : (c :: (w ++ rest)).drop (gapLength (c :: (w ++ rest))) = c :: (w ++ rest) := by
    rw [hgap, List.drop_zero]
  rw [List.cons_append, scanFrom_token hdrop, hlex, hgap]
  dsimp only
  rw [List.take_left, List.drop_left, List.take_zero, Position.after_nil]
  cases scanFrom (p.after (c :: w)) rest <;> rfl

/-- What is cut off in front of nothing is the only token. -/
theorem kinds_of_cutsOff {source : String} (hsource : source.toList = w) (h : CutsOff w kind []) :
    kinds source = .ok [kind, .eof] := by
  have hend : scanFrom (Position.start.after w) [] = _ := scanFrom_end rfl
  have hall := h .start
  rw [List.append_nil, hend] at hall
  rw [kinds, tokenize, scan, hsource, hall]
  rfl

/-! ## Names -/

/-- A name behind the sigil of locals is cut off where it is closed. -/
theorem cutsOff_localName (name : String) (hrest : Closes rest) :
    CutsOff ('%' :: (quoteName name).toList) (.localRef (.named name)) rest := by
  refine cutsOff_of_lexeme (fun _ => rfl) ?_
  rw [lexeme_percent, reference_quoteName _ _ hrest.not_isNameChar]
  rfl

/-- A name behind the sigil of globals is cut off where it is closed. -/
theorem cutsOff_globalName (name : String) (hrest : Closes rest) :
    CutsOff ('@' :: (quoteName name).toList) (.globalRef (.named name)) rest := by
  refine cutsOff_of_lexeme (fun _ => rfl) ?_
  rw [lexeme_at, reference_quoteName _ _ hrest.not_isNameChar]
  rfl

theorem kinds_localName (name : String) :
    kinds ("%" ++ quoteName name) = .ok [.localRef (.named name), .eof] :=
  kinds_of_cutsOff String.toList_append (cutsOff_localName name closes_nil)

theorem kinds_globalName (name : String) :
    kinds ("@" ++ quoteName name) = .ok [.globalRef (.named name), .eof] :=
  kinds_of_cutsOff String.toList_append (cutsOff_globalName name closes_nil)

/-- Names are told apart by what is written for them. -/
theorem eq_of_quoteName_eq {name other : String} (h : quoteName other = quoteName name) :
    other = name := by
  have hkinds := kinds_localName other
  rw [h, kinds_localName name] at hkinds
  cases hkinds
  rfl

/-- What is written for a name starts with a quote or with a character that is no digit. -/
theorem not_isNumeral_quoteName (name : String) : ¬ IsNumeral (quoteName name).toList := by
  rintro ⟨_, hdigits⟩
  cases hbare : isBare name.toList with
  | true =>
    rw [quoteName_of_isBare hbare] at hdigits
    cases hname : name.toList with
    | nil => rw [hname] at hbare; cases hbare
    | cons c w =>
      rw [hname, isBare, Bool.and_eq_true, Bool.not_eq_true'] at hbare
      rw [hname] at hdigits
      rw [hdigits c List.mem_cons_self] at hbare
      cases hbare.1
  | false =>
    rw [quoteName_of_not_isBare hbare] at hdigits
    exact absurd (hdigits '"' List.mem_cons_self) (by decide)

/-- So a name is the only identifier that is written as it is. -/
theorem eq_named_of_spelling {id : Ident} (h : id.spelling = quoteName name) : id = .named name := by
  cases id with
  | named other => exact congrArg Ident.named (eq_of_quoteName_eq h)
  | slot n =>
    refine absurd ?_ (not_isNumeral_quoteName name)
    rw [← h]
    exact isNumeral_toString n

/-- **Cutting undoes quoting**: what is written for a name behind a sigil is this name, alone and in
front of what closes it, and nothing else is written like it. -/
theorem readBack_quoteName (name : String) : ReadBack name where
  localAlone := kinds_localName name
  globalAlone := kinds_globalName name
  localFirst _ := cutsOff_localName name
  globalFirst _ := cutsOff_globalName name
  apart _ := eq_named_of_spelling
  notNumeral := not_isNumeral_quoteName name

/-! ## Identifiers -/

/-- Digits that fit 32 bits are read as a number behind either sigil. -/
theorem reference_toString (sigil : Char) {n : Nat} (hn : n < bound32) :
    reference sigil ((toString n).toList ++ []) = .ok (.slot n, (toString n).toList.length) :=
  reference_digits sigil (isNumeral_toString n) (decimal?_toString hn) fun _ h => by cases h

theorem kinds_localSlot {n : Nat} (hn : n < bound32) :
    kinds ("%" ++ toString n) = .ok [.localRef (.slot n), .eof] := by
  have hcuts : CutsOff ('%' :: (toString n).toList) (.localRef (.slot n)) [] := by
    refine cutsOff_of_lexeme (fun _ => rfl) ?_
    rw [lexeme_percent, reference_toString _ hn]
    rfl
  exact kinds_of_cutsOff String.toList_append hcuts

theorem kinds_globalSlot {n : Nat} (hn : n < bound32) :
    kinds ("@" ++ toString n) = .ok [.globalRef (.slot n), .eof] := by
  have hcuts : CutsOff ('@' :: (toString n).toList) (.globalRef (.slot n)) [] := by
    refine cutsOff_of_lexeme (fun _ => rfl) ?_
    rw [lexeme_at, reference_toString _ hn]
    rfl
  exact kinds_of_cutsOff String.toList_append hcuts

/-- What is written for an identifier is read as this identifier, if numbers have 32 bits. -/
theorem kinds_local {id : Ident} (hid : ∀ n, id = .slot n → n < bound32) :
    kinds ("%" ++ id.spelling) = .ok [.localRef id, .eof] := by
  cases id with
  | named name => exact kinds_localName name
  | slot n => exact kinds_localSlot (hid n rfl)

theorem kinds_global {id : Ident} (hid : ∀ n, id = .slot n → n < bound32) :
    kinds ("@" ++ id.spelling) = .ok [.globalRef id, .eof] := by
  cases id with
  | named name => exact kinds_globalName name
  | slot n => exact kinds_globalSlot (hid n rfl)

end IrRecords.Token

namespace IrRecords

/-- **Identifiers are told apart by what is written for them.** -/
theorem Ident.eq_of_spelling_eq {id id' : Ident} (h : id.spelling = id'.spelling) : id = id' := by
  cases id' with
  | named name => exact Token.eq_named_of_spelling h
  | slot n =>
    cases id with
    | named name => exact (Token.eq_named_of_spelling h.symm).symm
    | slot n' => exact congrArg Ident.slot (Text.eq_of_toString_eq h)

end IrRecords
