import IrRecords.Json
import IrRecords.Text.Quoted

/-!
# Reading documents

What is written in the compact layout can be read again. Each reader takes its own part off the
front of a text and answers what stands behind it, so that the lemma about it holds whatever comes
next: reading a string undoes escaping character by character (`readString_escapeChar`), and the
readers of documents, lists and objects follow the tree that was written (`readValue_compact`).

A document may be nested as deep as its text allows, so readers count down a number that bounds the
characters that are left.
-/

namespace IrRecords.Json

/-! ## Strings -/

/-- The character that is written as a backslash and `c`. -/
def unescape? : Char → Option Char
  | '"' => some '"'
  | '\\' => some '\\'
  | 'b' => some '\x08'
  | 't' => some '\t'
  | 'n' => some '\n'
  | 'f' => some '\x0C'
  | 'r' => some '\r'
  | _ => none

/-- The number whose hexadecimal digits are `digits`, behind the digits of `n`. -/
def readDigits (n : Nat) : List Char → Option Nat
  | [] => some n
  | d :: digits => Text.hexValue? d >>= fun v => readDigits (16 * n + v) digits

/-- The character whose code has the hexadecimal digits `digits`. -/
def ofDigits? (digits : List Char) : Option Char :=
  (readDigits 0 digits).bind fun n => if n.isValidChar then some (Char.ofNat n) else none

/-- Reads a string from behind its opening quote up to the closing one. -/
def readString : List Char → Option (List Char × List Char)
  | [] => none
  | '"' :: cs => some ([], cs)
  | '\\' :: 'u' :: a :: b :: c :: d :: cs => do
    let char ← ofDigits? [a, b, c, d]
    (readString cs).map (Prod.map (char :: ·) id)
  | '\\' :: c :: cs => do
    let char ← unescape? c
    (readString cs).map (Prod.map (char :: ·) id)
  | c :: cs => (readString cs).map (Prod.map (c :: ·) id)

/-- What stands behind the backslash of a short escape. -/
def escapeLetters : List Char := ['"', '\\', 'b', 't', 'n', 'f', 'r']

theorem forall_escapeLetters {P : Char → Prop}
    (h : P '"' ∧ P '\\' ∧ P 'b' ∧ P 't' ∧ P 'n' ∧ P 'f' ∧ P 'r') : ∀ d ∈ escapeLetters, P d := by
  simpa [escapeLetters] using h

/-- A character is written as a short escape, as its code, or as it is. -/
theorem escapeChar_cases (c : Char) :
    (∃ d ∈ escapeLetters, escapeChar c = ['\\', d] ∧ unescape? d = some c)
      ∨ (c.toNat < 0x20 ∧ escapeChar c = unicodeEscape c)
      ∨ (0x20 ≤ c.toNat ∧ c ≠ '"' ∧ c ≠ '\\' ∧ escapeChar c = [c]) := by
  unfold escapeChar
  split
  · next h => exact .inl ⟨'"', by decide, rfl, by rw [h]; rfl⟩
  split
  · next h => exact .inl ⟨'\\', by decide, rfl, by rw [h]; rfl⟩
  split
  · next h => exact .inl ⟨'b', by decide, rfl, by rw [h]; rfl⟩
  split
  · next h => exact .inl ⟨'t', by decide, rfl, by rw [h]; rfl⟩
  split
  · next h => exact .inl ⟨'n', by decide, rfl, by rw [h]; rfl⟩
  split
  · next h => exact .inl ⟨'f', by decide, rfl, by rw [h]; rfl⟩
  split
  · next h => exact .inl ⟨'r', by decide, rfl, by rw [h]; rfl⟩
  next hquote hslash _ _ _ _ _ =>
  split
  · next hcontrol => exact .inr (.inl ⟨hcontrol, rfl⟩)
  · next hcontrol => exact .inr (.inr ⟨Nat.le_of_not_lt hcontrol, hquote, hslash, rfl⟩)

/-- The digits of a control character are read as its code. -/
theorem ofDigits?_control {c : Char} (h : c.toNat < 0x20) :
    ofDigits? ['0', '0', Nat.digitChar (c.toNat / 16), Nat.digitChar (c.toNat % 16)] = some c := by
  have hall : ∀ n < 0x20, ofDigits? ['0', '0', Nat.digitChar (n / 16), Nat.digitChar (n % 16)]
      = some (Char.ofNat n) := by decide
  rw [hall c.toNat h, Char.ofNat_toNat]

/-- **Reading undoes escaping**, one character at a time. -/
theorem readString_escapeChar (c : Char) (cs : List Char) :
    readString (escapeChar c ++ cs) = (readString cs).map (Prod.map (c :: ·) id) := by
  rcases escapeChar_cases c with ⟨d, hd, hescape, hc⟩ | ⟨hcontrol, hescape⟩
    | ⟨_, hquote, hslash, hescape⟩
  · have hletter : ∀ d ∈ escapeLetters, d ≠ 'u' := forall_escapeLetters (by decide)
    rw [hescape, List.cons_append, List.singleton_append, readString, hc]
    · rfl
    · exact fun _ _ _ _ _ h => absurd h (hletter d hd)
  · rw [hescape, unicodeEscape]
    simp only [List.cons_append, List.nil_append]
    rw [readString, ofDigits?_control hcontrol]
    rfl
  · rw [hescape, List.singleton_append, readString]
    · exact hquote
    · exact fun _ _ _ _ _ h => absurd h hslash
    · exact fun _ _ h => absurd h hslash

theorem toList_quote (s : String) :
    (quote s).toList = '"' :: (s.toList.flatMap escapeChar ++ ['"']) := String.toList_ofList

/-- A string is read up to its closing quote. -/
theorem readString_quoted (s rest : List Char) :
    readString (s.flatMap escapeChar ++ '"' :: rest) = some (s, rest) := by
  induction s with
  | nil => rfl
  | cons c s ih =>
    rw [List.flatMap_cons, List.append_assoc, readString_escapeChar, ih]
    rfl

/-! ## Documents -/

mutual

/-- Reads a document of at most `n` characters. -/
def readValue : Nat → List Char → Option (Json × List Char)
  | _ + 1, '"' :: cs => do
    let (s, rest) ← readString cs
    return (.str (String.ofList s), rest)
  | n + 1, '[' :: cs =>
    if cs.head? = some ']' then some (.arr [], cs.tail)
    else do
      let (items, rest) ← readItems n cs
      return (.arr items, rest)
  | n + 1, '\x7b' :: cs =>
    if cs.head? = some '\x7d' then some (.obj [], cs.tail)
    else do
      let (fields, rest) ← readFields n cs
      return (.obj fields, rest)
  | _, _ => none

/-- Reads the elements of a list and the bracket behind them. -/
def readItems : Nat → List Char → Option (List Json × List Char)
  | 0, _ => none
  | n + 1, cs => do
    let (item, cs) ← readValue n cs
    match cs with
    | ']' :: rest => return ([item], rest)
    | ',' :: cs =>
      let (items, rest) ← readItems n cs
      return (item :: items, rest)
    | _ => none

/-- Reads the fields of an object and the brace behind them. -/
def readFields : Nat → List Char → Option (List (String × Json) × List Char)
  | 0, _ => none
  | n + 1, cs => do
    let (field, cs) ← readField n cs
    match cs with
    | '\x7d' :: rest => return ([field], rest)
    | ',' :: cs =>
      let (fields, rest) ← readFields n cs
      return (field :: fields, rest)
    | _ => none

/-- Reads a key and its value. -/
def readField : Nat → List Char → Option ((String × Json) × List Char)
  | n + 1, '"' :: cs => do
    match ← readString cs with
    | (key, ':' :: cs) =>
      let (value, rest) ← readValue n cs
      return ((String.ofList key, value), rest)
    | _ => none
  | _, _ => none

end

/-- Reads a text that is a document in the compact layout. -/
def read? (cs : List Char) : Option Json :=
  match readValue cs.length cs with
  | some (j, []) => some j
  | _ => none

/-! ### Texts of documents -/

theorem toList_compact_arr (items : List Json) :
    (compact (.arr items)).toList = '[' :: ((compactItems items).toList ++ [']']) := by
  rw [compact, String.toList_append, String.toList_append]
  rfl

theorem toList_compact_obj (fields : List (String × Json)) :
    (compact (.obj fields)).toList = '\x7b' :: ((compactFields fields).toList ++ ['\x7d']) := by
  rw [compact, String.toList_append, String.toList_append]
  rfl

theorem toList_compactItems_cons (item next : Json) (items : List Json) :
    (compactItems (item :: next :: items)).toList
      = (compact item).toList ++ ',' :: (compactItems (next :: items)).toList := by
  rw [compactItems, String.toList_append, String.toList_append, List.append_assoc]
  · rfl
  · exact List.cons_ne_nil _ _

theorem toList_compactFields_singleton (key : String) (value : Json) :
    (compactFields [(key, value)]).toList
      = (quote key).toList ++ ':' :: (compact value).toList := by
  rw [compactFields, String.toList_append, String.toList_append, List.append_assoc]
  rfl

theorem toList_compactFields_cons (key : String) (value : Json) (next : String × Json)
    (fields : List (String × Json)) :
    (compactFields ((key, value) :: next :: fields)).toList
      = (compactFields [(key, value)]).toList
        ++ ',' :: (compactFields (next :: fields)).toList := by
  rw [toList_compactFields_singleton, compactFields]
  · simp only [String.toList_append, List.append_assoc]
    rfl
  · exact List.cons_ne_nil _ _

/-- The elements of a list do not start like its end. -/
theorem head?_compactItems {items : List Json} (hne : items ≠ []) (cs : List Char) :
    ((compactItems items).toList ++ cs).head? ≠ some ']' := by
  have hitem : ∀ (item : Json) (cs : List Char),
      ((compact item).toList ++ cs).head? ≠ some ']' := by
    intro item cs
    cases item with
    | str s => rw [compact, toList_quote, List.cons_append, List.head?_cons]; decide
    | arr items => rw [toList_compact_arr, List.cons_append, List.head?_cons]; decide
    | obj fields => rw [toList_compact_obj, List.cons_append, List.head?_cons]; decide
  rcases items with _ | ⟨item, _ | ⟨next, items⟩⟩
  · exact absurd rfl hne
  · exact hitem item cs
  · rw [toList_compactItems_cons, List.append_assoc]
    exact hitem item _

/-- The fields of an object do not start like its end. -/
theorem head?_compactFields {fields : List (String × Json)} (hne : fields ≠ []) (cs : List Char) :
    ((compactFields fields).toList ++ cs).head? ≠ some '\x7d' := by
  have hfield : ∀ key value cs,
      ((compactFields [(key, value)]).toList ++ cs).head? ≠ some '\x7d' := by
    intro key value cs
    rw [toList_compactFields_singleton, toList_quote, List.cons_append, List.cons_append,
      List.head?_cons]
    decide
  rcases fields with _ | ⟨⟨key, value⟩, _ | ⟨next, fields⟩⟩
  · exact absurd rfl hne
  · exact hfield key value cs
  · rw [toList_compactFields_cons, List.append_assoc]
    exact hfield key value _

/-- A document has a property if it passes from the elements of lists and the values of objects to
these. -/
@[elab_as_elim]
theorem induction_on {motive : Json → Prop} (j : Json) (str : ∀ s, motive (str s))
    (arr : ∀ items, (∀ item ∈ items, motive item) → motive (arr items))
    (obj : ∀ fields, (∀ field ∈ fields, motive field.2) → motive (obj fields)) : motive j := by
  refine @Json.rec motive (fun items => ∀ item ∈ items, motive item)
    (fun fields => ∀ field ∈ fields, motive field.2) (fun field => motive field.2)
    str arr obj ?_ ?_ ?_ ?_ ?_ j
  · exact fun item h => absurd h List.not_mem_nil
  · exact fun item items hitem hitems => List.forall_mem_cons.mpr ⟨hitem, hitems⟩
  · exact fun field h => absurd h List.not_mem_nil
  · exact fun field fields hfield hfields => List.forall_mem_cons.mpr ⟨hfield, hfields⟩
  · exact fun key value h => h

/-! ### Reading them -/

/-- The document is read from every text that starts with it. -/
def IsRead (j : Json) : Prop := ∀ n rest, (compact j).toList.length ≤ n →
  readValue n ((compact j).toList ++ rest) = some (j, rest)

/-- The elements of a list are read if each of them is. -/
theorem readItems_compact {items : List Json} (hread : ∀ item ∈ items, IsRead item)
    (hne : items ≠ []) (n : Nat) (rest : List Char) (h : (compactItems items).toList.length < n) :
    readItems n ((compactItems items).toList ++ ']' :: rest) = some (items, rest) := by
  induction items generalizing n with
  | nil => exact absurd rfl hne
  | cons item items ih =>
    obtain ⟨hitem, hitems⟩ := List.forall_mem_cons.mp hread
    obtain ⟨n, rfl⟩ := Nat.exists_eq_succ_of_ne_zero (Nat.ne_zero_of_lt h)
    cases items with
    | nil =>
      rw [compactItems, readItems, hitem n _ (Nat.le_of_lt_succ h)]
      rfl
    | cons next items =>
      rw [toList_compactItems_cons, List.length_append, List.length_cons] at h
      rw [toList_compactItems_cons, List.append_assoc, List.cons_append, readItems,
        hitem n _ (by omega), Option.bind_eq_bind, Option.bind_some]
      simp only [ih hitems (List.cons_ne_nil _ _) n (by omega)]
      rfl

/-- A field is read if its value is. -/
theorem readField_compact {key : String} {value : Json} (hread : IsRead value) (n : Nat)
    (rest : List Char) (h : (compactFields [(key, value)]).toList.length ≤ n) :
    readField n ((compactFields [(key, value)]).toList ++ rest) = some ((key, value), rest) := by
  rw [toList_compactFields_singleton, toList_quote] at h ⊢
  obtain ⟨n, rfl⟩ := Nat.exists_eq_succ_of_ne_zero (Nat.ne_zero_of_lt h)
  simp only [List.length_append, List.length_cons] at h
  simp only [List.cons_append, List.append_assoc, List.nil_append]
  rw [readField, readString_quoted, Option.bind_eq_bind, Option.bind_some]
  simp only [hread n rest (by omega), String.ofList_toList]
  rfl

/-- The fields of an object are read if their values are. -/
theorem readFields_compact {fields : List (String × Json)}
    (hread : ∀ field ∈ fields, IsRead field.2) (hne : fields ≠ []) (n : Nat) (rest : List Char)
    (h : (compactFields fields).toList.length < n) :
    readFields n ((compactFields fields).toList ++ '\x7d' :: rest) = some (fields, rest) := by
  induction fields generalizing n with
  | nil => exact absurd rfl hne
  | cons field fields ih =>
    obtain ⟨key, value⟩ := field
    obtain ⟨(hvalue : IsRead value), hfields⟩ := List.forall_mem_cons.mp hread
    obtain ⟨n, rfl⟩ := Nat.exists_eq_succ_of_ne_zero (Nat.ne_zero_of_lt h)
    cases fields with
    | nil =>
      rw [readFields, readField_compact hvalue n _ (Nat.le_of_lt_succ h)]
      rfl
    | cons next fields =>
      rw [toList_compactFields_cons, List.length_append, List.length_cons] at h
      rw [toList_compactFields_cons, List.append_assoc, List.cons_append, readFields,
        readField_compact hvalue n _ (by omega), Option.bind_eq_bind, Option.bind_some]
      simp only [ih hfields (List.cons_ne_nil _ _) n (by omega)]
      rfl

/-- **Documents are read as they were written**, whatever stands behind them. -/
theorem readValue_compact (j : Json) : IsRead j := by
  induction j using induction_on with
  | str s =>
    intro n rest h
    rw [compact, toList_quote] at h ⊢
    obtain ⟨n, rfl⟩ := Nat.exists_eq_succ_of_ne_zero (Nat.ne_zero_of_lt h)
    rw [List.cons_append, List.append_assoc, readValue, List.singleton_append, readString_quoted,
      Option.bind_eq_bind, Option.bind_some]
    simp only [String.ofList_toList]
    rfl
  | arr items ih =>
    intro n rest h
    rw [toList_compact_arr] at h ⊢
    obtain ⟨n, rfl⟩ := Nat.exists_eq_succ_of_ne_zero (Nat.ne_zero_of_lt h)
    rw [List.length_cons, List.length_append, List.length_singleton] at h
    rw [List.cons_append, List.append_assoc, readValue, List.singleton_append]
    by_cases hne : items = []
    · subst hne
      rfl
    · -- No item begins with the closing bracket, so the row is not taken for an empty one.
      rw [if_neg (head?_compactItems hne _), readItems_compact ih hne n rest (by omega)]
      rfl
  | obj fields ih =>
    intro n rest h
    rw [toList_compact_obj] at h ⊢
    obtain ⟨n, rfl⟩ := Nat.exists_eq_succ_of_ne_zero (Nat.ne_zero_of_lt h)
    rw [List.length_cons, List.length_append, List.length_singleton] at h
    rw [List.cons_append, List.append_assoc, readValue, List.singleton_append]
    by_cases hne : fields = []
    · subst hne
      rfl
    · -- No field begins with the closing brace either.
      rw [if_neg (head?_compactFields hne _), readFields_compact ih hne n rest (by omega)]
      rfl

/-- The compact layout can be read. -/
theorem read?_compact (j : Json) : read? (compact j).toList = some j := by
  have h := readValue_compact j _ [] (Nat.le_refl _)
  rw [List.append_nil] at h
  rw [read?, h]

end IrRecords.Json
