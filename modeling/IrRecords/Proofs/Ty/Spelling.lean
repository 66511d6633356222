import IrRecords.Proofs.Token.Lexemes
import IrRecords.Ty.Printer

/-!
# The tokens of a type

`Ty.text` spells a type, and `Ty.kinds` lists the kinds of the tokens that the spelling is cut into.
The two are defined side by side, constructor by constructor, and `Ty.cuts_text` says that they
agree on the types that survive printing (`Ty.prints`). Numbers have to be small enough to be read,
the names of structs have to stand for themselves without quotes, and a pointer in an address space
of its own must not lead to the plain opaque pointer: the two would be spelled like an opaque
pointer in this address space and a star.
-/

namespace IrRecords

/-! ## Lists in brackets -/

/-- The kinds of the tokens of a list, with or without three points at its end. -/
def listedKinds : List (List TokenKind) → Bool → List TokenKind
  | [], false => []
  | [], true => [.ellipsis]
  | [ks], false => ks
  | ks :: rest, vararg => ks ++ .comma :: listedKinds rest vararg

theorem listedKinds_cons_cons (ks ks' : List TokenKind) (rest : List (List TokenKind))
    (vararg : Bool) : listedKinds (ks :: ks' :: rest) vararg
      = ks ++ .comma :: listedKinds (ks' :: rest) vararg := by
  cases vararg <;> rfl

/-- Three points at the end of a list that is not empty stand behind one more comma. -/
theorem listedKinds_true {kss : List (List TokenKind)} (h : kss ≠ []) :
    listedKinds kss true = listedKinds kss false ++ [.comma, .ellipsis] := by
  induction kss with
  | nil => exact absurd rfl h
  | cons ks rest ih =>
    cases rest with
    | nil => rfl
    | cons ks' rest =>
      -- The three points stand behind the last element, so they are found by going along the list.
      rw [listedKinds_cons_cons, listedKinds_cons_cons, ih (by simp), List.append_assoc,
        List.cons_append]

/-- What holds of all tokens between the commas holds of all tokens of a list. -/
theorem forall_listedKinds {p : TokenKind → Prop} {kss : List (List TokenKind)} (vararg : Bool)
    (hcomma : p .comma) (hdots : p .ellipsis) (h : ∀ ks ∈ kss, ∀ k ∈ ks, p k) :
    ∀ k ∈ listedKinds kss vararg, p k := by
  induction kss with
  | nil =>
    cases vararg with
    | false => exact List.forall_mem_nil p
    | true => exact List.forall_mem_singleton.mpr hdots
  | cons ks rest ih =>
    rw [List.forall_mem_cons] at h
    by_cases hlast : rest = [] ∧ vararg = false
    · obtain ⟨rfl, rfl⟩ := hlast
      exact h.1
    · rw [listedKinds, List.forall_mem_append, List.forall_mem_cons]
      · exact ⟨h.1, hcomma, ih h.2⟩
      · exact fun hvararg hrest => hlast ⟨hrest, hvararg⟩

namespace Ty

/-! ## Types that survive printing -/

/-- Whether a struct of this name can be referred to without quotes. -/
def nameStands (name : String) : Bool :=
  Text.isBare name.toList
    || (Text.decimal? Text.bound32 name.toList).any fun number => toString number == name

mutual

/-- Whether the spelling of a type stands for this type. -/
def prints : Ty → Bool
  | primitive _ => true
  | int bits => 0 < bits && bits < Text.bound32
  | function ret params _ => prints ret && allPrint params
  | pointer pointee space =>
    prints pointee && space < Text.bound32 && (space == 0 || pointee != bare 0)
  | bare space => space < Text.bound32
  | named name => nameStands name
  | literal fields _ => allPrint fields
  | array length elem => length < Text.bound64 && prints elem
  | vector _ length elem => length < Text.bound32 && prints elem

/-- Whether this is so for all types of a list. -/
def allPrint : List Ty → Bool
  | [] => true
  | ty :: rest => prints ty && allPrint rest

end

theorem prints_of_mem {tys : List Ty} (h : allPrint tys = true) : ∀ ty ∈ tys, ty.prints = true := by
  induction tys with
  | nil => intro ty hty; cases hty
  | cons first rest ih =>
    rw [allPrint, Bool.and_eq_true] at h
    intro ty hty
    rcases List.mem_cons.mp hty with rfl | hty
    · exact h.1
    · exact ih h.2 ty hty

/-! ## Kinds -/

/-- The kinds of the tokens that name an address space; address space 0 is not mentioned. -/
def spaceKinds (space : Nat) : List TokenKind :=
  if space = 0 then []
  else [.word "addrspace", .opener .round, .int (toString space), .closer .round]

mutual

/-- The kinds of the tokens of a type. -/
def kinds : Ty → List TokenKind
  | primitive p => [.word p.keyword]
  | int bits => [.word ("i" ++ toString bits)]
  | function ret params vararg =>
    kinds ret ++ .opener .round :: (listedKinds (listKinds params) vararg ++ [.closer .round])
  | pointer pointee space => kinds pointee ++ (spaceKinds space ++ [.star])
  | bare space => .word "ptr" :: spaceKinds space
  | named name => [.localRef (.ofLabel name)]
  | literal fields packed =>
    let body := .opener .curly :: (listedKinds (listKinds fields) false ++ [.closer .curly])
    if packed then .opener .angle :: (body ++ [.closer .angle]) else body
  | array length elem =>
    .opener .square :: .int (toString length) :: .word "x" :: (kinds elem ++ [.closer .square])
  | vector scalable length elem =>
    .opener .angle :: ((if scalable then [.word "vscale", .word "x"] else [])
      ++ .int (toString length) :: .word "x" :: (kinds elem ++ [.closer .angle]))

/-- The kinds of the tokens of each type of a list. -/
def listKinds : List Ty → List (List TokenKind)
  | [] => []
  | ty :: rest => kinds ty :: listKinds rest

end

/-! ### Words -/

theorem spaceKinds_ne_type (space : Nat) : ∀ k ∈ spaceKinds space, k ≠ .word "type" := by
  rw [spaceKinds]
  split <;> simp

/-- The word of an integer type is no word that starts with another letter. -/
theorem int_ne {bits : Nat} {w : String} (hw : w.toList.head? ≠ some 'i') :
    "i" ++ toString bits ≠ w := by
  rintro rfl
  rw [String.toList_append] at hw
  exact hw rfl

mutual

/-- No type has the word `type` in it. -/
theorem kinds_ne_type : (ty : Ty) → ∀ k ∈ ty.kinds, k ≠ .word "type"
  | primitive p => by
    -- A keyword is one of a few words, and none of these is `type`.
    rw [kinds, List.forall_mem_singleton]
    cases p <;> decide
  | int bits => by
    rw [kinds, List.forall_mem_singleton]
    exact fun h => int_ne (by decide) (TokenKind.word.inj h)
  | function ret params vararg => by
    have hparams := forall_listedKinds vararg (by simp) (by simp) (listKinds_ne_type params)
    simp only [kinds, List.forall_mem_append, List.forall_mem_cons]
    exact ⟨kinds_ne_type ret, by simp, hparams, by simp, by simp⟩
  | pointer pointee space => by
    simp only [kinds, List.forall_mem_append, List.forall_mem_cons]
    exact ⟨kinds_ne_type pointee, spaceKinds_ne_type space, by simp, by simp⟩
  | bare space => by
    rw [kinds, List.forall_mem_cons]
    exact ⟨by decide, spaceKinds_ne_type space⟩
  | named name => by
    rw [kinds, List.forall_mem_singleton]
    simp
  | literal fields packed => by
    have hfields := forall_listedKinds false (by simp) (by simp) (listKinds_ne_type fields)
    cases packed with
    | false =>
      simp only [kinds, Bool.false_eq_true, if_false, List.forall_mem_append, List.forall_mem_cons]
      exact ⟨by simp, hfields, by simp, by simp⟩
    | true =>
      simp only [kinds, if_true, List.forall_mem_append, List.forall_mem_cons]
      exact ⟨by simp, ⟨by simp, hfields, by simp, by simp⟩, by simp, by simp⟩
  | array length elem => by
    simp only [kinds, List.forall_mem_append, List.forall_mem_cons]
    exact ⟨by simp, by simp, by decide, kinds_ne_type elem, by simp, by simp⟩
  | vector scalable length elem => by
    have hscalable : ∀ k ∈ (if scalable then [.word "vscale", .word "x"] else []),
        k ≠ TokenKind.word "type" := by
      cases scalable <;> simp
    simp only [kinds, List.forall_mem_append, List.forall_mem_cons]
    exact ⟨by simp, hscalable, by simp, by decide, kinds_ne_type elem, by simp, by simp⟩

theorem listKinds_ne_type : (tys : List Ty) → ∀ ks ∈ listKinds tys, ∀ k ∈ ks, k ≠ .word "type"
  | [] => List.forall_mem_nil _
  | ty :: rest => by
    rw [listKinds, List.forall_mem_cons]
    exact ⟨kinds_ne_type ty, listKinds_ne_type rest⟩

end

theorem listKinds_eq (tys : List Ty) : listKinds tys = tys.map kinds := by
  induction tys with
  | nil => rfl
  | cons ty rest ih => rw [listKinds, ih, List.map_cons]

/-! ## Cutting -/

open Token

/-- A number is a piece. -/
theorem cuts_number (n : Nat) : Cuts (toString n).toList [.int (toString n)] :=
  .numeral (Text.isNumeral_toString n)

/-- A piece with a closing piece of punctuation behind it. -/
theorem cuts_closed {c : Char} {k : TokenKind} {w : List Char} {ks : List TokenKind}
    (hc : punctuation? c = some k) (h : Cuts w ks) : Cuts (w ++ [c]) (ks ++ [k]) := by
  have hd : isDelimiter c = true := by simp [isDelimiter, hc]
  exact h.append (.punctuation hc .nil) (Delimited.cons_append hd)

/-- A piece with a blank and another piece behind it. -/
theorem cuts_spaced {v w : List Char} {js ks : List TokenKind} (hv : Cuts v js) (hw : Cuts w ks) :
    Cuts (v ++ ' ' :: w) (js ++ ks) :=
  hv.append hw.blank (Delimited.cons_append rfl)

/-- The spelling of an address space is a piece. -/
theorem cuts_spaceSuffix (space : Nat) : Cuts (spaceSuffix space).toList (spaceKinds space) := by
  rw [spaceSuffix, spaceKinds]
  by_cases h : space = 0
  · rw [if_pos h, if_pos h]
    exact .nil
  · rw [if_neg h, if_neg h]
    -- The suffix is taken apart into a blank, a word and a number in parentheses.
    have htext : (s!" addrspace({space})").toList
        = ' ' :: ("addrspace".toList ++ '(' :: ((toString space).toList ++ [')'])) := by
      change (" addrspace(" ++ toString space ++ ")").toList = _
      simp only [String.toList_append, List.append_assoc]
      rfl
    rw [htext]
    have hnumber : Cuts ('(' :: ((toString space).toList ++ [')']))
        [.opener .round, .int (toString space), .closer .round] :=
      .punctuation rfl (cuts_closed rfl (cuts_number space))
    exact ((Cuts.word (s := "addrspace") (by decide)).append hnumber
      (Delimited.cons_append rfl)).blank

/-- It starts with a blank, if there is anything of it. -/
theorem delimited_spaceSuffix (space : Nat) {cs : List Char} (h : Delimited cs) :
    Delimited ((spaceSuffix space).toList ++ cs) := by
  rw [spaceSuffix]
  by_cases hs : space = 0
  · rw [if_pos hs]
    exact h
  · rw [if_neg hs]
    change Delimited ((" addrspace(" ++ toString space ++ ")").toList ++ cs)
    simp only [String.toList_append, List.append_assoc]
    exact delimited_cons (c := ' ') (by decide)

/-- The word of an integer type is a word. -/
theorem isWord_int (bits : Nat) : IsWord ("i" ++ toString bits).toList := by
  have hdigits := (Text.isNumeral_toString bits).2
  rw [String.toList_append]
  refine ⟨⟨'i', (toString bits).toList, rfl, by decide⟩, fun c hc => ?_⟩
  rcases List.mem_cons.mp hc with rfl | hc
  · decide
  · exact isNameChar_of_isDigit (hdigits c hc)

theorem isWord_keyword (p : Primitive) : IsWord p.keyword.toList := by
  cases p <;> decide

/-- A bare name is no number. -/
theorem decimal?_of_isBare {bound : Nat} {cs : List Char} (h : Text.isBare cs = true) :
    Text.decimal? bound cs = none := by
  cases cs with
  | nil => rfl
  | cons c cs =>
    rw [Text.isBare, Bool.and_eq_true, Bool.not_eq_true'] at h
    rw [Text.decimal?]
    simp [h.1]

/-- The name of a struct behind its sigil is a piece. -/
theorem cuts_structName {name : String} (h : nameStands name = true) :
    Cuts ('%' :: name.toList) [.localRef (.ofLabel name)] := by
  rw [nameStands, Bool.or_eq_true] at h
  rcases h with h | h
  · -- A bare name is read as a name.
    rw [Ident.ofLabel, decimal?_of_isBare h]
    have hcuts := Cuts.localName name
    rwa [Text.quoteName_of_isBare h] at hcuts
  · -- A number is read as a slot, which shows the same digits.
    obtain ⟨number, hnumber, hname⟩ := (Option.any_eq_true _ _).mp h
    rw [Ident.ofLabel, hnumber, ← eq_of_beq hname]
    exact .localSlot (Text.lt_of_decimal? hnumber)

/-! ### Lists -/

/-- The fields of a struct in braces. -/
def bodyText (fields : List Ty) : String :=
  if fields.isEmpty then "\x7b\x7d" else "\x7b " ++ listText fields ++ " \x7d"

theorem cuts_braced {fields : List Ty}
    (h : Cuts (listText fields).toList (listedKinds (listKinds fields) false)) :
    Cuts (bodyText fields).toList
      (.opener .curly :: (listedKinds (listKinds fields) false ++ [.closer .curly])) := by
  cases fields with
  | nil => exact .punctuation (c := '\x7b') rfl (.punctuation (c := '\x7d') rfl .nil)
  | cons ty rest =>
    have htext : (bodyText (ty :: rest)).toList
        = '\x7b' :: ' ' :: ((listText (ty :: rest)).toList ++ ' ' :: ['\x7d']) := by
      simp [bodyText]
    rw [htext]
    exact .punctuation rfl (cuts_spaced h (.punctuation rfl .nil)).blank

/-- A list of types and, perhaps, three points. -/
theorem cuts_dotted {params : List Ty} (vararg : Bool)
    (h : Cuts (listText params).toList (listedKinds (listKinds params) false)) :
    Cuts ((listText params).toList
        ++ (if vararg then (if params.isEmpty then "..." else ", ...") else "").toList)
      (listedKinds (listKinds params) vararg) := by
  cases vararg with
  | false =>
    have hnone : (listText params).toList ++ "".toList = (listText params).toList :=
      List.append_nil _
    rw [if_neg Bool.false_ne_true, hnone]
    exact h
  | true =>
    rw [if_pos rfl]
    cases params with
    | nil => exact .ellipsis .nil
    | cons ty rest =>
      rw [listedKinds_true (by rw [listKinds]; exact List.cons_ne_nil _ _)]
      have hdots : Cuts [',', ' ', '.', '.', '.'] [.comma, .ellipsis] :=
        .punctuation rfl (Cuts.ellipsis .nil).blank
      change Cuts (_ ++ ", ...".toList) _
      exact h.append hdots (Delimited.cons_append rfl)

mutual

/-- **The spelling of a type is cut into the tokens of the type.** -/
theorem cuts_text : (ty : Ty) → ty.prints = true → Cuts ty.text.toList ty.kinds
  | primitive p, _ => .word (isWord_keyword p)
  | int bits, _ => .word (isWord_int bits)
  | function ret params vararg, h => by
    rw [prints, Bool.and_eq_true] at h
    have hparams := cuts_closed (c := ')') rfl (cuts_dotted vararg (cuts_listText params h.2))
    have htext : (text (function ret params vararg)).toList
        = ret.text.toList ++ ' ' :: '(' :: ((listText params).toList
          ++ (if vararg then (if params.isEmpty then "..." else ", ...") else "").toList
          ++ [')']) := by
      simp [text]
    rw [htext, kinds]
    exact cuts_spaced (cuts_text ret h.1) (.punctuation rfl hparams)
  | pointer pointee space, h => by
    rw [prints, Bool.and_eq_true, Bool.and_eq_true] at h
    have hpointee := cuts_text pointee h.1.1
    have hsuffix := cuts_closed (c := '*') rfl (cuts_spaceSuffix space)
    have htext : (text (pointer pointee space)).toList
        = pointee.text.toList ++ ((spaceSuffix space).toList ++ ['*']) := by
      simp [text]
    rw [htext, kinds]
    -- The suffix starts with a blank or is nothing but the star, and both are delimiters.
    refine hpointee.append hsuffix fun cs hcs => ?_
    rw [List.append_assoc]
    exact delimited_spaceSuffix space (delimited_cons rfl)
  | bare space, _ => by
    have htext : (text (bare space)).toList = "ptr".toList ++ (spaceSuffix space).toList := by
      simp [text]
    rw [htext, kinds]
    exact (Cuts.word (s := "ptr") (by decide)).append (cuts_spaceSuffix space)
      fun cs hcs => delimited_spaceSuffix space hcs
  | named name, h => by
    have htext : (text (named name)).toList = '%' :: name.toList := by simp [text]
    rw [htext, kinds]
    exact cuts_structName h
  | literal fields packed, h => by
    have hbody := cuts_braced (cuts_listText fields h)
    cases packed with
    | false =>
      have htext : (text (literal fields false)).toList = (bodyText fields).toList := by
        simp [text, bodyText]
      rw [htext, kinds]
      exact hbody
    | true =>
      have htext : (text (literal fields true)).toList
          = '<' :: ((bodyText fields).toList ++ ['>']) := by
        simp [text, bodyText]
      rw [htext, kinds]
      exact .punctuation rfl (cuts_closed rfl hbody)
  | array length elem, h => by
    rw [prints, Bool.and_eq_true] at h
    have helem := cuts_closed (c := ']') rfl (cuts_text elem h.2)
    have hword := cuts_spaced (Cuts.word (s := "x") (by decide)) helem
    have htext : (text (array length elem)).toList
        = '[' :: ((toString length).toList ++ ' ' :: ("x".toList ++ ' ' ::
          (elem.text.toList ++ [']']))) := by
      simp [text]
    rw [htext, kinds]
    exact .punctuation rfl (cuts_spaced (cuts_number length) hword)
  | vector scalable length elem, h => by
    rw [prints, Bool.and_eq_true] at h
    have helem := cuts_closed (c := '>') rfl (cuts_text elem h.2)
    have hword := cuts_spaced (Cuts.word (s := "x") (by decide)) helem
    have hlength := cuts_spaced (cuts_number length) hword
    cases scalable with
    | false =>
      have htext : (text (vector false length elem)).toList
          = '<' :: ((toString length).toList ++ ' ' :: ("x".toList ++ ' ' ::
            (elem.text.toList ++ ['>']))) := by
        simp [text]
      rw [htext, kinds]
      exact .punctuation rfl hlength
    | true =>
      have hscale := cuts_spaced (Cuts.word (s := "vscale") (by decide))
        (cuts_spaced (Cuts.word (s := "x") (by decide)) hlength)
      have htext : (text (vector true length elem)).toList
          = '<' :: ("vscale".toList ++ ' ' :: ("x".toList ++ ' ' :: ((toString length).toList
            ++ ' ' :: ("x".toList ++ ' ' :: (elem.text.toList ++ ['>']))))) := by
        simp [text]
      rw [htext, kinds]
      exact .punctuation rfl hscale

/-- So is the list of the spellings of types. -/
theorem cuts_listText : (tys : List Ty) → allPrint tys = true →
    Cuts (listText tys).toList (listedKinds (listKinds tys) false)
  | [], _ => .nil
  | [ty], h => by
    rw [allPrint, Bool.and_eq_true] at h
    exact cuts_text ty h.1
  | ty :: ty' :: rest, h => by
    rw [allPrint, Bool.and_eq_true] at h
    have hrest := Cuts.punctuation (c := ',') rfl (cuts_listText (ty' :: rest) h.2).blank
    have htext : (listText (ty :: ty' :: rest)).toList
        = ty.text.toList ++ ',' :: ' ' :: (listText (ty' :: rest)).toList := by
      simp [listText]
    rw [htext]
    exact (cuts_text ty h.1).append hrest (Delimited.cons_append rfl)

end

end Ty

end IrRecords
