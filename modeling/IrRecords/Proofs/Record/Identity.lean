import IrRecords.Proofs.Draft.Resolving
import IrRecords.Proofs.Record.Constants
import IrRecords.Proofs.Text.Decimal
import Mathlib.Logic.Basic

/-!
# What records tell apart

The record of an operand has the name of its value and its text without a sigil. An identifier can
be found again from these two (`Ident.eq_of_shown`), and in a function it belongs to one value only,
so the records of two local values differ, and those of two globals. Without sigils other pairs look
alike, though (`Function.Lookalike`): a local value and a global with the same identifier, and
whatever has no name and a constant that is written like its number.

`alike_of_read` says that there are no other pairs, for all operands of all functions that are read,
except where a constant loses its own first character. `records_confuse` shows that these pairs
occur.
-/

namespace IrRecords

/-! ## Identifiers -/

/-- A reference to the identifier without its sigil, as records show it. -/
def Ident.shown : Ident → String
  | .named name => if name ≠ "" then Text.quoteName name else Value.badReference
  | .slot number => toString number

/-- The identifier of a value. -/
def Value.ident (v : Value) : Ident :=
  match v.slot? with
  | some number => .slot number
  | none => .named v.name

@[simp] theorem Value.ident_global (ty : Ty) (id : Ident) : (Value.global ty id).ident = id := by
  cases id <;> rfl

/-- **An identifier is known from its name and from what is shown of it.** -/
theorem Ident.eq_of_shown {id id' : Ident} (hname : id.name = id'.name)
    (hshown : id.shown = id'.shown) : id = id' := by
  -- A number begins with a digit, and the text of what cannot be referred to does not.
  have hbad : ∀ number : Nat, toString number ≠ Value.badReference := by
    intro number h
    obtain ⟨_, hdigits⟩ := Text.isNumeral_toString number
    rw [h] at hdigits
    exact absurd (hdigits '<' (by decide)) (by decide)
  cases id with
  | named name =>
    cases id' with
    | named name' => exact congrArg _ hname
    | slot number =>
      have hempty : name = "" := hname
      rw [hempty] at hshown
      exact absurd hshown.symm (hbad number)
  | slot number =>
    cases id' with
    | named name =>
      have hempty : name = "" := hname.symm
      rw [hempty] at hshown
      exact absurd hshown (hbad number)
    | slot number' =>
      -- Both numbers are read back from the one text.
      have hread := congrArg (fun text => Text.decimal? (number + number' + 1) text.toList) hshown
      dsimp only [shown] at hread
      rw [Text.decimal?_toString (by omega), Text.decimal?_toString (by omega)] at hread
      exact congrArg _ (Option.some.inj hread)

/-- What stands behind a sigil is left. -/
theorem stripSigil_append {sigil : Char} (h : sigil = '%' ∨ sigil = '@') (text : String) :
    stripSigil (sigil.toString ++ text) = text := by
  have hlist : (sigil.toString ++ text).toList = sigil :: text.toList := by
    rw [String.toList_append, Char.toString, String.toList_singleton, List.singleton_append]
  unfold stripSigil
  rw [hlist]
  rcases h with rfl | rfl
  all_goals exact String.ofList_toList

/-- What is shown of a reference does not depend on its sigil. -/
theorem stripSigil_reference {v : Value} {id : Ident} {sigil : Char} (hname : v.name = id.name)
    (hslot : v.slot? = id.slot?) (hsigil : sigil = '%' ∨ sigil = '@') :
    stripSigil (v.reference sigil) = id.shown := by
  rw [Value.reference, hname, hslot]
  cases id with
  | named name =>
    by_cases hempty : name = ""
    · rw [hempty]
      rcases hsigil with rfl | rfl
      all_goals rfl
    · rw [Ident.name, if_pos hempty, stripSigil_append hsigil, Ident.shown, if_pos hempty]
  | slot number => exact stripSigil_append hsigil _

/-! ## What operands stand for -/

/-- What an operand stands for. -/
inductive Referent where
  /-- An argument, a block or a result of the function, by its place. -/
  | own (place : ValueId)
  /-- A global, by its identifier. -/
  | global (id : Ident)
  /-- A constant, by its text. -/
  | constant (text : String)
  deriving Repr, DecidableEq

/-- The records agree on everything that is said about a value. -/
def Record.Operand.AgreesWith (r s : Record.Operand) : Prop :=
  r.name = s.name ∧ r.ty = s.ty ∧ r.value = s.value

namespace Function

/-- What the value at a place stands for. -/
def referent? (f : Function) (a : ValueId) : Option Referent :=
  (f.values[a]?).map fun v =>
    match v.origin with
    | .constant text => .constant text
    | .global => .global v.ident
    | .argument _ | .instruction _ | .block _ => .own a

/-- The value at `a` is an operand of an instruction, and `r` is its record. -/
def HasOperand (f : Function) (a : ValueId) (r : Record.Operand) : Prop :=
  ∃ i ∈ f.instrs, ∃ index, i.operands[index]? = some a ∧ f.operandRecord? i index a = some r

theorem hasOperand_iff {f : Function} {a : ValueId} {r : Record.Operand} :
    f.HasOperand a r ↔ ∃ i ∈ f.instrs.toList, ∃ p ∈ i.operands.zipIdx,
      p.1 = a ∧ f.operandRecord? i p.2 a = some r := by
  constructor
  · rintro ⟨i, hi, index, ha, hr⟩
    have hmem : (a, index) ∈ i.operands.zipIdx := List.mem_zipIdx_iff_getElem?.mpr ha
    exact ⟨i, Array.mem_toList_iff.mpr hi, _, hmem, rfl, hr⟩
  · rintro ⟨i, hi, ⟨b, index⟩, hb, rfl, hr⟩
    exact ⟨i, Array.mem_toList_iff.mp hi, index, List.mem_zipIdx_iff_getElem?.mp hb, hr⟩

instance (f : Function) (a : ValueId) (r : Record.Operand) : Decidable (f.HasOperand a r) :=
  decidable_of_iff _ hasOperand_iff.symm

/-- The value at `a` is metadata that begins with a sigil. -/
def LosesSigil (f : Function) (a : ValueId) : Prop :=
  ∃ v text, f.values[a]? = some v ∧ v.ty = .metadata ∧ v.origin = .constant ("%" ++ text)

/-- What looks alike without sigils. -/
inductive Lookalike (f : Function) : Referent → Referent → Prop
  /-- A local value and a global with its name or number. -/
  | global {place : ValueId} {v : Value} (hv : f.values[place]? = some v) :
      Lookalike f (.own place) (.global v.ident)
  /-- A local value without a name, and a constant that is written like its number. -/
  | ownConstant {place : ValueId} {v : Value} (hv : f.values[place]? = some v)
      (hname : v.name = "") : Lookalike f (.own place) (.constant v.ident.shown)
  /-- A global without a name, and a constant that is written like its number. -/
  | globalConstant {id : Ident} (hname : id.name = "") :
      Lookalike f (.global id) (.constant id.shown)

/-- The values at `a` and `b` stand for the same or for what looks alike, or one of them loses its
sigil. -/
def Alike (f : Function) (a b : ValueId) : Prop :=
  ∃ x y, f.referent? a = some x ∧ f.referent? b = some y
    ∧ (x = y ∨ f.Lookalike x y ∨ f.Lookalike y x ∨ Xor (f.LosesSigil a) (f.LosesSigil b))

theorem Alike.symm {f : Function} {a b : ValueId} (h : f.Alike a b) : f.Alike b a := by
  obtain ⟨x, y, hx, hy, hsame | hxy | hyx | hsigil⟩ := h
  · exact ⟨y, x, hy, hx, .inl hsame.symm⟩
  · exact ⟨y, x, hy, hx, .inr (.inr (.inl hxy))⟩
  · exact ⟨y, x, hy, hx, .inr (.inl hyx)⟩
  · exact ⟨y, x, hy, hx, .inr (.inr (.inr hsigil.symm))⟩

/-- Two operands have the record `r`, and they stand for `x` and `y`. -/
def Confuses (f : Function) (r : Record.Operand) (x y : Referent) : Prop :=
  ∃ a < f.values.size, ∃ b < f.values.size,
    f.HasOperand a r ∧ f.HasOperand b r ∧ f.referent? a = some x ∧ f.referent? b = some y

instance (f : Function) (r : Record.Operand) (x y : Referent) : Decidable (f.Confuses r x y) :=
  inferInstanceAs (Decidable (∃ a < f.values.size, ∃ b < f.values.size, _))

end Function

/-! ## Operands and their records -/

section

variable {d : Draft} {f : Function} {a b : ValueId} {r s : Record.Operand} {x y : Referent}

/-- The value at `a` stands for a referent, and this is what `r` says of it. -/
inductive ShownAs (d : Draft) (f : Function) (a : ValueId) (r : Record.Operand) : Referent → Prop
  | own {definition : Draft.Definition} {id : Ident} (hplace : d.definitions[a]? = some definition)
      (hid : definition.id? = some id) (hname : r.name = id.name) (hvalue : r.value = id.shown) :
      ShownAs d f a r (.own a)
  | global {ty : Ty} {id : Ident} (hplace : f.values[a]? = some (.global ty id))
      (hname : r.name = id.name) (hvalue : r.value = id.shown) : ShownAs d f a r (.global id)
  | constant {ty : Ty} {text : String} (hplace : f.values[a]? = some (.constant ty text))
      (hname : r.name = "") (hvalue : r.value = text) (hsigil : stripSigil text = text) :
      ShownAs d f a r (.constant text)
  | metadata {text : String} (hplace : f.values[a]? = some (.constant .metadata text))
      (hname : r.name = "") (hvalue : text = "%" ++ r.value) : ShownAs d f a r (.constant text)

theorem ShownAs.referent? (h : ShownAs d f a r x) (hlaid : Draft.LaidOut d f) :
    f.referent? a = some x := by
  unfold Function.referent?
  cases h with
  | own hplace _ _ _ =>
    rw [hlaid.value_of_definition hplace, Option.map_some]
    obtain ⟨hconstant, hglobal⟩ := Draft.origin_of_definition (List.mem_of_getElem? hplace)
    dsimp only [Draft.Definition.value]
    split
    · next h => exact absurd h (hconstant _)
    · next h => exact absurd h hglobal
    all_goals rfl
  | global hplace _ _ =>
    rw [hplace, Option.map_some]
    exact congrArg (some ∘ Referent.global) (Value.ident_global _ _)
  | constant hplace _ _ _ => rw [hplace]; rfl
  | metadata hplace _ _ => rw [hplace]; rfl

/-- The value of a definition is referred to by the identifier of the definition. -/
theorem stripSigil_definition {definition : Draft.Definition} {id : Ident}
    (h : definition ∈ d.definitions) (hid : definition.id? = some id) :
    definition.value.name = id.name ∧ definition.value.ident = id
      ∧ stripSigil definition.value.rendering = id.shown := by
  have hname : definition.value.name = id.name := by rw [Draft.Definition.value, hid]; rfl
  have hslot : definition.value.slot? = id.slot? := by rw [Draft.Definition.value, hid]; rfl
  obtain ⟨hconstant, hglobal⟩ := Draft.origin_of_definition h
  refine ⟨hname, ?_, ?_⟩
  · rw [Value.ident, hslot, hname]
    cases id <;> rfl
  · unfold Value.rendering
    split
    · next text horigin => exact absurd horigin (hconstant text)
    · next horigin => exact absurd horigin hglobal
    all_goals exact stripSigil_reference hname hslot (.inl rfl)

/-- The record of an operand says what the operand is spelled by. -/
theorem exists_shownAs {o : Draft.Operand} (hlaid : Draft.LaidOut d f)
    (ho : (∃ slice, Draft.Spells slice o ∧ ∀ t ∈ slice, t.Lexed) ∨ o = Draft.impliedCount)
    (ha : Draft.Resolves d.definitions f.values o a) {i : Instr} {index : Nat}
    (hr : f.operandRecord? i index a = some r) : ∃ x, ShownAs d f a r x := by
  obtain ⟨v, hv, hname, _, hvalue⟩ := Function.of_operandRecord? hr
  cases ha with
  | reference hplace hid _ =>
    rw [hlaid.value_of_definition hplace, Option.some.injEq] at hv
    subst hv
    obtain ⟨hname', _, hvalue'⟩ := stripSigil_definition (List.mem_of_getElem? hplace) hid
    exact ⟨_, .own hplace hid (hname.trans hname') (hvalue.trans hvalue')⟩
  | known hbehind hplace =>
    rw [hplace, Option.some.injEq] at hv
    subst hv
    -- A constant is shown as its text, or as this text without a sigil if it is metadata.
    have hconstant : ∀ {ty slice}, Draft.ReadsConstant (.constant ty (Token.rowText slice)) slice →
        (∀ t ∈ slice, t.Lexed) → f.values[a]? = some (.constant ty (Token.rowText slice)) →
        r.name = "" → r.value = stripSigil (Token.rowText slice) → ∃ x, ShownAs d f a r x := by
      intro ty slice hreads hlexed hplace hname hvalue
      rcases hreads.stripSigil_cases hlexed with h | ⟨hty, _, h⟩
      · exact ⟨_, .constant hplace hname (hvalue.trans h) h⟩
      · have hty' : ty = .metadata := hty
        exact ⟨_, .metadata (hty' ▸ hplace) hname (hvalue ▸ h)⟩
    rcases ho with ⟨slice, hslice, hlexed⟩ | ho
    · cases hslice with
      | global ht =>
        refine ⟨_, .global hplace hname (hvalue.trans ?_)⟩
        exact stripSigil_reference rfl rfl (.inr rfl)
      | constant hty hreads => exact hconstant (.inl ⟨hty, hreads⟩) hlexed hplace hname hvalue
      | metadata hreads => exact hconstant (.inr ⟨rfl, hreads⟩) hlexed hplace hname hvalue
    · cases ho
      exact ⟨_, .constant hplace hname hvalue (by decide)⟩

theorem losesSigil_referent? (h : f.LosesSigil a) :
    ∃ text, f.referent? a = some (.constant ("%" ++ text)) := by
  obtain ⟨v, text, hv, _, horigin⟩ := h
  refine ⟨text, ?_⟩
  rw [Function.referent?, hv, Option.map_some, horigin]

/-- Only a constant can lose its sigil. -/
theorem ShownAs.not_losesSigil (h : ShownAs d f a r x) (hlaid : Draft.LaidOut d f)
    (hx : ∀ text, x ≠ .constant text) : ¬ f.LosesSigil a := by
  intro hlost
  obtain ⟨text, htext⟩ := losesSigil_referent? hlost
  rw [h.referent? hlaid, Option.some.injEq] at htext
  exact hx _ htext

/-- A constant is shown in full, or it loses its sigil. -/
theorem ShownAs.constant_cases {text : String} (h : ShownAs d f a r (.constant text))
    (hlaid : Draft.LaidOut d f) : r.name = ""
      ∧ (r.value = text ∧ ¬ f.LosesSigil a ∨ "%" ++ r.value = text ∧ f.LosesSigil a) := by
  have hreferent := h.referent? hlaid
  cases h with
  | constant hplace hname hvalue hsigil =>
    refine ⟨hname, .inl ⟨hvalue, fun hlost => ?_⟩⟩
    obtain ⟨rest, hrest⟩ := losesSigil_referent? hlost
    rw [hreferent, Option.some.injEq, Referent.constant.injEq] at hrest
    have hstrip : stripSigil ("%" ++ rest) = rest := stripSigil_append (.inl rfl) rest
    rw [hrest, hstrip] at hsigil
    have hlength := congrArg String.length hsigil
    rw [String.length_append] at hlength
    have hone : "%".length = 1 := rfl
    omega
  | metadata hplace hname hvalue =>
    exact ⟨hname, .inr ⟨hvalue.symm, _, _, hplace, rfl, congrArg Origin.constant hvalue⟩⟩

/-- A local value or a global without a name looks like a constant. -/
theorem ShownAs.lookalike_constant (h : ShownAs d f a r x) (hlaid : Draft.LaidOut d f)
    (hx : ∀ text, x ≠ .constant text) (hempty : r.name = "") :
    f.Lookalike x (.constant r.value) := by
  cases h with
  | own hplace hid hname hvalue =>
    obtain ⟨hname', hident, _⟩ := stripSigil_definition (List.mem_of_getElem? hplace) hid
    rw [hvalue, ← hident]
    exact .ownConstant (hlaid.value_of_definition hplace) (by rw [hname', ← hname, hempty])
  | global _ hname hvalue =>
    rw [hvalue]
    exact .globalConstant (by rw [← hname, hempty])
  | constant => exact absurd rfl (hx _)
  | metadata => exact absurd rfl (hx _)

/-- Records that agree show the same identifier. -/
theorem Record.Operand.AgreesWith.ident_eq {id id' : Ident} (h : r.AgreesWith s)
    (hname : r.name = id.name) (hvalue : r.value = id.shown) (hname' : s.name = id'.name)
    (hvalue' : s.value = id'.shown) : id = id' := by
  obtain ⟨hnames, _, hvalues⟩ := h
  exact Ident.eq_of_shown (by rw [← hname, hnames, hname']) (by rw [← hvalue, hvalues, hvalue'])

/-! ## Records that agree -/

section

variable (hlaid : Draft.LaidOut d f) (hagree : r.AgreesWith s)
include hlaid hagree

theorem alike_of_own {place place' : ValueId} (ha : ShownAs d f a r (.own place))
    (hb : ShownAs d f b s (.own place')) : f.Alike a b := by
  refine ⟨_, _, ha.referent? hlaid, hb.referent? hlaid, .inl ?_⟩
  cases ha with
  | own hplace hid hname hvalue =>
    cases hb with
    | own hplace' hid' hname' hvalue' =>
      obtain rfl := hagree.ident_eq hname hvalue hname' hvalue'
      exact congrArg _ (Draft.eq_place_of_id? hlaid.distinct hplace hplace' hid hid')

theorem alike_of_global {id id' : Ident} (ha : ShownAs d f a r (.global id))
    (hb : ShownAs d f b s (.global id')) : f.Alike a b := by
  refine ⟨_, _, ha.referent? hlaid, hb.referent? hlaid, .inl ?_⟩
  cases ha with
  | global _ hname hvalue =>
    cases hb with
    | global _ hname' hvalue' => exact congrArg _ (hagree.ident_eq hname hvalue hname' hvalue')

theorem alike_of_own_of_global {place : ValueId} {id : Ident} (ha : ShownAs d f a r (.own place))
    (hb : ShownAs d f b s (.global id)) : f.Alike a b := by
  refine ⟨_, _, ha.referent? hlaid, hb.referent? hlaid, .inr (.inl ?_)⟩
  cases ha with
  | own hplace hid hname hvalue =>
    obtain ⟨_, hident, _⟩ := stripSigil_definition (List.mem_of_getElem? hplace) hid
    cases hb with
    | global _ hname' hvalue' =>
      rw [← hagree.ident_eq hname hvalue hname' hvalue', ← hident]
      exact .global (hlaid.value_of_definition hplace)

theorem alike_of_constant {text text' : String} (ha : ShownAs d f a r (.constant text))
    (hb : ShownAs d f b s (.constant text')) : f.Alike a b := by
  refine ⟨_, _, ha.referent? hlaid, hb.referent? hlaid, ?_⟩
  obtain ⟨_, _, hvalue⟩ := hagree
  rcases (ha.constant_cases hlaid).2 with ⟨h, hkept⟩ | ⟨h, hlost⟩
  · rcases (hb.constant_cases hlaid).2 with ⟨h', _⟩ | ⟨_, hlost'⟩
    · exact .inl (by rw [← h, hvalue, h'])
    · exact .inr (.inr (.inr (.inr ⟨hlost', hkept⟩)))
  · rcases (hb.constant_cases hlaid).2 with ⟨_, hkept'⟩ | ⟨h', _⟩
    · exact .inr (.inr (.inr (.inl ⟨hlost, hkept'⟩)))
    · exact .inl (by rw [← h, hvalue, h'])

theorem alike_of_ne_constant {text : String} (ha : ShownAs d f a r x)
    (hx : ∀ text, x ≠ .constant text) (hb : ShownAs d f b s (.constant text)) : f.Alike a b := by
  refine ⟨_, _, ha.referent? hlaid, hb.referent? hlaid, ?_⟩
  obtain ⟨hempty, hcases⟩ := hb.constant_cases hlaid
  obtain ⟨hname, _, hvalue⟩ := hagree
  rcases hcases with ⟨htext, _⟩ | ⟨_, hlost⟩
  · rw [← htext, ← hvalue]
    exact .inr (.inl (ha.lookalike_constant hlaid hx (hname.trans hempty)))
  · exact .inr (.inr (.inr (.inr ⟨hlost, ha.not_losesSigil hlaid hx⟩)))

/-- **Operands whose records agree are alike.** The cases are the kinds of what the two stand for,
and what is below the diagonal is above it with the operands exchanged. -/
theorem ShownAs.alike (ha : ShownAs d f a r x) (hb : ShownAs d f b s y) : f.Alike a b := by
  have hagree' : s.AgreesWith r := ⟨hagree.1.symm, hagree.2.1.symm, hagree.2.2.symm⟩
  have hown : ∀ {place text}, Referent.own place ≠ .constant text := Referent.noConfusion
  have hglobal : ∀ {id text}, Referent.global id ≠ .constant text := Referent.noConfusion
  cases x with
  | own place =>
    cases y with
    | own place' => exact alike_of_own hlaid hagree ha hb
    | global id => exact alike_of_own_of_global hlaid hagree ha hb
    | constant text => exact alike_of_ne_constant hlaid hagree ha (fun _ => hown) hb
  | global id =>
    cases y with
    | own place => exact (alike_of_own_of_global hlaid hagree' hb ha).symm
    | global id' => exact alike_of_global hlaid hagree ha hb
    | constant text => exact alike_of_ne_constant hlaid hagree ha (fun _ => hglobal) hb
  | constant text =>
    cases y with
    | own place => exact (alike_of_ne_constant hlaid hagree' hb (fun _ => hown) ha).symm
    | global id => exact (alike_of_ne_constant hlaid hagree' hb (fun _ => hglobal) ha).symm
    | constant text' => exact alike_of_constant hlaid hagree ha hb

end

end

/-! ## Modules -/

/-- The operands of a statement are spelled by rows of its tokens. -/
theorem WrittenStatement.Valid.exists_spells {s : WrittenStatement} {o : Draft.Operand}
    (h : s.Valid) (ho : o ∈ s.instr.operands) :
    (∃ slice, Draft.Spells slice o ∧ ∀ t ∈ slice, t ∈ s.tokens) ∨ o = Draft.impliedCount := by
  rcases h.instr.operands with ⟨slices, hslices, hspells⟩ | ⟨_, hoperands⟩
  · obtain ⟨slice, hslice, hspell⟩ :=
      exists_left_of_forall₂ hspells ((s.instr.opcode.textOrder_perm _).mem_iff.mpr ho)
    exact .inl ⟨slice, hspell, (hslices.infix_of_mem hslice).subset⟩
  · rw [hoperands] at ho
    exact .inr (List.mem_singleton.mp ho)

namespace Module

variable {source : String} {m : Module} {f : Function} {a b : ValueId} {r s : Record.Operand}

/-- The operands of a function that is read are spelled by rows of tokens and resolved. -/
theorem exists_resolves_of_read (h : (Module.read source).result = .ok m) (hf : f ∈ m.functions) :
    ∃ d, Draft.LaidOut d f ∧ ∀ i ∈ f.instrs, ∀ a ∈ i.operands, ∃ o,
      ((∃ slice, Draft.Spells slice o ∧ ∀ t ∈ slice, t.Lexed) ∨ o = Draft.impliedCount)
        ∧ Draft.Resolves d.definitions f.values o a := by
  obtain ⟨parts, hparts⟩ := exists_parts_of_read h
  rw [hparts.functions, List.mem_filterMap] at hf
  obtain ⟨part, hpart, hfunction⟩ := hf
  cases hparts.valid part hpart with
  | definition hvalid =>
    cases hfunction
    obtain ⟨d, hlaid, hbecomes⟩ := hvalid.exists_becomes
    refine ⟨d, hlaid, fun i hi a ha => ?_⟩
    obtain ⟨s, hs, hbecome⟩ := exists_left_of_forall₂ hbecomes (Array.mem_toList_iff.mpr hi)
    obtain ⟨o, ho, hresolves⟩ := exists_left_of_forall₂ hbecome.operands ha
    refine ⟨o, ?_, hresolves⟩
    exact (hbecome.valid.exists_spells ho).imp_left fun ⟨slice, hslice, htokens⟩ =>
      ⟨slice, hslice, fun t ht => hparts.lexed hpart hs t (htokens t ht)⟩
  | declaration hvalid =>
    cases hfunction
    obtain ⟨header, d, _, hheader, hfinish⟩ := hvalid.function
    have hlaid := Draft.finish_spec hfinish
    refine ⟨d, hlaid, fun i hi => ?_⟩
    -- A declaration has no statements, and so there are no instructions.
    obtain ⟨s, hs, _⟩ := exists_left_of_forall₂ hlaid.instrs (Array.mem_toList_iff.mpr hi)
    rw [Draft.statements_ofHeader hheader] at hs
    cases hs
  | attributes => cases hfunction
  | line => cases hfunction

/-- The records of the operands of a function that is read say what they are spelled by. -/
theorem exists_shownAs_of_read (h : (Module.read source).result = .ok m) (hf : f ∈ m.functions) :
    ∃ d, Draft.LaidOut d f ∧ ∀ a r, f.HasOperand a r → ∃ x, ShownAs d f a r x := by
  obtain ⟨d, hlaid, hresolves⟩ := exists_resolves_of_read h hf
  refine ⟨d, hlaid, ?_⟩
  rintro a r ⟨i, hi, index, ha, hr⟩
  obtain ⟨o, ho, hoa⟩ := hresolves i hi a (List.mem_of_getElem? ha)
  exact exists_shownAs hlaid ho hoa hr

/-- **Records tell operands apart**, but for what is the same without sigils. If the records of two
operands of a function agree then both stand for the same local value, for the same global or for
constants with the same text, or they are a local value and a global with one identifier, or one has
no name and the other is a constant that is written like its number. Nothing is said about metadata
that begins with a sigil and something that does not. -/
theorem alike_of_read (h : (Module.read source).result = .ok m) (hf : f ∈ m.functions)
    (ha : f.HasOperand a r) (hb : f.HasOperand b s) (hagree : r.AgreesWith s) : f.Alike a b := by
  obtain ⟨d, hlaid, hshown⟩ := exists_shownAs_of_read h hf
  obtain ⟨x, hx⟩ := hshown a r ha
  obtain ⟨y, hy⟩ := hshown b s hb
  exact hx.alike hlaid hagree hy

/-- Numbers, names and nothing at all behind a sigil, and constants that are written the same. -/
def lookalikeSource : String :=
  "define i32 @f(i32, i32* %x, i32 %\x22\x22) \x7b
  %2 = add i32 %0, 0
  store i32 %2, i32* %x
  store i32 %2, i32* @x
  store i32 %2, i32* @0
  store i32 %2, i32* 0
  %3 = add i32 %\x22\x22, <badref>
  ret i32 %2
\x7d
"

/-- Records of `lookalikeSource`, and what they stand for. -/
def lookalikes : List (Record.Operand × Referent × Referent) :=
  [(⟨"", none, "I32", "0"⟩, .own 0, .constant "0"),
    (⟨"x", none, "Pointer-I32", "x"⟩, .own 1, .global (.named "x")),
    (⟨"", none, "Pointer-I32", "0"⟩, .global (.slot 0), .constant "0"),
    (⟨"", none, "I32", "<badref>"⟩, .own 2, .constant "<badref>")]

theorem exists_confuses : ∃ m f, (Module.read lookalikeSource).result = .ok m ∧ f ∈ m.functions
    ∧ ∀ p ∈ lookalikes, f.Confuses p.1 p.2.1 p.2.2 := by
  have hread : ((Module.read lookalikeSource).result.toOption.map fun m =>
      m.functions.map fun f => decide (∀ p ∈ lookalikes, f.Confuses p.1 p.2.1 p.2.2))
      = some [true] := by decide +kernel
  cases hm : (Module.read lookalikeSource).result with
  | error e => rw [hm] at hread; cases hread
  | ok m =>
    rw [hm, Except.toOption, Option.map_some, Option.some.injEq] at hread
    obtain ⟨f, hf, hall⟩ := List.map_eq_singleton_iff.mp hread
    have hmem : f ∈ m.functions := by rw [hf]; exact List.mem_singleton_self f
    exact ⟨m, f, rfl, hmem, of_decide_eq_true hall⟩

/-- Records do not tell everything apart: each of `lookalikes` is the record of two operands that
stand for different things. -/
theorem records_confuse : ∃ m f, (Module.read lookalikeSource).result = .ok m ∧ f ∈ m.functions
    ∧ ∀ p ∈ lookalikes, f.Confuses p.1 p.2.1 p.2.2 ∧ p.2.1 ≠ p.2.2 := by
  obtain ⟨m, f, hread, hf, hall⟩ := exists_confuses
  exact ⟨m, f, hread, hf, fun p hp => ⟨hall p hp, by revert p; decide⟩⟩

/-- The argument `%x` and the global `@x`, which have one record. -/
theorem alike_of_read_named : ∃ m f a b, (Module.read lookalikeSource).result = .ok m
    ∧ f ∈ m.functions ∧ f.referent? a = some (.own 1) ∧ f.referent? b = some (.global (.named "x"))
    ∧ f.Alike a b := by
  obtain ⟨m, f, hread, hf, hall⟩ := exists_confuses
  obtain ⟨a, _, b, _, ha, hb, hx, hy⟩ := hall _ (List.mem_cons_of_mem _ List.mem_cons_self)
  exact ⟨m, f, a, b, hread, hf, hx, hy, alike_of_read hread hf ha hb ⟨rfl, rfl, rfl⟩⟩

end Module

end IrRecords
