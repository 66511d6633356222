import IrRecords.Proofs.Function.Body
import IrRecords.Proofs.Text.Decimal
import Mathlib.Algebra.Group.Nat.Defs

/-!
# Numbers that a draft hands out

One counter serves arguments, labels, blocks that start without a label, and results. The order in
which they take their numbers is the order of the text: the arguments, and then each block, its
label in front of its results. It is not the order in which they are laid out.

The invariant of a draft is that, told in this order, the numbers taken so far are those below the
counter, one each, and that every identifier is the one the text gives or, where the text gives
none, a number (`Draft.Numbered`). Each operation puts identifiers at the end of the row, and
`number` is what keeps the invariant (`number_spec`).
-/

namespace IrRecords

/-! ## What the text gives -/

/-- The identifier of a definition for which the text gives `given`: the same one, or a number if
the text gives none. -/
def Ident.IsGiven (given : Option Ident) (id : Ident) : Prop :=
  match given with
  | some id' => id = id'
  | none => id.slot?.isSome

/-- A label is a number if it is a numeral of 32 bits, and a name otherwise. -/
theorem Ident.ofLabel_eq (text : String) : ofLabel text =
    if Text.IsNumeral text.toList ∧ Nat.ofDigitChars 10 text.toList 0 < 2 ^ 32 then
      slot (Nat.ofDigitChars 10 text.toList 0)
    else named text := by
  have hbound : Text.bound32 = 2 ^ 32 := rfl
  have hnumeral : (text.toList.isEmpty || !text.toList.all Char.isDigit) = true
      ↔ ¬Text.IsNumeral text.toList := by
    rw [Text.IsNumeral, Bool.or_eq_true, List.isEmpty_iff, Bool.not_eq_true', ← Bool.not_eq_true,
      List.all_eq_true, not_and_or, not_not]
  rw [ofLabel, Text.decimal?, hbound]
  by_cases h : Text.IsNumeral text.toList
  · rw [if_neg (mt hnumeral.mp (not_not_intro h))]
    by_cases hlt : Nat.ofDigitChars 10 text.toList 0 < 2 ^ 32
    · simp only [hlt, h, and_self, if_true]
    · simp only [hlt, and_false, if_false]
  · rw [if_pos (hnumeral.mpr h), if_neg fun h' => h h'.1]

namespace BodyPart

/-- What the text of a part gives for the blocks and results that it defines, where `isOpen` tells
whether a block is open in front of it: the identifier, or none. A label that is a numeral of 32
bits gives a number. A statement starts a block if none is open, and has a result unless it is
void. -/
def given (isOpen : Bool) : BodyPart → List (Option Ident)
  | label t =>
    match t.kind with
    | .label text =>
      if Text.IsNumeral text.toList ∧ Nat.ofDigitChars 10 text.toList 0 < 2 ^ 32 then
        [some (.slot (Nat.ofDigitChars 10 text.toList 0))]
      else [some (.named text)]
    | _ => []
  | remark _ => []
  | statement s =>
    (if isOpen then [] else [none]) ++ if s.instr.ty = .void then [] else [s.result?]

/-- Whether a block is open behind a part. -/
def leavesOpen (isOpen : Bool) : BodyPart → Bool
  | label _ => true
  | remark _ => isOpen
  | statement s => !s.instr.opcode.isTerminator

/-- What the text of a row of parts gives for the blocks and results that it defines. -/
def givenAll (isOpen : Bool) : List BodyPart → List (Option Ident)
  | [] => []
  | part :: rest => part.given isOpen ++ givenAll (part.leavesOpen isOpen) rest

theorem givenAll_concat (isOpen : Bool) (parts : List BodyPart) (part : BodyPart) :
    givenAll isOpen (parts ++ [part])
      = givenAll isOpen parts ++ part.given (parts.foldl leavesOpen isOpen) := by
  induction parts generalizing isOpen with
  | nil => simp [givenAll]
  | cons first parts ih => simp [givenAll, ih]

end BodyPart

namespace Draft

variable {d d' : Draft} {id? : Option Ident} {id : Ident} {instr : Instr} {p : Position}
  {given : List (Option Ident)} {isOpen : Bool}

/-! ## Identifiers in the order of the text -/

/-- The identifiers of a block: its own, and those of its results. -/
def Block.ids (b : Block) : List Ident := b.id :: b.statements.toList.filterMap (·.result?)

/-- The identifiers of the definitions of a draft, in the order of the text. -/
def ids (d : Draft) : List Ident :=
  d.params.toList.map (·.id) ++ d.blocks.toList.flatMap Block.ids

/-- Statements add their results at the end. -/
theorem ids_appendStatement {b : Block} (hb : d.blocks.back? = some b) (s : Statement) :
    (d.appendStatement s).ids = d.ids ++ s.result?.toList := by
  have hlast := hb
  rw [← Array.getLast?_toList, List.getLast?_eq_some_iff] at hlast
  obtain ⟨bs, hbs⟩ := hlast
  have hone : [s].filterMap (·.result?) = s.result?.toList := by cases h : s.result? <;> simp [h]
  rw [appendStatement, hb]
  simp only [ids, Block.ids, Array.toList_push, Array.toList_pop, List.flatMap_append,
    List.flatMap_singleton, List.filterMap_append, hone]
  rw [hbs, List.dropLast_concat, List.flatMap_append, List.flatMap_singleton]
  simp only [Block.ids, List.append_assoc, List.cons_append]

/-- A block behind a statement is open unless the statement ends it. -/
theorem needsBlock_appendStatement {b : Block} (hb : d.blocks.back? = some b) (s : Statement) :
    (d.appendStatement s).needsBlock = s.instr.opcode.isTerminator := by
  rw [appendStatement, hb, needsBlock]
  simp only [Array.back?_push]

/-! ## The counter -/

/-- The numbers in front of the counter, and what is taken by a definition: the number at the
counter, unless the definition has a name. -/
theorem number_spec {next next' : Nat} {what : Numbered}
    (h : number next what p id? = .ok (id, next')) :
    id.IsGiven id? ∧ List.range next ++ id.slot?.toList = List.range next' := by
  cases id? with
  | none =>
    cases h
    exact ⟨rfl, List.range_succ.symm⟩
  | some given =>
    cases given with
    | named name =>
      cases h
      exact ⟨rfl, List.append_nil _⟩
    | slot n =>
      rw [number] at h
      split at h
      case isFalse => cases h
      case isTrue hn =>
        cases h
        exact ⟨rfl, by rw [hn]; exact List.range_succ.symm⟩

/-- The draft has numbered what the text gives, of which the identifiers are `given`. -/
structure Numbered (given : List (Option Ident)) (isOpen : Bool) (d : Draft) : Prop where
  ids : List.Forall₂ Ident.IsGiven given d.ids
  slots : d.ids.filterMap Ident.slot? = List.range d.nextSlot
  isOpen : d.needsBlock = !isOpen
  results : ∀ s ∈ d.statements, s.result? = none ↔ s.instr.ty = .void

/-- One more identifier at the end of the row. -/
theorem Numbered.snoc {what : IrRecords.Numbered} {next : Nat} (hd : d.Numbered given isOpen)
    (hnumber : number d.nextSlot what p id? = .ok (id, next)) (hids : d'.ids = d.ids ++ [id])
    (hnext : d'.nextSlot = next) :
    List.Forall₂ Ident.IsGiven (given ++ [id?]) d'.ids
      ∧ d'.ids.filterMap Ident.slot? = List.range d'.nextSlot := by
  obtain ⟨hgiven, hrange⟩ := number_spec hnumber
  have hone : [id].filterMap Ident.slot? = id.slot?.toList := by cases h : id.slot? <;> simp [h]
  rw [hids, hnext]
  refine ⟨List.rel_append hd.ids (.cons hgiven .nil), ?_⟩
  rw [List.filterMap_append, hd.slots, hone, hrange]

/-! ## What the operations keep -/

theorem Numbered.startBlock (hd : d.Numbered given isOpen) (h : d.startBlock id? p = .ok d') :
    d'.Numbered (given ++ [id?]) true := by
  have hstatements := statements_startBlock h
  obtain ⟨id, next, hnumber, rfl⟩ := startBlock_cases h
  have hrow : Draft.ids { d with blocks := d.blocks.push ⟨id, p, #[]⟩, nextSlot := next }
      = d.ids ++ [id] := by simp [Draft.ids, Block.ids]
  obtain ⟨hids, hslots⟩ := hd.snoc hnumber hrow rfl
  refine ⟨hids, hslots, by simp [needsBlock], fun s hs => ?_⟩
  rw [hstatements] at hs
  exact hd.results s hs

theorem Numbered.placeInstr (hd : d.Numbered given true) (h : d.placeInstr id? instr p = .ok d') :
    d'.Numbered (given ++ if instr.ty = .void then [] else [id?]) (!instr.opcode.isTerminator) := by
  obtain ⟨b, hb⟩ := back?_of_needsBlock hd.isOpen
  have hresults : ∀ result? : Option Ident, (result? = none ↔ instr.ty = .void) →
      ∀ s ∈ (d.appendStatement ⟨result?, instr, p⟩).statements,
        s.result? = none ↔ s.instr.ty = .void := by
    intro result? hresult s hs
    rw [statements_appendStatement hb, List.mem_append, List.mem_singleton] at hs
    rcases hs with hs | rfl
    · exact hd.results s hs
    · exact hresult
  -- What is void has no identifier and takes no slot; anything else is numbered as it is placed.
  rcases placeInstr_cases h with ⟨hvoid, -, rfl⟩ | ⟨hvoid, id, next, hnumber, rfl⟩
  · have hids := ids_appendStatement hb ⟨none, instr, p⟩
    have hnext : (d.appendStatement ⟨none, instr, p⟩).nextSlot = d.nextSlot := by
      rw [appendStatement, hb]
    rw [Option.toList_none, List.append_nil] at hids
    rw [if_pos hvoid, List.append_nil]
    refine ⟨hids ▸ hd.ids, by rw [hids, hnext, hd.slots], ?_, hresults none (by simp [hvoid])⟩
    rw [needsBlock_appendStatement hb, Bool.not_not]
  · rw [if_neg hvoid]
    have hrow : Draft.ids { d.appendStatement ⟨some id, instr, p⟩ with nextSlot := next }
        = d.ids ++ [id] := ids_appendStatement hb _
    obtain ⟨hids, hslots⟩ := hd.snoc hnumber hrow rfl
    refine ⟨hids, hslots, ?_, hresults (some id) (by simp [hvoid])⟩
    rw [Bool.not_not]
    exact needsBlock_appendStatement hb _

/-- A statement starts a block if none is open, and then takes its place. -/
theorem Numbered.pushInstr (hd : d.Numbered given isOpen) (h : d.pushInstr id? instr p = .ok d') :
    d'.Numbered (given ++ ((if isOpen then [] else [none])
      ++ if instr.ty = .void then [] else [id?])) (!instr.opcode.isTerminator) := by
  obtain ⟨d₁, hblock, hplace⟩ := pushInstr_cases h
  rw [hd.isOpen] at hblock
  rw [← List.append_assoc]
  refine Numbered.placeInstr ?_ hplace
  rcases hblock with ⟨hneeds, hstart⟩ | ⟨hneeds, rfl⟩
  · cases isOpen with
    | true => cases hneeds
    | false => exact hd.startBlock hstart
  · cases isOpen with
    | true => simpa using hd
    | false => cases hneeds

theorem Numbered.adds {part : BodyPart} (hd : d.Numbered given isOpen) (h : d.Adds part d') :
    d'.Numbered (given ++ part.given isOpen) (part.leavesOpen isOpen) := by
  cases h with
  | @label _ t text ht hstart =>
    have hgiven : (BodyPart.label t).given isOpen = [some (.ofLabel text)] := by
      rw [Ident.ofLabel_eq]
      simp only [BodyPart.given, ht]
      split <;> rfl
    rw [hgiven]
    exact hd.startBlock hstart
  | remark _ _ => simpa [BodyPart.given, BodyPart.leavesOpen] using hd
  | statement _ hpush => exact hd.pushInstr hpush

/-- **What a row of parts keeps.** -/
theorem Numbered.addsAll {parts : List BodyPart} (hd : d.Numbered given isOpen)
    (h : d.AddsAll parts d') : d'.Numbered (given ++ BodyPart.givenAll isOpen parts)
      (parts.foldl BodyPart.leavesOpen isOpen) := by
  induction h with
  | nil => simpa [BodyPart.givenAll] using hd
  | snoc _ hpart ih =>
    rw [BodyPart.givenAll_concat, ← List.append_assoc, List.foldl_append]
    exact ih.adds hpart

/-! ## Headers -/

theorem Numbered.pushParam {q : Ty × Option Ident × Position} (hd : d.Numbered given isOpen)
    (hblocks : d.blocks = #[]) (h : d.pushParam q = .ok d') :
    d'.Numbered (given ++ [q.2.1]) isOpen ∧ d'.blocks = #[] := by
  obtain ⟨ty, id?, position⟩ := q
  cases hnumber : number d.nextSlot .argument position id? with
  | error e => simp [Draft.pushParam, hnumber, Bind.bind, Except.bind] at h
  | ok r =>
    obtain ⟨id, next⟩ := r
    simp only [Draft.pushParam, hnumber, Bind.bind, Except.bind, Pure.pure, Except.pure,
      Except.ok.injEq] at h
    subst h
    have hrow : Draft.ids { d with params := d.params.push ⟨id, ty, position⟩, nextSlot := next }
        = d.ids ++ [id] := by simp [Draft.ids, hblocks]
    obtain ⟨hids, hslots⟩ := hd.snoc hnumber hrow rfl
    exact ⟨⟨hids, hslots, hd.isOpen, hd.results⟩, hblocks⟩

/-- The parameters are numbered first. -/
theorem numbered_ofHeader {header : Header} (h : ofHeader header = .ok d) :
    d.Numbered (header.params.map (·.2.1)) false := by
  -- By induction on the parameters that are left; `given` are those in front of them.
  have hparams : ∀ (qs : List (Ty × Option Ident × Position)) (given : List (Option Ident))
      (d₀ : Draft), d₀.Numbered given false → d₀.blocks = #[] → qs.foldlM Draft.pushParam d₀ = .ok d →
      d.Numbered (given ++ qs.map (·.2.1)) false := by
    intro qs
    induction qs with
    | nil =>
      intro given d₀ hd _ h
      cases h
      simpa using hd
    | cons q qs ih =>
      intro given d₀ hd hblocks h
      rw [List.foldlM_cons] at h
      cases hq : d₀.pushParam q with
      | error e => rw [hq] at h; cases h
      | ok d₁ =>
        rw [hq] at h
        obtain ⟨hd₁, hblocks₁⟩ := hd.pushParam hblocks hq
        have := ih _ d₁ hd₁ hblocks₁ h
        rwa [List.append_assoc] at this
  refine hparams header.params [] _ ⟨.nil, rfl, rfl, fun s hs => ?_⟩ rfl h
  cases hs

end Draft

end IrRecords
