import IrRecords.Proofs.Function.Body
import IrRecords.Proofs.Function.Typed

/-!
# What a function has from its body

The parts of a body add up to a draft, and the draft is laid out as a function. Nothing that a part
adds is lost on the way: the blocks of a draft and the row of its statements only grow
(`AddsAll.contents`), and laying out gives each of them a place. So a label of the body is a block
of the function (`LaidOut.hasBlock`), and a result is the result of an instruction
(`LaidOut.hasResult`).
-/

namespace IrRecords

namespace Function

/-- The function has a block of this name or number. -/
def HasBlock (f : Function) (id : Ident) : Prop := ∃ b ∈ f.blocks, b.name = id.name
  ∧ ∃ v, f.values[b.label]? = some v ∧ v.name = id.name ∧ v.slot? = id.slot?

/-- The function has an instruction whose result has this name or number. -/
def HasResult (f : Function) (id : Ident) : Prop :=
  ∃ i ∈ f.instrs, ∃ v, f.values[i.result]? = some v ∧ v.name = id.name ∧ v.slot? = id.slot?

end Function

namespace Draft

variable {d d' : Draft} {id : Ident} {id? : Option Ident} {instr : Instr} {p : Position}
  {part : BodyPart} {parts : List BodyPart} {f : Function}

/-! ## Blocks -/

/-- The names and numbers of the blocks. -/
def blockIds (d : Draft) : List Ident := d.blocks.toList.map (·.id)

theorem blockIds_startBlock (h : d.startBlock id? p = .ok d') :
    ∃ id, d'.blockIds = d.blockIds ++ [id] ∧ ∀ given, id? = some given → id = given := by
  obtain ⟨id, next, hnumber, rfl⟩ := startBlock_cases h
  refine ⟨id, by simp [blockIds], fun given hgiven => ?_⟩
  rw [hgiven] at hnumber
  exact number_some hnumber

/-- A statement does not change which blocks there are. -/
theorem blockIds_appendStatement (d : Draft) (s : Statement) :
    (d.appendStatement s).blockIds = d.blockIds := by
  rw [appendStatement]
  cases hb : d.blocks.back? with
  | none => rfl
  | some b =>
    rw [← Array.getLast?_toList, List.getLast?_eq_some_iff] at hb
    obtain ⟨bs, hbs⟩ := hb
    simp [blockIds, hbs]

theorem blockIds_placeInstr (h : d.placeInstr id? instr p = .ok d') : d'.blockIds = d.blockIds := by
  rcases placeInstr_cases h with ⟨_, _, rfl⟩ | ⟨_, id, next, _, rfl⟩
  · exact blockIds_appendStatement d _
  · exact blockIds_appendStatement d _

/-- Adding an instruction adds a block if one is needed, and then there is one. -/
theorem blockIds_pushInstr (h : d.pushInstr id? instr p = .ok d') :
    ∃ more, d'.blockIds = d.blockIds ++ more ∧ d'.blockIds ≠ [] := by
  obtain ⟨d₁, hblock, hplace⟩ := pushInstr_cases h
  rw [blockIds_placeInstr hplace]
  rcases hblock with ⟨_, hstart⟩ | ⟨hneeds, rfl⟩
  · obtain ⟨id, hid, _⟩ := blockIds_startBlock hstart
    exact ⟨[id], hid, by simp [hid]⟩
  · obtain ⟨b, hb⟩ := back?_of_needsBlock hneeds
    rw [← Array.getLast?_toList, List.getLast?_eq_some_iff] at hb
    obtain ⟨bs, hbs⟩ := hb
    exact ⟨[], (List.append_nil _).symm, by simp [blockIds, hbs]⟩

/-! ## Parts -/

/-- The statement of a draft is what a written statement says. -/
structure Statement.Says (s : WrittenStatement) (st : Statement) : Prop where
  instr : st.instr = s.instr
  result : ∀ id, s.result? = some id → st.result? = some id

/-- What one part adds. -/
theorem Adds.contents (h : Adds d part d') :
    (∃ more, d'.blockIds = d.blockIds ++ more
      ∧ ∀ t text, part = .label t → t.kind = .label text → .ofLabel text ∈ more)
    ∧ (∃ new, d'.statements = d.statements ++ new
      ∧ List.Forall₂ Statement.Says part.statement?.toList new)
    ∧ (part.isRemark = false → d'.blockIds ≠ [])
    ∧ (part.isRemark = true → d'.blockIds = d.blockIds) := by
  cases h with
  | @label _ t text ht hstart =>
    obtain ⟨id, hids, hgiven⟩ := blockIds_startBlock hstart
    refine ⟨⟨[id], hids, ?_⟩, ⟨[], ?_, .nil⟩, fun _ => by simp [hids], fun h => nomatch h⟩
    · rintro u text' hu htext
      cases hu
      rw [ht, TokenKind.label.injEq] at htext
      rw [← htext, hgiven _ rfl]
      exact List.mem_singleton_self _
    · rw [statements_startBlock hstart, List.append_nil]
  | remark _ _ =>
    refine ⟨⟨[], (List.append_nil _).symm, fun t text ht => (nomatch ht)⟩,
      ⟨[], (List.append_nil _).symm, .nil⟩, fun h => (nomatch h), fun _ => rfl⟩
  | @statement _ s p _ hpush =>
    obtain ⟨more, hids, hne⟩ := blockIds_pushInstr hpush
    obtain ⟨result?, hrow, _, hresult⟩ := statements_pushInstr hpush
    exact ⟨⟨more, hids, fun t text ht => (nomatch ht)⟩,
      ⟨_, hrow, .cons ⟨rfl, hresult⟩ .nil⟩, fun _ => hne, fun h => nomatch h⟩

/-- **What a row of parts adds.** -/
theorem AddsAll.contents (h : AddsAll d parts d') :
    (∃ more, d'.blockIds = d.blockIds ++ more
      ∧ ∀ t text, .label t ∈ parts → t.kind = .label text → .ofLabel text ∈ more)
    ∧ ∃ new, d'.statements = d.statements ++ new
      ∧ List.Forall₂ Statement.Says (parts.filterMap BodyPart.statement?) new := by
  induction h with
  | nil => exact ⟨⟨[], (List.append_nil _).symm, by simp⟩, ⟨[], (List.append_nil _).symm, .nil⟩⟩
  | @snoc d₁ d₂ parts part _ hpart ih =>
    obtain ⟨⟨more, hids, hlabels⟩, new, hrow, htold⟩ := ih
    obtain ⟨⟨more', hids', hlabel⟩, ⟨new', hrow', htold'⟩, _⟩ := hpart.contents
    refine ⟨⟨more ++ more', ?_, fun t text ht hk => ?_⟩, new ++ new', ?_, ?_⟩
    · rw [hids', hids, List.append_assoc]
    · rcases List.mem_append.mp ht with ht | ht
      · exact List.mem_append_left _ (hlabels t text ht hk)
      · exact List.mem_append_right _ (hlabel t text (List.mem_singleton.mp ht).symm hk)
    · rw [hrow', hrow, List.append_assoc]
    · have hlast : [part].filterMap BodyPart.statement? = part.statement?.toList := by
        cases hs : part.statement? <;> simp [hs]
      rw [List.filterMap_append, hlast]
      exact List.rel_append htold htold'

theorem definitions_getElem?_label {n : Nat} {b : Block} (hb : d.blocks[n]? = some b) :
    d.definitions[d.params.size + n]? = some ⟨some b.id, .label, .block n, b.position⟩ := by
  have hn : n < d.blocks.size := (Array.getElem?_eq_some_iff.mp hb).1
  rw [definitions, List.getElem?_append_left (by simp; omega), List.getElem?_append_right (by simp),
    labelDefinitions, List.getElem?_mapIdx]
  simp [hb]

/-- Labels are numbered behind the arguments. -/
theorem LaidOut.label_eq (h : LaidOut d f) {n : Nat} {b : IrRecords.Block}
    (hb : f.blocks[n]? = some b) : b.label = d.params.size + n := by
  have hn : n < d.blocks.toList.length := by
    rw [Array.length_toList, ← h.size_blocks]
    exact (Array.getElem?_eq_some_iff.mp hb).1
  have hrow : (f.blocks.toList.map (·.label))[n]? = some b.label := by
    rw [List.getElem?_map, Array.getElem?_toList, hb]
    rfl
  rw [h.blocks, layBlocks_label, List.getElem?_range' hn, Option.some.injEq, Nat.one_mul] at hrow
  exact hrow.symm

/-- A header alone has no instructions. -/
theorem LaidOut.instrs_eq_empty {header : Header} (h : LaidOut d f) (hd : ofHeader header = .ok d) :
    f.instrs = #[] := by
  have hinstrs := h.instrs
  rw [statements_ofHeader hd, List.forall₂_nil_left_iff] at hinstrs
  exact Array.toList_eq_nil_iff.mp hinstrs

/-- A block of the draft is a block of the function. -/
theorem LaidOut.hasBlock (h : LaidOut d f) (hid : id ∈ d.blockIds) : f.HasBlock id := by
  obtain ⟨b, hb, rfl⟩ := List.mem_map.mp hid
  obtain ⟨n, hn⟩ := List.mem_iff_getElem?.mp hb
  obtain ⟨fb, hfb⟩ : ∃ fb, f.blocks.toList[n]? = some fb := by
    refine ⟨_, List.getElem?_eq_getElem ?_⟩
    rw [Array.length_toList, h.size_blocks]
    simpa using (List.getElem?_eq_some_iff.mp hn).1
  have hname := congrArg (·[n]?) (congrArg (List.map (·.name)) h.blocks)
  simp only [layBlocks_name, List.getElem?_map, hfb, hn, Option.map_some, Option.some.injEq] at hname
  refine ⟨fb, Array.mem_toList_iff.mp (List.mem_of_getElem? hfb), hname,
    Definition.value ⟨some b.id, .label, .block n, b.position⟩, ?_, rfl, rfl⟩
  rw [h.label_eq (by rw [← Array.getElem?_toList, hfb])]
  exact h.value_of_definition (definitions_getElem?_label (by rw [← Array.getElem?_toList, hn]))

/-- A result that a statement of the draft has is the result of an instruction. -/
theorem LaidOut.hasResult (h : LaidOut d f) {st : Statement} (hst : st ∈ d.statements)
    (hid : st.result? = some id) : f.HasResult id := by
  obtain ⟨n, hn⟩ := List.mem_iff_getElem?.mp hst
  have hlt : n < f.instrs.size := by
    rw [h.size_instrs]
    exact (List.getElem?_eq_some_iff.mp hn).1
  obtain ⟨st', hst', _, hvalue⟩ := h.value_of_result (Array.getElem?_eq_getElem hlt)
  rw [hn, Option.some.injEq] at hst'
  subst hst'
  refine ⟨_, Array.getElem_mem hlt, _, hvalue, ?_, ?_⟩
  · rw [Definition.value, hid]
    rfl
  · rw [Definition.value, hid]
    rfl

end Draft

end IrRecords
