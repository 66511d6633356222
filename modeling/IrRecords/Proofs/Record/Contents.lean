import IrRecords.Proofs.Draft.Resolving
import IrRecords.Proofs.Function.Contents
import IrRecords.Proofs.Function.Typed
import IrRecords.Record.Encode

/-!
# What a record says, told from the text

A record has no places in it, so it can be told from the draft that the function was laid out from,
where operands are still identifiers. `Draft.record` does so, and the records of a function are the
records of its draft (`LaidOut.record?_eq`). The record of a block then depends on the block alone: an
operand that is a reference is shown by its own identifier and its own type, and the block that a value
flows in from by its label. Where a block stands among the others does not matter, nor where its
operands are defined.
-/

namespace IrRecords

/-- A walk along a row finds what it finds at each place. -/
theorem mapM_of_forall₂ {α β : Type} {g : α → Option β} {xs : List α} {ys : List β}
    (h : List.Forall₂ (fun x y => g x = some y) xs ys) : xs.mapM g = some ys := by
  induction h with
  | nil => rfl
  | cons hx _ ih =>
    rw [List.mapM_cons, hx, ih]
    rfl

namespace Draft

variable {d : Draft} {f : Function}

/-! ## Records of drafts -/

/-- The value that an operand is, as far as a record shows it. Which local value a reference leads to
makes no difference. -/
def Operand.value : Operand → Value
  | .reference id ty _ => ⟨id.name, id.slot?, ty, .argument 0⟩
  | .known value => value

/-- The name of the block that operand `index` flows in from, if it is said. -/
def Instr.edge? (i : Instr) (index : Nat) : Option String :=
  match i.detail with
  | .phi incoming => (incoming[index]?).map fun e => e.1.name
  | _ => none

/-- The record of operand `index`. -/
def Instr.operandRecord (i : Instr) (index : Nat) (o : Operand) : Record.Operand :=
  let value := o.value.record
  ⟨value.name, i.edge? index, value.ty, value.value⟩

/-- The record of the instruction that a statement becomes. -/
def Statement.record (s : Statement) : Record.Instr where
  allocaSize? :=
    match s.instr.detail with
    | .alloca _ => s.instr.operands.head?.map (·.value.rendering)
    | _ => none
  allocaType? :=
    match s.instr.detail with
    | .alloca allocated => some allocated.canonicalName
    | _ => none
  name := (s.result?.map Ident.name).getD ""
  opcode := s.instr.opcode.mnemonic
  operands := s.instr.operands.mapIdx s.instr.operandRecord
  predicate? :=
    match s.instr.detail with
    | .compare p => some p.name
    | _ => none
  ty := s.instr.ty.canonicalName

/-- The record of a block. -/
def Block.record (b : Block) : Record.Block := ⟨b.statements.toList.map Statement.record, b.id.name⟩

/-- The record of an argument. -/
def Param.record (p : Param) : Record.Argument := (Operand.reference p.id p.ty p.position).value.record

/-- The record of the function that a draft becomes. -/
def record (d : Draft) : Record.Function :=
  ⟨d.params.toList.map Param.record, d.blocks.toList.map Block.record, d.name, d.ret.canonicalName⟩

/-! ## Values -/

/-- The value is shown like the operand. -/
structure Operand.ShownAs (o : Operand) (v : Value) : Prop where
  record : v.record = o.value.record
  rendering : v.rendering = o.value.rendering

/-- A definition is shown like any reference to it. -/
theorem shownAs_of_mem {x : Definition} {id : Ident} {p : Position} (hx : x ∈ d.definitions)
    (hid : x.id? = some id) : (Operand.reference id x.ty p).ShownAs x.value := by
  have hlocal : x.value.rendering = x.value.reference '%' := by
    rw [definitions, List.mem_append, List.mem_append] at hx
    rcases hx with (hx | hx) | hx
    all_goals
      obtain ⟨n, hn, rfl⟩ := List.mem_mapIdx.mp hx
      rfl
  have hreference : x.value.reference '%' = (Operand.reference id x.ty p).value.rendering := by
    rw [Definition.value, hid]
    rfl
  have hrendering := hlocal.trans hreference
  refine ⟨?_, hrendering⟩
  rw [Value.record, Value.record, hrendering, Definition.value, hid]
  rfl

/-- What an operand leads to is shown like it. -/
theorem LaidOut.exists_shownAs (h : LaidOut d f) {o : Operand} {place : ValueId}
    (ho : Resolves d.definitions f.values o place) :
    ∃ v, f.values[place]? = some v ∧ o.ShownAs v := by
  cases ho with
  | known _ hplace => exact ⟨_, hplace, rfl, rfl⟩
  | reference hplace hid hty =>
    subst hty
    exact ⟨_, h.value_of_definition hplace, shownAs_of_mem (List.mem_of_getElem? hplace) hid⟩

/-! ## Blocks that values flow in from -/

theorem LaidOut.blockName? (h : LaidOut d f) (n : Nat) :
    (f.blocks[n]?).map (·.name) = (d.blocks[n]?).map (·.id.name) := by
  rw [← Array.getElem?_toList, ← Array.getElem?_toList, ← List.getElem?_map, ← List.getElem?_map,
    h.blocks, layBlocks_name]

/-- A label that is resolved is the one of the block. -/
theorem LaidOut.name_of_resolveLabel (h : LaidOut d f) {e : Ident × Position} {n : BlockId}
    (hn : resolveLabel d.definitions e = .ok n) : (f.blocks[n]?).map (·.name) = some e.1.name := by
  obtain ⟨id, position⟩ := e
  rw [resolveLabel] at hn
  split at hn
  · next id? ty m p hfound =>
    cases hn
    obtain ⟨place, hlocate, hplace⟩ := Option.bind_eq_some_iff.mp hfound
    have hid := id?_of_locate hlocate hplace
    have hx := List.mem_of_getElem? hplace
    rw [definitions, List.mem_append, List.mem_append] at hx
    rcases hx with (hx | hx) | hx
    · obtain ⟨k, hk, heq⟩ := List.mem_mapIdx.mp hx
      cases heq
    · obtain ⟨k, hk, heq⟩ := List.mem_mapIdx.mp hx
      cases heq
      cases hid
      rw [h.blockName?, ← Array.getElem?_toList, List.getElem?_eq_getElem hk]
      rfl
    · obtain ⟨k, hk, heq⟩ := List.mem_mapIdx.mp hx
      cases heq
  · cases hn

variable {s : Statement} {i : IrRecords.Instr}

/-- What an instruction holds beside its operands is what the text gives, with labels resolved. -/
inductive Detail.Becomes (defs : List Definition) : Detail → IrRecords.Detail → Prop
  | plain : Becomes defs .plain .plain
  | compare (p : Predicate) : Becomes defs (.compare p) (.compare p)
  | alloca (allocated : Ty) : Becomes defs (.alloca allocated) (.alloca allocated)
  | phi {incoming : List (Ident × Position)} {blocks : List BlockId}
      (h : List.Forall₂ (fun e n => resolveLabel defs e = .ok n) incoming blocks) :
      Becomes defs (.phi incoming) (.phi blocks)

theorem becomes_of_resolveDetail {defs : List Definition} {detail : Detail}
    {detail' : IrRecords.Detail} (h : resolveDetail defs detail = .ok detail') :
    detail.Becomes defs detail' := by
  cases detail with
  | phi incoming =>
    rw [resolveDetail] at h
    cases hlabels : incoming.mapM (resolveLabel defs) with
    | error fault => simp only [Bind.bind, Except.bind, hlabels] at h; cases h
    | ok blocks =>
      simp only [Bind.bind, Except.bind, hlabels] at h
      cases h
      exact .phi (mapM_eq_ok_iff.mp hlabels)
  | plain => cases h; exact .plain
  | compare p => cases h; exact .compare p
  | alloca allocated => cases h; exact .alloca allocated

theorem LaidOut.prevBlock?_eq (h : LaidOut d f) (hi : Describes d.definitions f.values s i)
    (index : Nat) : f.prevBlock? i index = some (s.instr.edge? index) := by
  have hdetail := becomes_of_resolveDetail hi.detail
  rw [Function.prevBlock?, IrRecords.Instr.incoming?, Instr.edge?]
  generalize s.instr.detail = detail at hdetail ⊢
  generalize i.detail = detail' at hdetail ⊢
  cases hdetail with
  | @phi incoming blocks hrows =>
    dsimp only
    cases hblock : blocks[index]? with
    | none =>
      rw [List.getElem?_eq_none_iff, ← hrows.length_eq] at hblock
      rw [List.getElem?_eq_none_iff.mpr hblock]
      rfl
    | some n =>
      obtain ⟨e, he, hn⟩ := exists_getElem?_of_forall₂ hrows hblock
      obtain ⟨b, hb, hname⟩ := Option.map_eq_some_iff.mp (h.name_of_resolveLabel hn)
      dsimp only
      rw [he, hb, Option.map_some, Option.map_some, hname]
  | _ => rfl

/-! ## Instructions -/

theorem LaidOut.operandRecords?_eq (h : LaidOut d f) (hi : Describes d.definitions f.values s i)
    {os : List Operand} {places : List ValueId}
    (hos : List.Forall₂ (Resolves d.definitions f.values) os places) (start : Nat) :
    f.operandRecords? i start places
      = some (os.mapIdx fun index => s.instr.operandRecord (start + index)) := by
  induction hos generalizing start with
  | nil => rfl
  | @cons o place os places ho _ ih =>
    obtain ⟨v, hv, hshown⟩ := h.exists_shownAs ho
    have hfirst : f.operandRecord? i start place = some (s.instr.operandRecord start o) := by
      rw [Function.operandRecord?, hv, h.prevBlock?_eq hi]
      simp only [Bind.bind, Option.bind, Pure.pure, hshown.record]
      rfl
    rw [Function.operandRecords?, hfirst, ih (start + 1), List.mapIdx_cons]
    simp [Nat.add_assoc, Nat.add_comm 1]

theorem LaidOut.allocaSize?_eq (h : LaidOut d f) (hi : Describes d.definitions f.values s i) :
    f.allocaSize? i = some s.record.allocaSize? := by
  have hdetail := becomes_of_resolveDetail hi.detail
  have hoperands := hi.operands
  rw [Function.allocaSize?, IrRecords.Instr.count?, Statement.record]
  generalize s.instr.detail = detail at hdetail ⊢
  generalize i.detail = detail' at hdetail ⊢
  cases hdetail with
  | alloca allocated =>
    generalize s.instr.operands = os at hoperands ⊢
    generalize i.operands = places at hoperands ⊢
    cases hoperands with
    | nil => rfl
    | cons ho _ =>
      obtain ⟨v, hv, hshown⟩ := h.exists_shownAs ho
      dsimp only [List.head?_cons]
      rw [hv, Option.map_some, Option.map_some, hshown.rendering]
  | _ => rfl

/-- The record of an instruction is that of the statement it comes from. -/
theorem LaidOut.instrRecord?_eq (h : LaidOut d f) {n : Nat} (hs : d.statements[n]? = some s) :
    (f.instrs[n]? >>= f.instrRecord?) = some s.record := by
  have hn : n < f.instrs.size := by
    rw [h.size_instrs]
    exact (List.getElem?_eq_some_iff.mp hs).1
  obtain ⟨i, hi⟩ : ∃ i, f.instrs[n]? = some i := ⟨_, Array.getElem?_eq_getElem hn⟩
  obtain ⟨s', hs', hdescribes, hresult⟩ := h.value_of_result hi
  obtain rfl : s = s' := Option.some.inj (hs.symm.trans hs')
  have hoperands := h.operandRecords?_eq hdescribes hdescribes.operands 0
  simp only [Nat.zero_add] at hoperands
  rw [hi, Option.bind_eq_bind, Option.bind_some, Function.instrRecord?, hresult,
    h.allocaSize?_eq hdescribes, hoperands, hdescribes.opcode]
  simp only [Bind.bind, Option.bind, Pure.pure, Option.some.injEq, Statement.record,
    Record.Instr.mk.injEq, true_and]
  have hdetail := becomes_of_resolveDetail hdescribes.detail
  generalize s.instr.detail = detail at hdetail ⊢
  generalize i.detail = detail' at hdetail ⊢
  cases hdetail <;> exact ⟨rfl, rfl, rfl, rfl⟩

/-! ## Functions -/

theorem LaidOut.mapM_blockRecord? (h : LaidOut d f) {bs : List Block} {label start : Nat}
    (hbs : ∀ n s, (bs.flatMap (·.statements.toList))[n]? = some s → d.statements[start + n]? = some s) :
    (layBlocks label start bs).mapM f.blockRecord? = some (bs.map Block.record) := by
  induction bs generalizing label start with
  | nil => rfl
  | cons b bs ih =>
    rw [List.flatMap_cons] at hbs
    -- The statements of the other blocks are those behind the statements of this one.
    have hrest := @ih (label + 1) (start + b.statements.size) fun n s hs => by
      rw [Nat.add_assoc]
      refine hbs _ s ?_
      rw [List.getElem?_append_right (by simp)]
      simpa using hs
    have hfirst : (List.range' start b.statements.size).mapM (fun id => f.instrs[id]? >>= f.instrRecord?)
        = some (b.statements.toList.map Statement.record) := by
      refine mapM_of_forall₂ (List.forall₂_iff_get.mpr ⟨by simp, fun n hn hn' => ?_⟩)
      rw [List.length_range'] at hn
      simp only [List.get_eq_getElem, List.getElem_range', Nat.one_mul, List.getElem_map]
      refine h.instrRecord?_eq (hbs n _ ?_)
      rw [List.getElem?_append_left (by simpa using hn), List.getElem?_eq_getElem]
    rw [layBlocks, List.mapM_cons, hrest, Function.blockRecord?, hfirst]
    rfl

theorem LaidOut.arguments?_eq (h : LaidOut d f) :
    f.arguments? = some (d.argDefinitions.map (·.value)) := by
  rw [Function.arguments?, h.args]
  refine mapM_of_forall₂ (List.forall₂_iff_get.mpr ⟨by simp, fun n hn hn' => ?_⟩)
  rw [List.length_map] at hn'
  simp only [List.get_eq_getElem, List.getElem_range, List.getElem_map]
  refine h.value_of_definition ?_
  rw [definitions, List.append_assoc, List.getElem?_append_left hn', List.getElem?_eq_getElem hn']

/-- **The record of a function is the record of its draft.** -/
theorem LaidOut.record?_eq (h : LaidOut d f) : f.record? = some d.record := by
  have hblocks : f.blocks.toList.mapM f.blockRecord? = some (d.blocks.toList.map Block.record) := by
    rw [h.blocks]
    refine h.mapM_blockRecord? fun n s hs => ?_
    rw [Nat.zero_add]
    exact hs
  have hargs : d.argDefinitions.map (fun x => x.value.record) = d.params.toList.map Param.record := by
    refine List.ext_getElem (by simp) fun n _ _ => ?_
    simp only [argDefinitions, List.getElem_map, List.getElem_mapIdx]
    rfl
  rw [Function.record?, h.arguments?_eq, hblocks, h.name, h.ret]
  simp only [Bind.bind, Option.bind, Pure.pure, List.map_map]
  rw [record, ← hargs]
  rfl

end Draft

end IrRecords
