import IrRecords.Proofs.Function.Contents
import IrRecords.Proofs.Record.Identity

/-!
# References in records

A record has no places in it: what an operand refers to is said by a name, and so is the block that
a value flows in from. All the same nothing is lost for values that have one. The arguments, blocks
and results of a record stand in the order of the definitions that the function was laid out from
(`LaidOut.declared_eq`), and no two of these have one identifier. So a name that is not empty is
found once in the record, and what has it is what is meant (`references_of_read`).

Only local values are found in this way. Globals are not declared in a record, and an operand that
is one may have the name of something that is.
-/

namespace IrRecords

/-! ## Rows -/

section Rows

variable {α β γ : Type}

/-- Rows of the same length show the same if they do so at each place. -/
theorem map_eq_map_of_getElem? {g : α → γ} {g' : β → γ} {xs : List α} {ys : List β}
    (hlength : xs.length = ys.length)
    (h : ∀ (n : Nat) x y, xs[n]? = some x → ys[n]? = some y → g x = g' y) :
    xs.map g = ys.map g' := by
  refine List.ext_getElem (by simp [hlength]) fun n hn hn' => ?_
  rw [List.getElem_map, List.getElem_map]
  rw [List.length_map] at hn hn'
  exact h n _ _ (List.getElem?_eq_getElem hn) (List.getElem?_eq_getElem hn')

theorem eq_of_getElem?_range {count n k : Nat} (h : (List.range count)[n]? = some k) : k = n := by
  obtain ⟨hn, rfl⟩ := List.getElem?_eq_some_iff.mp h
  exact List.getElem_range hn

end Rows

/-- The name stands at the place `n` of the row and nowhere else. -/
def OnlyAt (names : List String) (n : Nat) (name : String) : Prop :=
  ∀ k, names[k]? = some name ↔ k = n

/-! ## Parts of records -/

namespace Record.Function

/-- The names and types of what a record declares: arguments, blocks, and results of
instructions. -/
def declared (r : Record.Function) : List (String × String) :=
  r.args.map (fun a => (a.name, a.ty)) ++ r.blocks.map (fun b => (b.name, "Label"))
    ++ (r.blocks.flatMap (·.instrs)).map fun i => (i.name, i.ty)

/-- The operand at a place of an instruction at a place of a block. -/
def operand? (r : Record.Function) (block instr index : Nat) : Option Record.Operand :=
  (r.blocks[block]?).bind fun b => (b.instrs[instr]?).bind fun i => i.operands[index]?

end Record.Function

namespace Function

variable {f : Function} {r : Record.Function}

/-- The instruction at a place of a block. -/
def instrAt? (f : Function) (block instr : Nat) : Option Instr :=
  (f.blocks[block]?).bind fun b => (b.instrs[instr]?).bind fun id => f.instrs[id]?

theorem mem_of_instrAt? {block instr : Nat} {i : Instr} (h : f.instrAt? block instr = some i) :
    i ∈ f.instrs := by
  obtain ⟨b, _, h⟩ := Option.bind_eq_some_iff.mp h
  obtain ⟨id, _, h⟩ := Option.bind_eq_some_iff.mp h
  exact Array.mem_of_getElem? h

/-- What the parts of a record are the records of. -/
theorem of_record? (h : f.record? = some r) :
    List.Forall₂ (fun id a => ∃ v, f.values[id]? = some v ∧ v.record = a) f.args r.args
      ∧ List.Forall₂ (fun b b' => f.blockRecord? b = some b') f.blocks.toList r.blocks := by
  obtain ⟨args, hargs, h⟩ := Option.bind_eq_some_iff.mp h
  obtain ⟨blocks, hblocks, h⟩ := Option.bind_eq_some_iff.mp h
  cases h
  refine ⟨List.forall₂_map_right_iff.mpr ?_, forall₂_of_mapM hblocks⟩
  exact (forall₂_of_mapM hargs).imp fun id v hv => ⟨v, hv, rfl⟩

theorem of_blockRecord? {b : Block} {b' : Record.Block} (h : f.blockRecord? b = some b') :
    b'.name = b.name
      ∧ List.Forall₂ (fun id i' => ∃ i, f.instrs[id]? = some i ∧ f.instrRecord? i = some i')
        b.instrs b'.instrs := by
  obtain ⟨instrs, hinstrs, h⟩ := Option.bind_eq_some_iff.mp h
  cases h
  exact ⟨rfl, (forall₂_of_mapM hinstrs).imp fun id i' hi => Option.bind_eq_some_iff.mp hi⟩

theorem of_instrRecord? {i : Instr} {i' : Record.Instr} (h : f.instrRecord? i = some i') :
    (∃ v, f.values[i.result]? = some v ∧ i'.name = v.name ∧ i'.ty = v.ty.canonicalName)
      ∧ f.operandRecords? i 0 i.operands = some i'.operands := by
  obtain ⟨v, hv, h⟩ := Option.bind_eq_some_iff.mp h
  obtain ⟨count, _, h⟩ := Option.bind_eq_some_iff.mp h
  obtain ⟨operands, hoperands, h⟩ := Option.bind_eq_some_iff.mp h
  cases h
  exact ⟨⟨v, hv, rfl, rfl⟩, hoperands⟩

/-- The records of operands stand in the order of the operands. -/
theorem exists_of_operandRecords? {i : Instr} {start index : Nat} {ids : List ValueId}
    {os : List Record.Operand} {o : Record.Operand} (h : f.operandRecords? i start ids = some os)
    (ho : os[index]? = some o) :
    ∃ id, ids[index]? = some id ∧ f.operandRecord? i (start + index) id = some o := by
  induction ids generalizing start index os with
  | nil => cases h; cases ho
  | cons id ids ih =>
    obtain ⟨first, hfirst, h⟩ := Option.bind_eq_some_iff.mp h
    obtain ⟨rest, hrest, h⟩ := Option.bind_eq_some_iff.mp h
    cases h
    cases index with
    | zero => cases ho; exact ⟨id, rfl, hfirst⟩
    | succ index =>
      obtain ⟨id', hid', ho'⟩ := ih hrest ho
      exact ⟨id', hid', by rwa [Nat.add_assoc, Nat.add_comm 1] at ho'⟩

/-- The block that the record of an operand names is the one that the operand flows in from. -/
theorem exists_of_prevBlock? {i : Instr} {index : Nat} {id : ValueId} {o : Record.Operand}
    {name : String} (h : f.operandRecord? i index id = some o) (hname : o.prevBlock? = some name) :
    ∃ b block, i.incoming? index = some b ∧ f.blocks[b]? = some block ∧ block.name = name := by
  obtain ⟨v, _, h⟩ := Option.bind_eq_some_iff.mp h
  obtain ⟨prev, hprev, h⟩ := Option.bind_eq_some_iff.mp h
  cases h
  unfold prevBlock? at hprev
  cases hincoming : i.incoming? index with
  | none =>
    rw [hincoming] at hprev
    cases hprev
    cases hname
  | some b =>
    rw [hincoming] at hprev
    obtain ⟨block, hblock, rfl⟩ := Option.map_eq_some_iff.mp hprev
    exact ⟨b, block, rfl, hblock, Option.some.inj hname⟩

/-- An operand of the record is the record of the operand at the same place. -/
theorem exists_of_operand? (h : f.record? = some r) {block instr index : Nat} {o : Record.Operand}
    (ho : r.operand? block instr index = some o) :
    ∃ i place, f.instrAt? block instr = some i ∧ i.operands[index]? = some place
      ∧ f.operandRecord? i index place = some o := by
  obtain ⟨b', hb', ho⟩ := Option.bind_eq_some_iff.mp ho
  obtain ⟨i', hi', ho⟩ := Option.bind_eq_some_iff.mp ho
  obtain ⟨b, hb, hblock⟩ := exists_getElem?_of_forall₂ (of_record? h).2 hb'
  obtain ⟨id, hid, i, hi, hinstr⟩ := exists_getElem?_of_forall₂ (of_blockRecord? hblock).2 hi'
  obtain ⟨place, hplace, hoperand⟩ := exists_of_operandRecords? (of_instrRecord? hinstr).2 ho
  rw [Nat.zero_add] at hoperand
  refine ⟨i, place, ?_, hplace, hoperand⟩
  rw [instrAt?, ← Array.getElem?_toList, hb, Option.bind_some, hid, Option.bind_some, hi]

/-- Blocks keep their names. -/
theorem blockNames_of_record? (h : f.record? = some r) :
    r.blocks.map (·.name) = f.blocks.toList.map (·.name) := by
  have hblocks := (of_record? h).2
  refine map_eq_map_of_getElem? hblocks.length_eq.symm fun n b' b hb' hb => ?_
  obtain ⟨b₀, hb₀, hblock⟩ := exists_getElem?_of_forall₂ hblocks hb'
  rw [hb, Option.some.injEq] at hb₀
  rw [hb₀]
  exact (of_blockRecord? hblock).1

/-- The records of all instructions, in one row. -/
theorem of_record?_instrs (h : f.record? = some r) :
    List.Forall₂ (fun id i' => ∃ i, f.instrs[id]? = some i ∧ f.instrRecord? i = some i')
      (f.blocks.toList.flatMap (·.instrs)) (r.blocks.flatMap (·.instrs)) :=
  List.rel_flatMap (of_record? h).2 fun _ _ hb => (of_blockRecord? hb).2

end Function

/-! ## What is declared -/

namespace Draft

variable {d : Draft} {f : Function} {r : Record.Function}

/-- Name and type of a definition, as a record shows them. -/
def Definition.entry (x : Definition) : String × String := (x.value.name, x.ty.canonicalName)

theorem definitions_getElem?_arg {n : Nat} {x : Definition} (hx : d.argDefinitions[n]? = some x) :
    d.definitions[n]? = some x := by
  have hn := (List.getElem?_eq_some_iff.mp hx).1
  rw [definitions, List.append_assoc, List.getElem?_append_left hn, hx]

theorem LaidOut.declared_args (h : LaidOut d f) (hr : f.record? = some r) :
    r.args.map (fun a => (a.name, a.ty)) = d.argDefinitions.map Definition.entry := by
  have hargs := (Function.of_record? hr).1
  rw [h.args] at hargs
  refine map_eq_map_of_getElem? ?_ fun n a x ha hx => ?_
  · rw [← hargs.length_eq, List.length_range, length_argDefinitions]
  · -- The argument that is counted first has the first place, and so on.
    obtain ⟨id, hid, v, hv, rfl⟩ := exists_getElem?_of_forall₂ hargs ha
    obtain rfl := eq_of_getElem?_range hid
    rw [h.value_of_definition (definitions_getElem?_arg hx), Option.some.injEq] at hv
    subst hv
    rfl

theorem LaidOut.blockNames (h : LaidOut d f) :
    f.blocks.toList.map (·.name) = d.blocks.toList.map (·.id.name) := by
  rw [h.blocks, layBlocks_name]

theorem LaidOut.declared_blocks (h : LaidOut d f) (hr : f.record? = some r) :
    r.blocks.map (fun b => (b.name, "Label")) = d.labelDefinitions.map Definition.entry := by
  have hrow : d.labelDefinitions.map Definition.entry
      = d.blocks.toList.map fun b => (b.id.name, "Label") := by
    refine map_eq_map_of_getElem? (by simp) fun n x b hx hb => ?_
    rw [labelDefinitions, List.getElem?_mapIdx, hb] at hx
    cases hx
    rfl
  have hnames := (Function.blockNames_of_record? hr).trans h.blockNames
  have hlabels := congrArg (List.map (·, "Label")) hnames
  rw [List.map_map, List.map_map] at hlabels
  rw [hrow]
  exact hlabels

theorem LaidOut.declared_results (h : LaidOut d f) (hr : f.record? = some r) :
    (r.blocks.flatMap (·.instrs)).map (fun i => (i.name, i.ty))
      = d.resultDefinitions.map Definition.entry := by
  have hinstrs := Function.of_record?_instrs hr
  rw [h.blocks, layBlocks_instrs, ← List.range_eq_range'] at hinstrs
  refine map_eq_map_of_getElem? ?_ fun n i' x hi' hx => ?_
  · rw [← hinstrs.length_eq, List.length_range, length_resultDefinitions]
    rfl
  · obtain ⟨id, hid, i, hi, hrecord⟩ := exists_getElem?_of_forall₂ hinstrs hi'
    obtain rfl := eq_of_getElem?_range hid
    obtain ⟨⟨v, hv, hname, hty⟩, _⟩ := Function.of_instrRecord? hrecord
    obtain ⟨s, hs, _, hvalue⟩ := h.value_of_result hi
    rw [resultDefinitions, List.getElem?_mapIdx, hs, Option.map_some, Option.some.injEq] at hx
    rw [hv, Option.some.injEq] at hvalue
    rw [hname, hty, hvalue, ← hx]
    rfl

/-- **A record declares the definitions**, each at its place. -/
theorem LaidOut.declared_eq (h : LaidOut d f) (hr : f.record? = some r) :
    r.declared = d.definitions.map Definition.entry := by
  rw [Record.Function.declared, h.declared_args hr, h.declared_blocks hr, h.declared_results hr,
    definitions, List.map_append, List.map_append]

/-! ## What names lead to -/

/-- A name that is not empty is an identifier. -/
theorem Definition.id?_of_name {x : Definition} (h : x.value.name ≠ "") :
    x.id? = some (.named x.value.name) := by
  unfold value at h ⊢
  cases hid : x.id? with
  | none => rw [hid] at h; exact absurd rfl h
  | some id =>
    cases id with
    | named name => rfl
    | slot number => rw [hid] at h; exact absurd rfl h

/-- A name that is not empty belongs to one definition only. -/
theorem LaidOut.eq_place_of_name (h : LaidOut d f) {j k : Nat} {x y : Definition}
    (hx : d.definitions[j]? = some x) (hy : d.definitions[k]? = some y)
    (hname : y.value.name = x.value.name) (hne : x.value.name ≠ "") : k = j := by
  have hid := Definition.id?_of_name hne
  have hid' := Definition.id?_of_name (hname ▸ hne)
  rw [hname] at hid'
  exact eq_place_of_id? h.distinct hy hx hid' hid

/-- So it is found once in the record. -/
theorem LaidOut.onlyAt_declared (h : LaidOut d f) (hr : f.record? = some r) {k : Nat}
    {x : Definition} (hx : d.definitions[k]? = some x) (hne : x.value.name ≠ "") :
    OnlyAt (r.declared.map Prod.fst) k x.value.name := by
  intro n
  rw [h.declared_eq hr, List.map_map, List.getElem?_map]
  constructor
  · intro hn
    obtain ⟨y, hy, hname⟩ := Option.map_eq_some_iff.mp hn
    exact h.eq_place_of_name hx hy hname hne
  · rintro rfl
    rw [hx]
    rfl

/-- So is the name of a block among the blocks. -/
theorem LaidOut.onlyAt_blocks (h : LaidOut d f) (hr : f.record? = some r) {k : Nat}
    {block : IrRecords.Block} (hblock : f.blocks[k]? = some block) (hne : block.name ≠ "") :
    OnlyAt (r.blocks.map (·.name)) k block.name := by
  have hnames : ∀ {n name}, (r.blocks.map (·.name))[n]? = some name →
      ∃ x, d.definitions[d.params.size + n]? = some x ∧ x.value.name = name := by
    intro n name hn
    rw [Function.blockNames_of_record? hr, h.blockNames, List.getElem?_map,
      Array.getElem?_toList] at hn
    obtain ⟨b, hb, rfl⟩ := Option.map_eq_some_iff.mp hn
    exact ⟨_, definitions_getElem?_label hb, rfl⟩
  have hk : (r.blocks.map (·.name))[k]? = some block.name := by
    rw [Function.blockNames_of_record? hr, List.getElem?_map, Array.getElem?_toList, hblock]
    rfl
  intro n
  constructor
  · intro hn
    obtain ⟨x, hx, hxname⟩ := hnames hk
    obtain ⟨y, hy, hyname⟩ := hnames hn
    have hsame := h.eq_place_of_name hx hy (hyname.trans hxname.symm) (hxname ▸ hne)
    omega
  · rintro rfl
    exact hk

/-- No name that is not empty is declared twice. -/
theorem LaidOut.nodup_declared (h : LaidOut d f) (hr : f.record? = some r) :
    ((r.declared.map Prod.fst).filter (· ≠ "")).Nodup := by
  rw [h.declared_eq hr, List.map_map, List.Nodup, List.pairwise_filter, List.pairwise_map]
  refine (pairwise_of_checkDistinct h.distinct).imp fun {x y} hids hx hy hsame => ?_
  change x.value.name = y.value.name at hsame
  have hid := Definition.id?_of_name (of_decide_eq_true hx)
  have hid' := Definition.id?_of_name (of_decide_eq_true hy)
  rw [← hsame] at hid'
  exact hids _ hid hid'

/-- A local value that is an operand has a definition. -/
theorem LaidOut.exists_definition (h : LaidOut d f) (hd : d.WellFormed) {i : IrRecords.Instr}
    (hi : i ∈ f.instrs) {place : ValueId} (hplace : place ∈ i.operands) {v : Value}
    (hv : f.values[place]? = some v) (hlocal : ¬ v.Outer) :
    ∃ x, d.definitions[place]? = some x ∧ x.value = v := by
  obtain ⟨s, hs, hsi⟩ := exists_left_of_forall₂ h.instrs (Array.mem_toList_iff.mpr hi)
  obtain ⟨o, ho, hresolves⟩ := exists_left_of_forall₂ hsi.operands hplace
  cases hresolves with
  | reference hdefinition _ _ =>
    refine ⟨_, hdefinition, ?_⟩
    rw [h.value_of_definition hdefinition, Option.some.injEq] at hv
    exact hv
  | known _ hknown =>
    -- What is no reference comes from outside of the function.
    rw [hknown, Option.some.injEq] at hv
    subst hv
    exact absurd ((hd s hs).instr.outer _ ho) hlocal

end Draft

/-! ## Modules -/

/-- What the record `r` of `f` says by names can be found in it. -/
structure Function.KeepsReferences (f : Function) (r : Record.Function) : Prop where
  /-- The names of arguments, blocks and results differ, but for empty ones. -/
  distinct : ((r.declared.map Prod.fst).filter (· ≠ "")).Nodup
  /-- The operands of the record are those of the function. If one is a local value with a name then
  this is the name of one declaration, which is that of the value and has its type. If one flows in
  from a block with a name then this is the name of one block, which is the one it flows in from. -/
  operands : ∀ {block instr index o}, r.operand? block instr index = some o →
    ∃ i place v, f.instrAt? block instr = some i ∧ i.operands[index]? = some place
      ∧ f.values[place]? = some v ∧ o.name = v.name
      ∧ (¬ v.Outer → o.name ≠ "" → OnlyAt (r.declared.map Prod.fst) place o.name
        ∧ r.declared[place]? = some (o.name, o.ty))
      ∧ ∀ name, o.prevBlock? = some name → name ≠ "" → ∃ b, i.incoming? index = some b
        ∧ OnlyAt (r.blocks.map (·.name)) b name

namespace Module

/-- **Records keep the references to what has a name.** -/
theorem references_of_read {source : String} {m : Module} {f : Function}
    (h : (Module.read source).result = .ok m) (hf : f ∈ m.functions) :
    ∃ r, f.record? = some r ∧ f.KeepsReferences r := by
  obtain ⟨d, hd, hfinish⟩ := (read_spec h).1 f hf
  have hlaid := Draft.finish_spec hfinish
  obtain ⟨r, hr⟩ := Option.isSome_iff_exists.mp (hlaid.canonical hd).closed.record?_isSome
  refine ⟨r, hr, hlaid.nodup_declared hr, fun {block instr index o} ho => ?_⟩
  obtain ⟨i, place, hi, hplace, hoperand⟩ := Function.exists_of_operand? hr ho
  obtain ⟨v, hv, hname, hty, _⟩ := Function.of_operandRecord? hoperand
  refine ⟨i, place, v, hi, hplace, hv, hname, fun hlocal hne => ?_, fun name hprev hne => ?_⟩
  · obtain ⟨x, hx, rfl⟩ := hlaid.exists_definition hd (Function.mem_of_instrAt? hi)
      (List.mem_of_getElem? hplace) hv hlocal
    rw [hname] at hne ⊢
    refine ⟨hlaid.onlyAt_declared hr hx hne, ?_⟩
    rw [hlaid.declared_eq hr, List.getElem?_map, hx, hty]
    rfl
  · obtain ⟨b, blk, hincoming, hblock, rfl⟩ := Function.exists_of_prevBlock? hoperand hprev
    exact ⟨b, hincoming, hlaid.onlyAt_blocks hr hblock hne⟩

/-- The edge of the phi of `loopSource` that comes from further down: the value and the block are
named before they are defined, and each of them is found by its name. -/
theorem references_of_read_loop : ∃ m f r, (Module.read loopSource).result = .ok m
    ∧ m.functions = [f] ∧ f.record? = some r ∧ f.KeepsReferences r
    ∧ r.operand? 1 0 1 = some ⟨"next", some "loop", "I32", "next"⟩
    ∧ r.declared[7]? = some ("next", "I32") := by
  have hread : ((Module.read loopSource).result.toOption.map fun m => m.functions.map fun f =>
      f.record?.map fun r => (r.operand? 1 0 1, r.declared[7]?))
      = some [some (some ⟨"next", some "loop", "I32", "next"⟩, some ("next", "I32"))] := by
    decide +kernel
  cases hm : (Module.read loopSource).result with
  | error e => rw [hm] at hread; cases hread
  | ok m =>
    rw [hm, Except.toOption, Option.map_some, Option.some.injEq] at hread
    obtain ⟨f, hf, hrecord⟩ := List.map_eq_singleton_iff.mp hread
    have hmem : f ∈ m.functions := by rw [hf]; exact List.mem_singleton_self f
    obtain ⟨r, hr, hkeeps⟩ := references_of_read hm hmem
    rw [hr, Option.map_some, Option.some.injEq, Prod.mk.injEq] at hrecord
    exact ⟨m, f, r, rfl, hf, hr, hkeeps, hrecord.1, hrecord.2⟩

end Module

end IrRecords
