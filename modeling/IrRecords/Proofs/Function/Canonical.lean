import IrRecords.Proofs.Draft.Building
import IrRecords.Proofs.Draft.Layout
import IrRecords.Proofs.Record.Dangling

/-!
# The canonical layout

A function that was laid out from a draft has its values in a fixed order: the arguments, then one
label for each block, then one result for each instruction, and behind these the constants and
globals that the operands of the instructions bring along, in the order of the operands. Its
instructions are numbered in the order of the blocks. `Function.Canonical` says this of a function
alone, without the draft, as equations between rows of places.

From the equations it follows that every place in the function exists (`Function.Closed`) and that
a definition and its place know each other (`Function.PointsBack`). A closed function has a record,
because encoding fails at a place that does not exist and nowhere else.
-/

namespace IrRecords

/-! ## The layout as a property of functions -/

/-- Whether a value comes from outside of its function. -/
def Value.Outer (v : Value) : Prop := (∃ text, v.origin = .constant text) ∨ v.origin = .global

namespace Function

/-- How many values the function defines itself. -/
def definitionCount (f : Function) : Nat := f.args.length + f.blocks.size + f.instrs.size

/-- The places of all operands, instruction by instruction. -/
def operandPlaces (f : Function) : List ValueId := f.instrs.toList.flatMap (·.operands)

/-- The canonical layout. -/
structure Canonical (f : Function) : Prop where
  /-- The arguments come first. -/
  args : f.args = List.range f.args.length
  /-- Then the labels, in the order of the blocks. -/
  labels : f.blocks.toList.map (·.label) = List.range' f.args.length f.blocks.size
  /-- Then the results, void ones included, in the order of the instructions. -/
  results : f.instrs.toList.map (·.result)
    = List.range' (f.args.length + f.blocks.size) f.instrs.size
  /-- What the values stand for, and that nothing but constants and globals is left. -/
  origins : ∃ outer : List Value, (∀ v ∈ outer, v.Outer) ∧ f.values.toList.map (·.origin)
    = (List.range f.args.length).map .argument ++ (List.range f.blocks.size).map .block
      ++ (List.range f.instrs.size).map .instruction ++ outer.map (·.origin)
  /-- The operands that are constants or globals fill the rest, each of them one place. -/
  outer : f.operandPlaces.filter (f.definitionCount ≤ ·)
    = List.range' f.definitionCount (f.values.size - f.definitionCount)
  /-- The blocks share out the instructions in one row. -/
  instrs : f.blocks.toList.flatMap (·.instrs) = List.range f.instrs.size
  /-- Operands lead to values. -/
  operands : ∀ i ∈ f.instrs, ∀ id ∈ i.operands, id < f.values.size
  /-- Operands of phis flow in from blocks. -/
  incoming : ∀ i ∈ f.instrs, ∀ blocks, i.detail = .phi blocks → ∀ b ∈ blocks, b < f.blocks.size
  /-- A phi has as many incoming blocks as operands. -/
  edges : ∀ i ∈ f.instrs, i.opcode = .phi →
    ∃ blocks, i.detail = .phi blocks ∧ blocks.length = i.operands.length

/-- Every place in the function exists. -/
structure Closed (f : Function) : Prop where
  args : ∀ id ∈ f.args, id < f.values.size
  labels : ∀ b ∈ f.blocks, b.label < f.values.size
  instrs : ∀ b ∈ f.blocks, ∀ id ∈ b.instrs, id < f.instrs.size
  results : ∀ i ∈ f.instrs, i.result < f.values.size
  operands : ∀ i ∈ f.instrs, ∀ id ∈ i.operands, id < f.values.size
  incoming : ∀ i ∈ f.instrs, ∀ blocks, i.detail = .phi blocks → ∀ b ∈ blocks, b < f.blocks.size

/-- What defines a value is what the value stands for. -/
structure PointsBack (f : Function) : Prop where
  args : ∀ (n : Nat) id, f.args[n]? = some id →
    (f.values[id]?).map (·.origin) = some (.argument n)
  labels : ∀ (n : Nat) b, f.blocks[n]? = some b →
    (f.values[b.label]?).map (·.origin) = some (.block n)
  results : ∀ (n : Nat) i, f.instrs[n]? = some i →
    (f.values[i.result]?).map (·.origin) = some (.instruction n)

/-! ## What the layout gives -/

section

variable {f : Function}

/-- A place that is found in a row of places has a number in it. -/
private theorem getElem?_of_map_eq_range' {α : Type} {xs : Array α} {place : α → Nat}
    {start count n : Nat} {x : α} (hrow : xs.toList.map place = List.range' start count)
    (hx : xs[n]? = some x) : n < count ∧ place x = start + n := by
  have hn : (xs.toList.map place)[n]? = some (place x) := by
    rw [List.getElem?_map, Array.getElem?_toList, hx]
    rfl
  rw [hrow] at hn
  have hlt := (List.getElem?_eq_some_iff.mp hn).1
  rw [List.length_range'] at hlt
  rw [List.getElem?_range' hlt, Option.some.injEq, Nat.one_mul] at hn
  exact ⟨hlt, hn.symm⟩

/-- The places of a function in the canonical layout, from the definitions to the values. -/
theorem Canonical.pointsBack (hf : f.Canonical) : f.PointsBack := by
  obtain ⟨outer, _, horigins⟩ := hf.origins
  -- The row of origins is cut at the counts of arguments, blocks and instructions.
  have horigin : ∀ place : Nat, (f.values[place]?).map (·.origin)
      = ((List.range f.args.length).map Origin.argument
        ++ (List.range f.blocks.size).map Origin.block
        ++ (List.range f.instrs.size).map Origin.instruction ++ outer.map (·.origin))[place]? := by
    intro place
    rw [← horigins, List.getElem?_map, Array.getElem?_toList]
  refine ⟨fun n id hid => ?_, fun n b hb => ?_, fun n i hi => ?_⟩
  · have hn : n < f.args.length := (List.getElem?_eq_some_iff.mp hid).1
    rw [hf.args, List.getElem?_range hn, Option.some.injEq] at hid
    rw [horigin, ← hid, List.getElem?_append_left (by simp; omega),
      List.getElem?_append_left (by simp; omega), List.getElem?_append_left (by simpa using hn)]
    simp [hn]
  · obtain ⟨hn, hlabel⟩ := getElem?_of_map_eq_range' hf.labels hb
    rw [horigin, hlabel, List.getElem?_append_left (by simp; omega),
      List.getElem?_append_left (by simp; omega), List.getElem?_append_right (by simp)]
    simp [hn]
  · obtain ⟨hn, hresult⟩ := getElem?_of_map_eq_range' hf.results hi
    rw [horigin, hresult, List.getElem?_append_left (by simp; omega),
      List.getElem?_append_right (by simp)]
    simp [hn]

/-- Every place of a function in the canonical layout exists. -/
theorem Canonical.closed (hf : f.Canonical) : f.Closed := by
  have hback := hf.pointsBack
  -- A place that points back exists.
  have hlt : ∀ {place : Nat} {origin : Origin},
      (f.values[place]?).map (·.origin) = some origin → place < f.values.size := by
    intro place origin h
    obtain ⟨v, hv, _⟩ := Option.map_eq_some_iff.mp h
    exact (Array.getElem?_eq_some_iff.mp hv).1
  refine ⟨fun id hid => ?_, fun b hb => ?_, fun b hb id hid => ?_, fun i hi => ?_, hf.operands,
    hf.incoming⟩
  · obtain ⟨n, hn⟩ := List.mem_iff_getElem?.mp hid
    exact hlt (hback.args n id hn)
  · obtain ⟨n, hn⟩ := Array.mem_iff_getElem?.mp hb
    exact hlt (hback.labels n b hn)
  · have hmem : id ∈ f.blocks.toList.flatMap (·.instrs) :=
      List.mem_flatMap.mpr ⟨b, Array.mem_toList_iff.mpr hb, hid⟩
    rw [hf.instrs] at hmem
    exact List.mem_range.mp hmem
  · obtain ⟨n, hn⟩ := Array.mem_iff_getElem?.mp hi
    exact hlt (hback.results n i hn)

/-! ## Records of closed functions -/

theorem Closed.noneDangling (hf : f.Closed) : f.NoneDangling := by
  refine ⟨hf.args, fun b hb id hid => ?_⟩
  have hlt := hf.instrs b hb id hid
  have hmem := Array.getElem_mem hlt
  exact ⟨_, Array.getElem?_eq_getElem hlt, hf.results _ hmem, hf.operands _ hmem,
    fun blocks hdetail _ _ b' hb' => hf.incoming _ hmem blocks hdetail b' (List.mem_of_getElem? hb')⟩

/-- **A closed function has a record.** -/
theorem Closed.record?_isSome (hf : f.Closed) : f.record?.isSome := record?_isSome_iff.mpr hf.noneDangling

end

end Function

/-! ## Functions that were laid out -/

namespace Draft

variable {d : Draft} {f : Function}

@[simp] theorem length_argDefinitions (d : Draft) : d.argDefinitions.length = d.params.size := by
  simp [argDefinitions]

@[simp] theorem length_labelDefinitions (d : Draft) :
    d.labelDefinitions.length = d.blocks.size := by
  simp [labelDefinitions]

@[simp] theorem length_resultDefinitions (d : Draft) :
    d.resultDefinitions.length = d.statements.length := by
  simp [resultDefinitions]

theorem length_definitions (d : Draft) :
    d.definitions.length = d.params.size + d.blocks.size + d.statements.length := by
  simp [definitions, Nat.add_assoc]

/-- A row that is numbered on the way stands for the numbers from zero on. -/
private theorem map_origin_mapIdx {α : Type} {xs : List α} {g : Nat → α → Definition}
    {k : Nat → Origin} (hk : ∀ n x, (g n x).origin = k n) :
    (xs.mapIdx g).map (·.origin) = (List.range xs.length).map k := by
  refine List.ext_getElem (by simp) fun n _ _ => ?_
  simp [hk]

/-- What the definitions of a draft stand for. -/
theorem definitions_origin (d : Draft) : d.definitions.map (·.origin)
    = (List.range d.params.size).map .argument ++ (List.range d.blocks.size).map .block
      ++ (List.range d.statements.length).map .instruction := by
  have hargs : d.argDefinitions.map (·.origin) = (List.range d.params.size).map .argument :=
    map_origin_mapIdx fun _ _ => rfl
  have hlabels : d.labelDefinitions.map (·.origin) = (List.range d.blocks.size).map .block :=
    map_origin_mapIdx fun _ _ => rfl
  have hresults : d.resultDefinitions.map (·.origin)
      = (List.range d.statements.length).map .instruction :=
    map_origin_mapIdx fun _ _ => rfl
  rw [definitions, List.map_append, List.map_append, hargs, hlabels, hresults]

/-- A label that has been resolved names a block of the draft. -/
theorem resolveLabel_lt {label : Ident × Position} {block : BlockId}
    (h : resolveLabel d.definitions label = .ok block) : block < d.blocks.size := by
  obtain ⟨id, position⟩ := label
  simp only [resolveLabel] at h
  cases hplace : (locate d.definitions id).bind (d.definitions[·]?) with
  | none => rw [hplace] at h; cases h
  | some definition =>
    rw [hplace] at h
    obtain ⟨place, _, hdefinition⟩ := Option.bind_eq_some_iff.mp hplace
    have hmem : definition.origin ∈ d.definitions.map (·.origin) :=
      List.mem_map.mpr ⟨definition, List.mem_of_getElem? hdefinition, rfl⟩
    obtain ⟨id?, ty, origin, p⟩ := definition
    cases origin with
    | block b =>
      cases h
      simpa [definitions_origin] using hmem
    | argument n => cases h
    | instruction n => cases h
    | constant text => cases h
    | global => cases h

theorem mapM_resolveLabel {labels : List (Ident × Position)} {blocks : List BlockId}
    (h : labels.mapM (resolveLabel d.definitions) = .ok blocks) :
    blocks.length = labels.length ∧ ∀ b ∈ blocks, b < d.blocks.size := by
  induction labels generalizing blocks with
  | nil => cases h; simp
  | cons label labels ih =>
    rw [List.mapM_cons] at h
    cases hl : resolveLabel d.definitions label with
    | error e => simp only [Bind.bind, Except.bind, hl] at h; cases h
    | ok block =>
      cases hls : labels.mapM (resolveLabel d.definitions) with
      | error e => simp only [Bind.bind, Except.bind, hl, hls] at h; cases h
      | ok blocks' =>
        simp only [Bind.bind, Except.bind, hl, hls] at h
        cases h
        obtain ⟨hlength, hlt⟩ := ih hls
        refine ⟨by simp [hlength], fun b hb => ?_⟩
        rcases List.mem_cons.mp hb with rfl | hb
        · exact resolveLabel_lt hl
        · exact hlt b hb

/-- A phi keeps its edges when its labels are resolved. -/
theorem resolveDetail_of_phi {labels : List (Ident × Position)} {detail : IrRecords.Detail}
    (h : resolveDetail d.definitions (.phi labels) = .ok detail) :
    ∃ blocks, detail = .phi blocks ∧ blocks.length = labels.length
      ∧ ∀ b ∈ blocks, b < d.blocks.size := by
  unfold resolveDetail at h
  cases hls : labels.mapM (resolveLabel d.definitions) with
  | error e => simp only [Bind.bind, Except.bind, hls] at h; cases h
  | ok blocks =>
    simp only [Bind.bind, Except.bind, hls] at h
    cases h
    exact ⟨blocks, rfl, mapM_resolveLabel hls⟩

/-- Only phis have edges. -/
theorem exists_phi_of_resolveDetail {detail : Detail} {blocks : List BlockId}
    (h : resolveDetail d.definitions detail = .ok (.phi blocks)) :
    ∃ labels, detail = .phi labels := by
  cases detail with
  | plain => cases h
  | compare p => cases h
  | alloca allocated => cases h
  | phi labels => exact ⟨labels, rfl⟩

/-! ### Sizes -/

theorem LaidOut.length_args (h : LaidOut d f) : f.args.length = d.params.size := by
  rw [h.args, List.length_range]

theorem LaidOut.size_blocks (h : LaidOut d f) : f.blocks.size = d.blocks.size := by
  have hlabels := congrArg (List.map (·.label)) h.blocks
  rw [layBlocks_label] at hlabels
  have hlength := congrArg List.length hlabels
  rwa [List.length_map, List.length_range', Array.length_toList, Array.length_toList] at hlength

theorem LaidOut.size_instrs (h : LaidOut d f) : f.instrs.size = d.statements.length := by
  rw [← Array.length_toList, ← h.instrs.length_eq]

theorem LaidOut.definitionCount_eq (h : LaidOut d f) :
    f.definitionCount = d.definitions.length := by
  rw [Function.definitionCount, length_definitions, h.length_args, h.size_blocks, h.size_instrs]

theorem LaidOut.size_values (h : LaidOut d f) : f.values.size = d.definitions.length
    + ((operandsOf d.statements).filterMap Operand.known?).length := by
  rw [← Array.length_toList, h.values, List.length_append, List.length_map]

/-- The place of an operand that was resolved exists. -/
theorem LaidOut.lt_of_resolves (h : LaidOut d f) {o : Operand} {place : ValueId}
    (ho : Resolves d.definitions f.values o place) : place < f.values.size := by
  cases ho with
  | known _ hplace => exact (Array.getElem?_eq_some_iff.mp hplace).1
  | reference hplace _ _ =>
    have hlt := (List.getElem?_eq_some_iff.mp hplace).1
    rw [h.size_values]
    exact Nat.lt_add_right _ hlt

/-- A phi has an edge. -/
theorem LaidOut.operands_ne_nil (h : LaidOut d f) (hd : d.WellFormed) {i : IrRecords.Instr}
    (hi : i ∈ f.instrs) (hphi : i.opcode = .phi) : i.operands ≠ [] := by
  obtain ⟨s, hs, hsi⟩ := exists_left_of_forall₂ h.instrs (Array.mem_toList_iff.mpr hi)
  have hsuits := (hd s hs).instr.suits
  rw [← hsi.opcode, hphi, hsi.operands.length_eq] at hsuits
  obtain ⟨_, _, _, hpos⟩ := hsuits.exists_edges
  exact List.ne_nil_of_length_pos hpos

/-- **A well-formed draft is laid out canonically.** -/
theorem LaidOut.canonical (h : LaidOut d f) (hd : d.WellFormed) : f.Canonical := by
  refine ⟨?_, ?_, ?_, ?_, ?_, ?_, fun i hi id hid => ?_, fun i hi blocks hdetail => ?_,
    fun i hi hphi => ?_⟩
  · rw [h.length_args, h.args]
  · rw [h.blocks, layBlocks_label, h.length_args, h.size_blocks, Array.length_toList]
  · rw [h.results, h.length_args, h.size_blocks, h.size_instrs]
  · -- The values behind the definitions are constants and globals, as operands that are no
    -- references are.
    refine ⟨(operandsOf d.statements).filterMap Operand.known?, fun v hv => ?_, ?_⟩
    · obtain ⟨o, ho, hov⟩ := List.mem_filterMap.mp hv
      obtain ⟨s, hs, hos⟩ := List.mem_flatMap.mp ho
      have houter := (hd s hs).instr.outer o hos
      cases o with
      | reference id ty position => cases hov
      | known value =>
        cases hov
        exact houter
    · rw [h.values, List.map_append, List.map_map, h.length_args, h.size_blocks, h.size_instrs,
        ← definitions_origin]
      rfl
  · rw [Function.operandPlaces, h.definitionCount_eq, h.fresh, h.size_values,
      Nat.add_sub_cancel_left]
  · rw [h.blocks, layBlocks_instrs, h.size_instrs, ← List.range_eq_range']
    rfl
  · obtain ⟨s, _, hsi⟩ := exists_left_of_forall₂ h.instrs (Array.mem_toList_iff.mpr hi)
    obtain ⟨o, _, ho⟩ := exists_left_of_forall₂ hsi.operands hid
    exact h.lt_of_resolves ho
  · obtain ⟨s, _, hsi⟩ := exists_left_of_forall₂ h.instrs (Array.mem_toList_iff.mpr hi)
    obtain ⟨labels, hlabels⟩ := exists_phi_of_resolveDetail (hdetail ▸ hsi.detail)
    obtain ⟨blocks', hblocks, _, hlt⟩ := resolveDetail_of_phi (hlabels ▸ hsi.detail)
    cases hdetail.symm.trans hblocks
    rwa [h.size_blocks]
  · obtain ⟨s, hs, hsi⟩ := exists_left_of_forall₂ h.instrs (Array.mem_toList_iff.mpr hi)
    have hsuits := (hd s hs).instr.suits
    rw [← hsi.opcode, hphi, hsi.operands.length_eq] at hsuits
    obtain ⟨labels, hlabels, hlength, _⟩ := hsuits.exists_edges
    obtain ⟨blocks, hdetail, hsame, _⟩ := resolveDetail_of_phi (hlabels ▸ hsi.detail)
    exact ⟨blocks, hdetail, by rw [hsame, hlength]⟩

end Draft

end IrRecords
