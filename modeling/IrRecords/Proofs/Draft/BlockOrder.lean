import IrRecords.Proofs.Draft.SameLayout
import IrRecords.Proofs.Record.Contents

/-!
# The order of the blocks of a draft

The blocks of a draft do not look into each other. A block shows its label and its results to the others,
and asks them for the definitions that it refers to and for the blocks that values flow in from; its
record is its own. That is its `Interface`. Whether a draft can be laid out, and what the record of the
function is then, can be told from the parameters and the interfaces of the blocks, and for the first of
the two the order of the blocks does not matter (`Resolvable.perm`). An interface does not tell where the
block stands in the text (`SameBlock.interface`).
-/

namespace IrRecords.Draft

variable {d d' : Draft} {T : Twins}

/-! ## Interfaces -/

/-- The definition that an operand asks for: its identifier, and the type that it is used at. -/
def Operand.reference? : Operand → Option (Ident × Ty)
  | .reference id ty _ => some (id, ty)
  | .known _ => none

/-- The labels that an instruction takes for those of blocks. -/
def Detail.sources : Detail → List Ident
  | .phi incoming => incoming.map (·.1)
  | _ => []

/-- What a block has to do with the rest of its function. -/
structure Interface where
  label : Ident
  /-- The results that have an identifier, with their types. -/
  results : List (Ident × Ty)
  references : List (Ident × Ty)
  sources : List Ident
  record : Record.Block

/-- The interface of a block. -/
def Block.interface (b : Block) : Interface where
  label := b.id
  results := b.statements.toList.filterMap fun s => s.result?.map (·, s.instr.ty)
  references := b.statements.toList.flatMap fun s => s.instr.operands.filterMap Operand.reference?
  sources := b.statements.toList.flatMap fun s => s.instr.detail.sources
  record := b.record

/-- The interfaces of the blocks, in the order of the text. -/
def interfaces (d : Draft) : List Interface := d.blocks.toList.map Block.interface

/-- The parameters with their types. -/
def paramEntries (d : Draft) : List (Ident × Ty) := d.params.toList.map fun p => (p.id, p.ty)

/-! ## What interfaces tell -/

theorem entries_eq (d : Draft) : d.entries = d.paramEntries
    ++ d.interfaces.map (fun i => (i.label, .label)) ++ d.interfaces.flatMap Interface.results := by
  rw [entries, paramEntries, interfaces, List.map_map, List.flatMap_map, statements,
    List.filterMap_flatMap]
  rfl

/-- The record of a function, told from its parameters and the interfaces of its blocks. -/
theorem record_eq (d : Draft) : d.record
    = ⟨d.paramEntries.map fun x => (Operand.reference x.1 x.2 .start).value.record,
      d.interfaces.map Interface.record, d.name, d.ret.canonicalName⟩ := by
  rw [record, interfaces, paramEntries, List.map_map, List.map_map]
  rfl

theorem mem_reference? {id : Ident} {ty : Ty} {os : List Operand} :
    (id, ty) ∈ os.filterMap Operand.reference? ↔ ∃ p, Operand.reference id ty p ∈ os := by
  rw [List.mem_filterMap]
  constructor
  · rintro ⟨o, ho, hid⟩
    cases o with
    | reference id' ty' p =>
      cases hid
      exact ⟨p, ho⟩
    | known value => cases hid
  · rintro ⟨p, hp⟩
    exact ⟨_, hp, rfl⟩

theorem mem_sources {id : Ident} {detail : Detail} :
    id ∈ detail.sources ↔ ∃ incoming, detail = .phi incoming ∧ ∃ e ∈ incoming, e.1 = id := by
  cases detail with
  | phi incoming =>
    rw [Detail.sources, List.mem_map]
    constructor
    · exact fun h => ⟨incoming, rfl, h⟩
    · rintro ⟨_, heq, h⟩
      cases heq
      exact h
  | _ =>
    constructor
    · intro h
      cases h
    · rintro ⟨_, heq, _⟩
      cases heq

/-- **What it takes to lay out a draft**, told from its interfaces. -/
theorem resolvable_iff_interfaces : d.Resolvable ↔ (d.entries.map (·.1)).Nodup
    ∧ ∀ i ∈ d.interfaces, i.references ⊆ d.entries ∧ i.sources ⊆ d.interfaces.map Interface.label := by
  have hstatements : ∀ s, s ∈ d.statements ↔ ∃ b ∈ d.blocks.toList, s ∈ b.statements.toList :=
    fun s => List.mem_flatMap
  have hlabels : d.interfaces.map Interface.label = d.blocks.toList.map (·.id) := by
    rw [interfaces, List.map_map]
    rfl
  rw [hlabels]
  -- `Resolvable` speaks of single statements, and an interface of all statements of a block.
  constructor
  · rintro ⟨hdistinct, hreferences, hsources⟩
    refine ⟨hdistinct, List.forall_mem_map.mpr fun b hb => ⟨fun x hx => ?_, fun id hid => ?_⟩⟩
    · obtain ⟨s, hs, hx⟩ := List.mem_flatMap.mp hx
      obtain ⟨p, hp⟩ := mem_reference?.mp hx
      exact hreferences s ((hstatements s).mpr ⟨b, hb, hs⟩) _ _ p hp
    · obtain ⟨s, hs, hid⟩ := List.mem_flatMap.mp hid
      obtain ⟨incoming, hincoming, e, he, rfl⟩ := mem_sources.mp hid
      exact hsources s ((hstatements s).mpr ⟨b, hb, hs⟩) incoming hincoming e he
  · rintro ⟨hdistinct, hall⟩
    refine ⟨hdistinct, fun s hs id ty p hp => ?_, fun s hs incoming hincoming e he => ?_⟩
    · obtain ⟨b, hb, hs⟩ := (hstatements s).mp hs
      refine (hall _ (List.mem_map_of_mem hb)).1 (List.mem_flatMap.mpr ⟨s, hs, ?_⟩)
      exact mem_reference?.mpr ⟨p, hp⟩
    · obtain ⟨b, hb, hs⟩ := (hstatements s).mp hs
      refine (hall _ (List.mem_map_of_mem hb)).2 (List.mem_flatMap.mpr ⟨s, hs, ?_⟩)
      exact mem_sources.mpr ⟨incoming, hincoming, e, he, rfl⟩

theorem entries_perm (hparams : d'.paramEntries = d.paramEntries)
    (h : d.interfaces.Perm d'.interfaces) : d.entries.Perm d'.entries := by
  rw [entries_eq, entries_eq, hparams]
  exact ((h.map _).append_left _).append (h.flatMap_right _)

/-- **Blocks may change places**: a draft can be laid out as well in another order of its blocks. -/
theorem Resolvable.perm (hd : d.Resolvable) (hparams : d'.paramEntries = d.paramEntries)
    (h : d.interfaces.Perm d'.interfaces) : d'.Resolvable := by
  obtain ⟨hdistinct, hall⟩ := resolvable_iff_interfaces.mp hd
  have hentries := entries_perm hparams h
  refine resolvable_iff_interfaces.mpr ⟨(hentries.map _).nodup_iff.mp hdistinct, fun i hi => ?_⟩
  obtain ⟨hreferences, hsources⟩ := hall i (h.mem_iff.mpr hi)
  exact ⟨fun x hx => hentries.mem_iff.mp (hreferences hx),
    fun id hid => (h.map _).mem_iff.mp (hsources hid)⟩

/-! ## Where a block stands -/

section

variable {o o' : Operand} {i i' : Instr} {s s' : Statement} {b b' : Block} {x x' : Param}

/-- Where no text may be shown in another way, an operand is the same but for its position. -/
theorem SameOperand.strict (h : SameOperand T o o') (hT : ∀ x, ¬ T.Loose x) :
    o'.reference? = o.reference? ∧ o'.value = o.value := by
  cases h with
  | reference => exact ⟨rfl, rfl⟩
  | known h _ =>
    rcases h with rfl | ⟨_, _, hloose, _⟩
    · exact ⟨rfl, rfl⟩
    · exact absurd hloose (hT _)

theorem SameInstr.edge?_eq (h : SameInstr T i i') (index : Nat) : i'.edge? index = i.edge? index := by
  obtain ⟨opcode, ty, operands, detail⟩ := i
  obtain ⟨opcode', ty', operands', detail'⟩ := i'
  obtain ⟨_, _, _, hdetail⟩ := h
  cases hdetail with
  | phi h =>
    have hnames := map_eq_of_forall₂ h (f := fun e => e.1.name) (g := fun e => e.1.name)
      fun e e' he => congrArg Ident.name he.1
    rw [Instr.edge?, Instr.edge?]
    dsimp only
    rw [← List.getElem?_map, ← List.getElem?_map, hnames]
  | _ => rfl

theorem SameDetail.sources_eq {detail detail' : Detail} (h : SameDetail T detail detail') :
    detail'.sources = detail.sources := by
  cases h with
  | phi h => exact map_eq_of_forall₂ h fun e e' he => he.1
  | _ => rfl

theorem SameStatement.record_eq (h : SameStatement T s s') (hT : ∀ x, ¬ T.Loose x) :
    s'.record = s.record := by
  have hinstr := h.instr
  have hvalues : s'.instr.operands.map Operand.value = s.instr.operands.map Operand.value :=
    map_eq_of_forall₂ hinstr.operands fun o o' ho => (ho.strict hT).2
  have hoperands : s'.instr.operands.mapIdx s'.instr.operandRecord
      = s.instr.operands.mapIdx s.instr.operandRecord := by
    refine (List.forall₂_eq_eq_eq ▸ forall₂_mapIdx hinstr.operands fun index o o' ho => ?_).symm
    rw [Instr.operandRecord, Instr.operandRecord, (ho.strict hT).2, hinstr.edge?_eq]
  have hsize : s'.instr.operands.head?.map (·.value.rendering)
      = s.instr.operands.head?.map (·.value.rendering) := by
    have hhead := congrArg (fun vs => vs.head?.map Value.rendering) hvalues
    rwa [List.head?_map, List.head?_map, Option.map_map, Option.map_map] at hhead
  have hdetail := hinstr.detail
  rw [Statement.record, Statement.record, hoperands, hsize, h.result?, hinstr.opcode, hinstr.ty]
  generalize s.instr.detail = detail at hdetail ⊢
  generalize s'.instr.detail = detail' at hdetail ⊢
  cases hdetail <;> rfl

/-- **An interface does not tell where the block stands.** -/
theorem SameBlock.interface_eq (h : SameBlock T b b') (hT : ∀ x, ¬ T.Loose x) :
    b'.interface = b.interface := by
  have hresults := filterMap_eq_of_forall₂ h.statements (f := fun s => s.result?.map (·, s.instr.ty))
    (g := fun s => s.result?.map (·, s.instr.ty)) fun s s' hs => by rw [hs.result?, hs.instr.ty]
  have hreferences := flatMap_eq_of_forall₂ h.statements
    (f := fun s => s.instr.operands.filterMap Operand.reference?)
    (g := fun s => s.instr.operands.filterMap Operand.reference?) fun s s' hs =>
      filterMap_eq_of_forall₂ hs.instr.operands fun o o' ho => (ho.strict hT).1
  have hsources := flatMap_eq_of_forall₂ h.statements (f := fun s => s.instr.detail.sources)
    (g := fun s => s.instr.detail.sources) fun s s' hs => hs.instr.detail.sources_eq
  have hrecord : b'.record = b.record := by
    rw [Block.record, Block.record, h.id,
      map_eq_of_forall₂ h.statements fun s s' hs => hs.record_eq hT]
  rw [Block.interface, Block.interface, h.id, hresults, hreferences, hsources, hrecord]

/-- A parameter is the same but for its position. -/
theorem SameDraft.paramEntries_eq (h : SameDraft T d d') : d'.paramEntries = d.paramEntries :=
  map_eq_of_forall₂ h.params fun _ _ hx => by rw [hx.id, hx.ty]

end

end IrRecords.Draft
