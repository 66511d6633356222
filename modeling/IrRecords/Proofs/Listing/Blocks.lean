import IrRecords.Proofs.Draft.Layout
import IrRecords.Proofs.Listing.Body

/-!
# The draft of a listing

The lines of a listing build a draft that has the blocks and statements of the listing
(`Builds.blocks`). A label opens a block, and as long as no terminator has been added to it the next
statement goes into the same block; so blocks that end in their only terminator are kept apart by
their labels alone, and no block without a label is started.
-/

namespace IrRecords

namespace Draft

/-- The draft with other blocks. -/
def withBlocks (d : Draft) (bs : Array Block) : Draft := { d with blocks := bs }

/-- A block that takes another statement. -/
def Block.Open (b : Block) : Prop :=
  ∀ s, b.statements.back? = some s → s.instr.opcode.isTerminator = false

/-- The block with one more statement. -/
def Block.push (b : Block) (s : Statement) : Block :=
  { b with statements := b.statements.push s }

theorem needsBlock_withBlocks {d : Draft} {bs : Array Block} {b : Block} (h : b.Open) :
    (d.withBlocks (bs.push b)).needsBlock = false := by
  rw [needsBlock, withBlocks, Array.back?_push]
  dsimp only
  cases hlast : b.statements.back? with
  | none => rfl
  | some s => exact h s hlast

theorem appendStatement_withBlocks (d : Draft) (bs : Array Block) (b : Block) (s : Statement) :
    (d.withBlocks (bs.push b)).appendStatement s = d.withBlocks (bs.push (b.push s)) := by
  rw [appendStatement, withBlocks, Array.back?_push]
  dsimp only
  rw [Array.pop_push]
  rfl

/-- A named instruction, or one without a result, goes into the block that is open. -/
theorem pushInstr_withBlocks {d d' : Draft} {bs : Array Block} {b : Block} (hopen : b.Open)
    {name? : Option String} {s : Statement} (hresult : s.result? = name?.map .named)
    (hvoid : name? = none ↔ s.instr.ty = .void)
    (h : (d.withBlocks (bs.push b)).pushInstr s.result? s.instr s.position = .ok d') :
    d' = d.withBlocks (bs.push (b.push s)) := by
  obtain ⟨d₁, hblock, hplace⟩ := pushInstr_cases h
  -- The block is open, so none has to be started.
  rw [needsBlock_withBlocks hopen] at hblock
  obtain ⟨_, rfl⟩ := hblock.resolve_left fun h => Bool.false_ne_true h.1
  obtain ⟨result?, instr, position⟩ := s
  rcases placeInstr_cases hplace with ⟨_, hnone, rfl⟩ | ⟨hty, id, next, hnumber, rfl⟩
  · rw [appendStatement_withBlocks, ← hnone]
  · cases name? with
    | none => exact absurd (hvoid.mp rfl) hty
    | some name =>
      dsimp only at hresult hnumber ⊢
      subst hresult
      cases hnumber
      rw [appendStatement_withBlocks]
      rfl

end Draft

namespace Listing

variable {defs : List (String × Ty)} {d d' : Draft} {rest : List Line}

/-- A block, and the block of a draft that it is read as. -/
structure Block.ReadAs (b : Block) (r : Draft.Block) : Prop where
  id : r.id = .named b.name
  statements : List.Forall₂ Statement.ReadAs b.statements r.statements.toList

/-- What a statement adds. -/
theorem Builds.statement_cases {s : Statement} {bs : Array Draft.Block} {b : Draft.Block}
    (h : Builds (d.withBlocks (bs.push b)) (.statement s :: rest) d') (hs : s.WellFormed defs)
    (hopen : b.Open) : ∃ r, s.ReadAs r ∧ Builds (d.withBlocks (bs.push (b.push r))) rest d' := by
  cases h with
  | statement hread hpush hrest =>
    have hvoid := hs.result
    rw [← Form.asRead_ty, ← hread.instr.ty] at hvoid
    exact ⟨_, hread, Draft.pushInstr_withBlocks hopen hread.result hvoid hpush ▸ hrest⟩

/-- A statement that is no terminator leaves the block open. -/
theorem open_push {s : Statement} {r : Draft.Statement} (b : Draft.Block) (hread : s.ReadAs r)
    (h : s.form.opcode.isTerminator = false) : (b.push r).Open := by
  intro t ht
  rw [Draft.Block.push, Array.back?_push, Option.some.injEq] at ht
  rw [← ht, hread.instr.opcode, Form.asRead_opcode, h]

/-- The statements of a block up to its last one. -/
theorem Builds.open_statements {body : List Statement} {bs : Array Draft.Block} {b : Draft.Block}
    (h : Builds (d.withBlocks (bs.push b)) (body.map .statement ++ rest) d')
    (hbody : ∀ s ∈ body, s.WellFormed defs ∧ s.form.opcode.isTerminator = false)
    (hopen : b.Open) : ∃ b' rs, b'.id = b.id ∧ b'.statements.toList = b.statements.toList ++ rs
      ∧ List.Forall₂ Statement.ReadAs body rs ∧ b'.Open
      ∧ Builds (d.withBlocks (bs.push b')) rest d' := by
  induction body generalizing b with
  | nil => exact ⟨b, [], rfl, (List.append_nil _).symm, .nil, hopen, h⟩
  | cons s body ih =>
    rw [List.forall_mem_cons] at hbody
    obtain ⟨r, hread, hmore⟩ := Builds.statement_cases h hbody.1.1 hopen
    obtain ⟨b', rs, hid, hstatements, hrs, hopen', hrest⟩ :=
      ih hmore hbody.2 (open_push b hread hbody.1.2)
    -- The row of the block grows at its end.
    refine ⟨b', r :: rs, hid, ?_, .cons hread hrs, hopen', hrest⟩
    rw [hstatements, Draft.Block.push, Array.toList_push, List.append_assoc, List.singleton_append]

/-- A whole block. -/
theorem Builds.block {b : Block} {bs : Array Draft.Block}
    (h : Builds (d.withBlocks bs) (.label b.name :: (b.statements.map .statement ++ rest)) d')
    (hb : b.Terminated) (hstatements : ∀ s ∈ b.statements, s.WellFormed defs) :
    ∃ r, b.ReadAs r ∧ Builds (d.withBlocks (bs.push r)) rest d' := by
  obtain ⟨body, last, hsplit, hbody⟩ := hb.exists_split
  rw [hsplit, List.forall_mem_append, List.forall_mem_singleton] at hstatements
  rw [hsplit, List.map_append, List.append_assoc] at h
  cases h with
  | @label _ _ _ _ p _ hstart hlines =>
    cases hstart
    -- A block without statements is open.
    have hempty : (⟨.named b.name, p, #[]⟩ : Draft.Block).Open := by
      intro s hs
      cases hs
    obtain ⟨b', rs, hid, hrs, hread, hopen, hlast⟩ := Builds.open_statements hlines
      (fun s hs => ⟨hstatements.1 s hs, hbody s hs⟩) hempty
    -- The last statement closes the block, and nothing is asked of it here.
    obtain ⟨r, hr, hrest⟩ := Builds.statement_cases hlast hstatements.2 hopen
    refine ⟨b'.push r, ⟨hid, ?_⟩, hrest⟩
    rw [hsplit, Draft.Block.push, Array.toList_push, hrs]
    exact List.rel_append hread (.cons hr .nil)

/-- **The lines of blocks build the blocks.** -/
theorem Builds.blocks {blocks : List Block} {bs : Array Draft.Block}
    (h : Builds (d.withBlocks bs)
      (blocks.flatMap fun b => .label b.name :: b.statements.map .statement) d')
    (hblocks : ∀ b ∈ blocks, b.Terminated ∧ ∀ s ∈ b.statements, s.WellFormed defs) :
    ∃ rs, List.Forall₂ Block.ReadAs blocks rs ∧ d' = d.withBlocks (bs ++ rs.toArray) := by
  induction blocks generalizing bs with
  | nil =>
    cases h
    exact ⟨[], .nil, by rw [Array.append_empty]⟩
  | cons b blocks ih =>
    rw [List.forall_mem_cons] at hblocks
    rw [List.flatMap_cons, List.cons_append] at h
    obtain ⟨r, hr, hrest⟩ := Builds.block h hblocks.1.1 hblocks.1.2
    obtain ⟨rs, hrs, hd⟩ := ih hrest hblocks.2
    exact ⟨r :: rs, .cons hr hrs, by rw [hd, List.push_append_toArray]⟩

/-! ## Headers -/

/-- A parameter, and what it is read as. -/
def ParamReadAs (p : String × Ty) (r : Ty × Option Ident × Position) : Prop :=
  r.1 = p.2 ∧ r.2.1 = some (.named p.1)

/-- What stands in front of a body, and the header that it is read as. -/
structure HeaderReadAs (l : Listing) (h : Draft.Header) : Prop where
  name : h.name = l.name
  ret : h.ret = l.ret
  vararg : h.vararg = l.vararg
  params : List.Forall₂ ParamReadAs l.params h.params

/-- A parameter of a draft that is written like this. -/
structure IsParam (p : String × Ty) (r : Draft.Param) : Prop where
  id : r.id = .named p.1
  ty : r.ty = p.2

/-- A named parameter takes no number. -/
theorem pushParam_named (d : Draft) (name : String) (ty : Ty) (position : Position) :
    d.pushParam (ty, some (.named name), position)
      = .ok { d with params := d.params.push ⟨.named name, ty, position⟩ } := rfl

theorem foldlM_pushParam {params : List (String × Ty)} {rs : List (Ty × Option Ident × Position)}
    (h : List.Forall₂ ParamReadAs params rs) (d : Draft) :
    ∃ ps, List.Forall₂ IsParam params ps
      ∧ rs.foldlM Draft.pushParam d = .ok { d with params := d.params ++ ps.toArray } := by
  induction h generalizing d with
  | nil => exact ⟨[], .nil, by rw [Array.append_empty]; rfl⟩
  | @cons p r _ rs hp _ ih =>
    obtain ⟨ty, id?, position⟩ := r
    obtain ⟨rfl, hid⟩ := hp
    dsimp only at hid
    subst hid
    obtain ⟨ps, hps, hfold⟩ := ih { d with params := d.params.push ⟨.named p.1, p.2, position⟩ }
    refine ⟨⟨.named p.1, p.2, position⟩ :: ps, .cons ⟨rfl, rfl⟩ hps, ?_⟩
    rw [List.foldlM_cons, pushParam_named]
    dsimp only [bind, Except.bind]
    rw [hfold, List.push_append_toArray]

/-! ## Drafts -/

/-- A listing, and the draft that it is read as. -/
structure ReadAs (l : Listing) (d : Draft) : Prop where
  name : d.name = l.name
  ret : d.ret = l.ret
  vararg : d.vararg = l.vararg
  params : List.Forall₂ IsParam l.params d.params.toList
  blocks : List.Forall₂ Block.ReadAs l.blocks d.blocks.toList

/-- **The draft of a listing.** The header starts it, and its lines build the rest. -/
theorem exists_ofHeader {l : Listing} {h : Draft.Header} (hl : l.WellFormed)
    (hread : l.HeaderReadAs h) :
    ∃ d, Draft.ofHeader h = .ok d ∧ ∀ d', Builds d l.lines d' → l.ReadAs d' := by
  obtain ⟨ps, hps, hfold⟩ := foldlM_pushParam hread.params ⟨h.name, h.ret, h.vararg, #[], #[], 0⟩
  refine ⟨_, hfold, fun d' hbuilds => ?_⟩
  have hblocks : ∀ b ∈ l.blocks, b.Terminated ∧ ∀ s ∈ b.statements, s.WellFormed l.definitions :=
    fun b hb => ⟨hl.blocks b hb, fun s hs => hl.statements s (List.mem_flatMap.mpr ⟨b, hb, hs⟩)⟩
  have hstart : Builds (Draft.withBlocks ⟨h.name, h.ret, h.vararg, #[] ++ ps.toArray, #[], 0⟩ #[])
      l.lines d' := hbuilds
  obtain ⟨rs, hrs, rfl⟩ := Builds.blocks hstart hblocks
  refine ⟨hread.name, hread.ret, hread.vararg, ?_, ?_⟩
  · simpa [Draft.withBlocks] using hps
  · simpa [Draft.withBlocks] using hrs

end Listing

end IrRecords
