import IrRecords.Proofs.Module.Statements
import Mathlib.Data.List.Chain

/-!
# How a body is cut into blocks

The blocks of a function are its body, cut at labels and behind terminators. A piece of the body
(`Segment`) is a label with the statements behind it, or a row of statements without a label. Pieces
without a label are not empty, and one that does not come first stands behind a terminator; and no
terminator has another statement of its piece behind it. So a label ends a piece whatever stands in
front of it, a terminator ends it as well, and nothing else does.

A draft has its blocks in this form at all times (`AddsAll.segmented`): the two ways to start a block,
at a label and at a statement, keep it, and so does adding a statement to a block that is still open.
`segmented_of_read` says it of the functions that are laid out.
-/

namespace IrRecords

/-! ## Rows -/

section Rows

variable {α β : Type} {R : α → β → Prop} {xs : List α} {ys : List β} {y : β}

/-- A row that is related to one with a last element has one itself. -/
theorem exists_concat_of_forall₂ (h : List.Forall₂ R xs (ys ++ [y])) :
    ∃ xs' x, xs = xs' ++ [x] ∧ List.Forall₂ R xs' ys ∧ R x y := by
  have hlast := List.forall₂_drop_append xs ys [y] h
  obtain ⟨x, rest, hx, hrest, hdrop⟩ := List.forall₂_cons_right_iff.mp hlast
  obtain rfl := List.forall₂_nil_right_iff.mp hrest
  refine ⟨xs.take ys.length, x, ?_, List.forall₂_take_append xs ys [y] h, hx⟩
  rw [← hdrop, List.take_append_drop]

/-- Rows of the same length are related if what stands at the same places is. -/
theorem forall₂_of_getElem? (hlength : xs.length = ys.length)
    (h : ∀ (n : Nat) x y, xs[n]? = some x → ys[n]? = some y → R x y) : List.Forall₂ R xs ys :=
  List.forall₂_iff_get.mpr ⟨hlength, fun n hx hy =>
    h n _ _ (List.getElem?_eq_getElem hx) (List.getElem?_eq_getElem hy)⟩

end Rows

/-! ## Pieces of a body -/

/-- A piece of a body. -/
structure Segment where
  /-- The label that the piece starts with. -/
  label? : Option Token
  statements : List WrittenStatement

namespace Segment

/-- The piece as a part of a body. -/
def parts (s : Segment) : List BodyPart :=
  s.label?.toList.map .label ++ s.statements.map .statement

/-- The piece ends in a terminator. -/
def Ended (s : Segment) : Prop :=
  ∃ last, s.statements.getLast? = some last ∧ last.instr.opcode.isTerminator = true

/-- What a piece looks like. -/
structure Valid (s : Segment) : Prop where
  /-- No terminator has a statement behind it. -/
  terminators : ∀ st ∈ s.statements.dropLast, st.instr.opcode.isTerminator = false
  nonempty : s.label? = none → s.statements ≠ []

/-- A piece that has not ended goes on with any statement. -/
theorem Valid.concat {s : Segment} (h : s.Valid) (hopen : ¬ s.Ended) (w : WrittenStatement) :
    Valid { s with statements := s.statements ++ [w] } where
  terminators := by
    intro st hst
    rw [List.dropLast_concat] at hst
    by_contra hterminator
    rw [Bool.not_eq_false] at hterminator
    -- A terminator would be the last statement, since no other statement is one.
    rcases List.eq_nil_or_concat' s.statements with hnil | ⟨front, last, hlast⟩
    · rw [hnil] at hst
      cases hst
    · have hfront := h.terminators
      rw [hlast, List.dropLast_concat] at hfront
      rw [hlast, List.mem_append, List.mem_singleton] at hst
      rcases hst with hst | rfl
      · exact Bool.false_ne_true ((hfront st hst).symm.trans hterminator)
      · exact hopen ⟨st, by rw [hlast, List.getLast?_concat], hterminator⟩
  nonempty := fun _ => by simp

end Segment

/-- The pieces are a row: behind a piece that has not ended there is a label. -/
structure Segment.Row (segments : List Segment) : Prop where
  valid : ∀ s ∈ segments, s.Valid
  chain : segments.IsChain fun s s' => s'.label? = none → s.Ended

namespace Segment.Row

variable {segments : List Segment} {s : Segment}

theorem nil : Row [] := ⟨List.forall_mem_nil _, .nil⟩

/-- A piece can be put behind a row. -/
theorem concat (h : Row segments) (hs : s.Valid)
    (hlast : s.label? = none → ∀ last, segments.getLast? = some last → last.Ended) :
    Row (segments ++ [s]) where
  valid := List.forall_mem_append.mpr ⟨h.valid, List.forall_mem_singleton.mpr hs⟩
  chain := by
    refine List.isChain_append.mpr ⟨h.chain, .singleton s, fun last hmem s' hs' hnone => ?_⟩
    cases hs'
    exact hlast hnone last hmem

/-- The last piece of a row can be replaced by one with the same label. -/
theorem replace {s' : Segment} (h : Row (segments ++ [s])) (hs' : s'.Valid)
    (hlabel : s'.label? = s.label?) : Row (segments ++ [s']) := by
  obtain ⟨hvalid, _⟩ := List.forall_mem_append.mp h.valid
  obtain ⟨hchain, _, hlast⟩ := List.isChain_append.mp h.chain
  exact concat ⟨hvalid, hchain⟩ hs' fun hnone last hmem => hlast last hmem s rfl (hlabel ▸ hnone)

end Segment.Row

namespace Draft

variable {d d' : Draft} {b : Block} {s : Segment} {segments : List Segment} {part : BodyPart}
  {parts : List BodyPart} {id? : Option Ident} {instr : Instr} {p : Position}

/-! ## Blocks of drafts -/

/-- The block is what the piece says. A block without a label takes a number. -/
structure Block.IsOf (b : Block) (s : Segment) : Prop where
  labelled : ∀ t, s.label? = some t → ∃ text, t.kind = .label text ∧ b.id = .ofLabel text
  unlabelled : s.label? = none → ∃ n, b.id = .slot n
  statements : List.Forall₂ Statement.Says s.statements b.statements.toList

/-- The blocks of a draft are the pieces of the body that has been read. -/
structure Segmented (d : Draft) (parts : List BodyPart) (segments : List Segment) : Prop where
  blocks : List.Forall₂ Block.IsOf d.blocks.toList segments
  row : Segment.Row segments
  parts_eq : segments.flatMap Segment.parts = parts.filter (!·.isRemark)

/-- A block is started behind the others, without statements. -/
theorem isOf_startBlock (h : d.startBlock id? p = .ok d')
    (hblocks : List.Forall₂ Block.IsOf d.blocks.toList segments) (label? : Option Token)
    (hlabel : ∀ t, label? = some t → ∃ text, t.kind = .label text ∧ id? = some (.ofLabel text))
    (hnone : label? = none → id? = none) :
    List.Forall₂ Block.IsOf d'.blocks.toList (segments ++ [⟨label?, []⟩]) := by
  obtain ⟨id, next, hnumber, rfl⟩ := startBlock_cases h
  rw [Array.toList_push]
  refine List.rel_append hblocks (.cons ⟨fun t ht => ?_, fun ht => ?_, .nil⟩ .nil)
  · obtain ⟨text, hk, rfl⟩ := hlabel t ht
    exact ⟨text, hk, number_some hnumber⟩
  · rw [hnone ht] at hnumber
    cases hnumber
    exact ⟨d.nextSlot, rfl⟩

/-- A statement is put at the end of the last block. -/
theorem toList_blocks_appendStatement {bs : List Block} (h : d.blocks.toList = bs ++ [b])
    (st : Statement) : (d.appendStatement st).blocks.toList
      = bs ++ [{ b with statements := b.statements.push st }] := by
  have hlast : d.blocks.back? = some b := by
    rw [← Array.getLast?_toList, h, List.getLast?_concat]
  rw [appendStatement, hlast]
  simp [h]

/-- So is an instruction, with the result that it is given. -/
theorem isOf_placeInstr {w : WrittenStatement} (h : d.placeInstr w.result? w.instr p = .ok d')
    (hblocks : List.Forall₂ Block.IsOf d.blocks.toList (segments ++ [s])) :
    List.Forall₂ Block.IsOf d'.blocks.toList
      (segments ++ [{ s with statements := s.statements ++ [w] }]) := by
  obtain ⟨st, hd', htold⟩ : ∃ st, d'.blocks = (d.appendStatement st).blocks ∧ st.Says w := by
    rcases placeInstr_cases h with ⟨_, hnone, rfl⟩ | ⟨_, id, next, hnumber, rfl⟩
    · refine ⟨_, rfl, rfl, fun id hid => ?_⟩
      rw [hnone] at hid
      cases hid
    · refine ⟨_, rfl, rfl, fun id hid => ?_⟩
      rw [hid] at hnumber
      rw [number_some hnumber]
  obtain ⟨bs, b, hbs, hfront, hb⟩ := exists_concat_of_forall₂ hblocks
  rw [hd', toList_blocks_appendStatement hbs]
  refine List.rel_append hfront (.cons ⟨hb.labelled, hb.unlabelled, ?_⟩ .nil)
  rw [Array.toList_push]
  exact List.rel_append hb.statements (.cons htold .nil)

/-- A statement needs a block of its own unless there is a piece that has not ended. -/
theorem needsBlock_iff (h : List.Forall₂ Block.IsOf d.blocks.toList segments) :
    d.needsBlock = true ↔ ∀ last, segments.getLast? = some last → last.Ended := by
  -- The draft asks for its last block and for the last statement of it, as `Ended` asks of the pieces.
  rcases List.eq_nil_or_concat' segments with rfl | ⟨front, s, rfl⟩
  · have hnil : d.blocks = #[] := Array.toList_eq_nil_iff.mp (List.forall₂_nil_right_iff.mp h)
    rw [needsBlock, hnil]
    exact iff_of_true rfl (by simp)
  · obtain ⟨bs, b, hbs, _, hb⟩ := exists_concat_of_forall₂ h
    have hback : d.blocks.back? = some b := by
      rw [← Array.getLast?_toList, hbs, List.getLast?_concat]
    have hstatements := hb.statements
    rw [needsBlock, hback, List.getLast?_concat]
    simp only [Option.some.injEq, forall_eq']
    rcases List.eq_nil_or_concat' s.statements with hnil | ⟨ws, w, hw⟩
    · rw [hnil] at hstatements
      have hempty : b.statements = #[] :=
        Array.toList_eq_nil_iff.mp (List.forall₂_nil_left_iff.mp hstatements)
      rw [hempty, Segment.Ended, hnil]
      simp
    · rw [hw] at hstatements
      obtain ⟨sts, st, hsts, _, htold⟩ := exists_concat_of_forall₂ hstatements.flip
      have hlast : b.statements.back? = some st := by
        rw [← Array.getLast?_toList, hsts, List.getLast?_concat]
      rw [hlast, Segment.Ended, hw, List.getLast?_concat]
      simp [htold.instr]

/-- A label starts a piece. -/
theorem Segmented.label {t : Token} {text : String} (h : d.Segmented parts segments)
    (ht : t.kind = .label text) (hstart : d.startBlock (some (.ofLabel text)) p = .ok d') :
    d'.Segmented (parts ++ [.label t]) (segments ++ [⟨some t, []⟩]) where
  blocks := isOf_startBlock hstart h.blocks (some t) (fun _ hu => by cases hu; exact ⟨text, ht, rfl⟩)
    fun hnone => nomatch hnone
  row := h.row.concat ⟨List.forall_mem_nil _, fun hnone => nomatch hnone⟩ fun hnone => nomatch hnone
  parts_eq := by
    rw [List.flatMap_append, h.parts_eq, List.filter_append]
    rfl

/-- A statement starts a piece, or goes to the end of the last one. -/
theorem Segmented.statement {w : WrittenStatement} (h : d.Segmented parts segments)
    (hpush : d.pushInstr w.result? w.instr p = .ok d') :
    ∃ segments', d'.Segmented (parts ++ [.statement w]) segments' := by
  obtain ⟨d₁, hblock, hplace⟩ := pushInstr_cases hpush
  rcases hblock with ⟨hneeds, hstart⟩ | ⟨hneeds, rfl⟩
  · have hblocks := isOf_startBlock hstart h.blocks none (fun t ht => nomatch ht)
      fun _ => rfl
    refine ⟨_, isOf_placeInstr hplace hblocks, h.row.concat ⟨?_, ?_⟩ ?_, ?_⟩
    · exact List.forall_mem_nil _
    · exact fun _ => List.cons_ne_nil _ _
    · exact fun _ => (needsBlock_iff h.blocks).mp hneeds
    · rw [List.flatMap_append, h.parts_eq, List.filter_append]
      rfl
  · -- No new block was needed, so there is a last piece, and nothing in it ends it.
    have hopen : ¬ ∀ last, segments.getLast? = some last → last.Ended := fun hended =>
      Bool.false_ne_true (hneeds.symm.trans ((needsBlock_iff h.blocks).mpr hended))
    rcases List.eq_nil_or_concat' segments with rfl | ⟨front, s, rfl⟩
    · exact absurd (fun _ hlast => nomatch hlast) hopen
    · rw [List.getLast?_concat] at hopen
      simp only [Option.some.injEq, forall_eq'] at hopen
      obtain ⟨_, hvalid⟩ := List.forall_mem_append.mp h.row.valid
      refine ⟨_, isOf_placeInstr hplace h.blocks,
        h.row.replace ((List.forall_mem_singleton.mp hvalid).concat hopen w) rfl, ?_⟩
      rw [List.filter_append, ← h.parts_eq]
      simp [Segment.parts, BodyPart.isRemark]

/-- One part leaves the blocks cut as they should be. -/
theorem Adds.segmented (hpart : Adds d part d') (h : d.Segmented parts segments) :
    ∃ segments', d'.Segmented (parts ++ [part]) segments' := by
  cases hpart with
  | label ht hstart => exact ⟨_, h.label ht hstart⟩
  | remark _ _ =>
    refine ⟨segments, h.blocks, h.row, ?_⟩
    rw [h.parts_eq, List.filter_append]
    exact (List.append_nil _).symm
  | statement _ hpush => exact h.statement hpush

/-- **The blocks of a draft are the pieces of the body.** -/
theorem AddsAll.segmented (h : AddsAll d parts d') (hd : d.blocks = #[]) :
    ∃ segments, d'.Segmented parts segments := by
  induction h with
  | nil =>
    refine ⟨[], ?_, .nil, rfl⟩
    rw [hd]
    exact .nil
  | snoc _ hpart ih =>
    obtain ⟨segments, hsegments⟩ := ih
    exact hpart.segmented hsegments

end Draft

/-! ## Functions -/

namespace Function

/-- The operand at this place is the one that is written: a reference leads to what has its name or
number, and anything else stands for itself. -/
def Refers (f : Function) (o : Draft.Operand) (place : ValueId) : Prop :=
  ∃ v, f.values[place]? = some v ∧ v.ty = o.ty ∧
    match o with
    | .reference id _ _ => v.name = id.name ∧ v.slot? = id.slot?
    | .known value => v = value

/-- There is a terminator at this place. -/
def IsTerminator (f : Function) (id : InstrId) : Prop :=
  ∃ i, f.instrs[id]? = some i ∧ i.opcode.isTerminator = true

end Function

/-- `i` is the instruction that the statement writes. -/
structure WrittenStatement.Makes (w : WrittenStatement) (f : Function) (i : Instr) : Prop where
  valid : w.Valid
  opcode : i.opcode = w.instr.opcode
  operands : List.Forall₂ f.Refers w.instr.operands i.operands
  result : ∃ v, f.values[i.result]? = some v ∧ v.ty = w.instr.ty
    ∧ ∀ id, w.result? = some id → v.name = id.name ∧ v.slot? = id.slot?

/-- `b` is the block that the piece writes. -/
structure Segment.Makes (s : Segment) (f : Function) (b : Block) : Prop where
  /-- The block has its name or number from the label, or a number that nothing gives. -/
  label : ∃ (v : Value) (id : Ident), f.values[b.label]? = some v ∧ v.ty = .label ∧ b.name = id.name
    ∧ v.name = id.name ∧ v.slot? = id.slot?
    ∧ (∀ t, s.label? = some t → ∃ text, t.kind = .label text ∧ id = .ofLabel text)
    ∧ (s.label? = none → ∃ n, id = .slot n)
  statements : List.Forall₂ (fun w id => ∃ i, f.instrs[id]? = some i ∧ w.Makes f i)
    s.statements b.instrs

/-- The blocks of the function are the pieces. -/
structure Function.CutInto (f : Function) (segments : List Segment) : Prop where
  blocks : List.Forall₂ (·.Makes f) segments f.blocks.toList
  order : f.blocks.toList.flatMap (·.instrs) = List.range f.instrs.size
  /-- Only the last instruction of a block is a terminator. -/
  terminators : ∀ b ∈ f.blocks, ∀ id ∈ b.instrs.dropLast, ¬ f.IsTerminator id
  /-- A block without a label is not empty, and a block in front of it ends in a terminator. -/
  unlabelled : ∀ n s, segments[n]? = some s → s.label? = none → ∃ b, f.blocks[n]? = some b
    ∧ b.instrs ≠ [] ∧ ∀ k, n = k + 1 → ∃ before id, f.blocks[k]? = some before
      ∧ before.instrs.getLast? = some id ∧ f.IsTerminator id

namespace Draft

variable {f : Function}

theorem LaidOut.refers (h : LaidOut d f) {o : Operand} {place : ValueId}
    (ho : Resolves d.definitions f.values o place) : f.Refers o place := by
  cases ho with
  | reference hplace hid hty =>
    refine ⟨_, h.value_of_definition hplace, hty, ?_⟩
    rw [Definition.value, hid]
    exact ⟨rfl, rfl⟩
  | known _ hplace => exact ⟨_, hplace, rfl, rfl⟩

/-- A statement of the draft is the instruction at its place. -/
theorem LaidOut.makes (h : LaidOut d f) {n : Nat} {st : Statement} {w : WrittenStatement}
    (hst : d.statements[n]? = some st) (htold : st.Says w) (hw : w.Valid) :
    ∃ i, f.instrs[n]? = some i ∧ w.Makes f i := by
  have hn : n < f.instrs.size := by
    rw [h.size_instrs]
    exact (List.getElem?_eq_some_iff.mp hst).1
  have hi := Array.getElem?_eq_getElem hn
  obtain ⟨st', hst', hdescribes, hvalue⟩ := h.value_of_result hi
  obtain rfl : st = st' := Option.some.inj (hst.symm.trans hst')
  refine ⟨_, hi, hw, htold.instr ▸ hdescribes.opcode, ?_, _, hvalue, ?_, fun id hid => ?_⟩
  · rw [← htold.instr]
    exact hdescribes.operands.imp fun o place ho => h.refers ho
  · rw [← htold.instr]
    rfl
  · rw [Definition.value, htold.result id hid]
    exact ⟨rfl, rfl⟩

/-- The blocks that are laid out keep their names and share out the statements. -/
theorem forall₂_layBlocks {all : List Statement} {bs : List Block} {label start : Nat}
    (hbs : ∀ n st, (bs.flatMap (·.statements.toList))[n]? = some st → all[start + n]? = some st) :
    List.Forall₂ (fun b b' => IrRecords.Block.name b' = b.id.name
      ∧ List.Forall₂ (fun st id => all[id]? = some st) b.statements.toList b'.instrs)
      bs (layBlocks label start bs) := by
  induction bs generalizing label start with
  | nil => exact .nil
  | cons b bs ih =>
    rw [List.flatMap_cons] at hbs
    refine .cons ⟨rfl, forall₂_of_getElem? (by simp) fun n st id hst hid => ?_⟩
      (ih fun n st hst => ?_)
    · obtain ⟨hn, rfl⟩ := List.getElem?_eq_some_iff.mp hid
      rw [List.getElem_range', Nat.one_mul]
      refine hbs n st ?_
      rw [List.getElem?_append_left (List.getElem?_eq_some_iff.mp hst).1, hst]
    · rw [Nat.add_assoc]
      refine hbs _ st ?_
      rw [List.getElem?_append_right (by simp)]
      simpa using hst

/-- The pieces of the body write the blocks of the function. -/
theorem LaidOut.makesBlocks (h : LaidOut d f) (hblocks : List.Forall₂ Block.IsOf d.blocks.toList segments)
    (hvalid : ∀ s ∈ segments, ∀ w ∈ s.statements, w.Valid) :
    List.Forall₂ (·.Makes f) segments f.blocks.toList := by
  have hrows : List.Forall₂ (fun b b' => IrRecords.Block.name b' = b.id.name
      ∧ List.Forall₂ (fun st id => d.statements[id]? = some st) b.statements.toList b'.instrs)
      d.blocks.toList f.blocks.toList := by
    rw [h.blocks]
    exact forall₂_layBlocks fun n st hst => by rwa [Nat.zero_add]
  refine forall₂_of_getElem? (hblocks.length_eq.symm.trans hrows.length_eq) fun n s b' hs hb' => ?_
  obtain ⟨b, hb, hof⟩ := exists_getElem?_of_forall₂ hblocks hs
  obtain ⟨b₁, hb₁, hname, hstatements⟩ := exists_getElem?_of_forall₂ hrows hb'
  obtain rfl : b = b₁ := Option.some.inj (hb.symm.trans hb₁)
  rw [Array.getElem?_toList] at hb hb'
  refine ⟨⟨Definition.value ⟨some b.id, .label, .block n, b.position⟩, b.id, ?_, rfl, hname, rfl, rfl,
    hof.labelled, hof.unlabelled⟩, ?_⟩
  · rw [h.label_eq hb']
    exact h.value_of_definition (definitions_getElem?_label hb)
  · refine forall₂_of_forall₂ hof.statements hstatements fun w hw st id htold hst => ?_
    exact h.makes hst htold (hvalid s (List.mem_of_getElem? hs) w hw)

end Draft

/-- A statement is a terminator if what it writes is one. -/
theorem WrittenStatement.Makes.isTerminator_iff {w : WrittenStatement} {f : Function} {i : Instr}
    {id : InstrId} (hi : f.instrs[id]? = some i) (h : w.Makes f i) :
    f.IsTerminator id ↔ w.instr.opcode.isTerminator = true := by
  rw [Function.IsTerminator, hi, ← h.opcode]
  simp

/-- In a block that a piece writes only the last instruction is a terminator. -/
theorem Segment.Makes.not_isTerminator {s : Segment} {f : Function} {b : Block} (h : s.Makes f b)
    (hs : s.Valid) {id : InstrId} (hid : id ∈ b.instrs.dropLast) : ¬ f.IsTerminator id := by
  have hfront : List.Forall₂ (fun w id => ∃ i, f.instrs[id]? = some i ∧ w.Makes f i)
      s.statements.dropLast b.instrs.dropLast := by
    rw [List.dropLast_eq_take, List.dropLast_eq_take, h.statements.length_eq]
    exact List.forall₂_take _ h.statements
  obtain ⟨w, hw, i, hi, hmakes⟩ := exists_left_of_forall₂ hfront hid
  rw [hmakes.isTerminator_iff hi, hs.terminators w hw]
  exact Bool.false_ne_true

/-- The block of a piece that has ended ends in a terminator. -/
theorem Segment.Makes.exists_terminator {s : Segment} {f : Function} {b : Block} (h : s.Makes f b)
    (hs : s.Ended) : ∃ id, b.instrs.getLast? = some id ∧ f.IsTerminator id := by
  obtain ⟨w, hlast, hw⟩ := hs
  obtain ⟨ws, hws⟩ := List.getLast?_eq_some_iff.mp hlast
  have hstatements := h.statements
  rw [hws] at hstatements
  obtain ⟨ids, id, hids, _, i, hi, hmakes⟩ := exists_concat_of_forall₂ hstatements.flip
  exact ⟨id, by rw [hids, List.getLast?_concat], (hmakes.isTerminator_iff hi).mpr hw⟩

/-- What the pieces are to each other, the blocks are. -/
theorem Function.cutInto_of_makes {f : Function} {segments : List Segment}
    (hblocks : List.Forall₂ (·.Makes f) segments f.blocks.toList) (hrow : Segment.Row segments)
    (horder : f.blocks.toList.flatMap (·.instrs) = List.range f.instrs.size) :
    f.CutInto segments := by
  have hblock : ∀ {n : Nat} {s : Segment}, segments[n]? = some s → ∃ b, f.blocks[n]? = some b ∧ s.Makes f b := by
    intro n s hs
    obtain ⟨b, hb, hmakes⟩ := exists_getElem?_of_forall₂ hblocks.flip hs
    exact ⟨b, by rwa [Array.getElem?_toList] at hb, hmakes⟩
  refine ⟨hblocks, horder, fun b hb id hid => ?_, fun n s hs hnone => ?_⟩
  · obtain ⟨s, hs, hmakes⟩ := exists_left_of_forall₂ hblocks (Array.mem_toList_iff.mpr hb)
    exact hmakes.not_isTerminator (hrow.valid s hs) hid
  · obtain ⟨b, hb, hmakes⟩ := hblock hs
    refine ⟨b, hb, fun hnil => ?_, ?_⟩
    · have hstatements := hmakes.statements
      rw [hnil] at hstatements
      exact (hrow.valid s (List.mem_of_getElem? hs)).nonempty hnone
        (List.forall₂_nil_right_iff.mp hstatements)
    · rintro k rfl
      obtain ⟨hk, hget⟩ := List.getElem?_eq_some_iff.mp hs
      have hended := hrow.chain.getElem k hk
      rw [hget] at hended
      obtain ⟨b', hb', hmakes'⟩ := hblock (List.getElem?_eq_getElem (Nat.lt_of_succ_lt hk))
      obtain ⟨id, hlast, hterminator⟩ := hmakes'.exists_terminator (hended hnone)
      exact ⟨b', id, hb', hlast, hterminator⟩

namespace Module

/-- The pieces of the body of a definition are the blocks of its function. -/
theorem Definition.Valid.cutInto {D : Definition} (h : D.Valid) :
    ∃ segments, D.function.CutInto segments
      ∧ segments.flatMap Segment.parts = D.parts.filter (!·.isRemark) := by
  obtain ⟨header, d, d', _, hheader, hadds, hfinish⟩ := h.body
  obtain ⟨segments, hsegments⟩ := hadds.segmented (Draft.blocks_ofHeader hheader)
  have hlaid := Draft.finish_spec hfinish
  have hvalid : ∀ s ∈ segments, ∀ w ∈ s.statements, w.Valid := by
    intro s hs w hw
    have hmem : BodyPart.statement w ∈ segments.flatMap Segment.parts :=
      List.mem_flatMap.mpr ⟨s, hs, List.mem_append_right _ (List.mem_map_of_mem hw)⟩
    rw [hsegments.parts_eq] at hmem
    exact hadds.valid_of_mem (List.mem_filter.mp hmem).1
  refine ⟨segments, Function.cutInto_of_makes (hlaid.makesBlocks hsegments.blocks hvalid)
    hsegments.row ?_, hsegments.parts_eq⟩
  rw [hlaid.blocks, Draft.layBlocks_instrs, ← List.range_eq_range', hlaid.size_instrs]
  rfl

/-- A declaration has no blocks. -/
theorem Declaration.Valid.blocks_eq {D : Declaration} (h : D.Valid) : D.function.blocks = #[] := by
  obtain ⟨header, d, _, hheader, hfinish⟩ := h.function
  have hblocks := (Draft.finish_spec hfinish).blocks
  rw [Draft.blocks_ofHeader hheader] at hblocks
  exact Array.toList_eq_nil_iff.mp hblocks

/-- **Bodies are cut into blocks at labels and behind terminators.** Without the parts that are passed
over, the body of a definition is a row of pieces, and these are the blocks of its function. -/
theorem segmented_of_read {source : String} {m : Module} (h : (Module.read source).result = .ok m) :
    (∃ parts, FallsInto source m parts) ∧ ∀ parts, FallsInto source m parts →
      (∀ D, .definition D ∈ parts → ∃ segments, D.function.CutInto segments
        ∧ segments.flatMap Segment.parts = D.parts.filter (!·.isRemark))
      ∧ ∀ D, .declaration D ∈ parts → D.function.blocks = #[] := by
  refine ⟨exists_parts_of_read h, fun parts hparts => ⟨fun D hD => ?_, fun D hD => ?_⟩⟩
  · cases hparts.valid _ hD with
    | definition hvalid => exact hvalid.cutInto
  · cases hparts.valid _ hD with
    | declaration hvalid => exact hvalid.blocks_eq

/-- An empty block with a label, a label behind a terminator, and a terminator without a label behind
another one. -/
def scatteredSource : String :=
  "declare void @g()
define void @f() \x7b
  call void @g()
  br label %a
a:
b:
  unreachable
  unreachable
c:
  ret void
\x7d
"

/-- The blocks of `scatteredSource`. -/
theorem segmented_of_read_scattered : ∃ m parts, (Module.read scatteredSource).result = .ok m
    ∧ FallsInto scatteredSource m parts
    ∧ (∀ D, .definition D ∈ parts → ∃ segments, D.function.CutInto segments
      ∧ segments.flatMap Segment.parts = D.parts.filter (!·.isRemark))
    ∧ m.functions.map (fun f => f.blocks.toList.map fun b => (b.name, b.instrs))
      = [[], [("", [0, 1]), ("a", []), ("b", [2]), ("", [3]), ("c", [4])]] := by
  have hread : ((Module.read scatteredSource).result.toOption.map fun m =>
      m.functions.map fun f => f.blocks.toList.map fun b => (b.name, b.instrs))
      = some [[], [("", [0, 1]), ("a", []), ("b", [2]), ("", [3]), ("c", [4])]] := by decide +kernel
  obtain ⟨m, hm, hread⟩ := exists_ok_of_toOption hread
  obtain ⟨⟨parts, hparts⟩, hcut⟩ := segmented_of_read hm
  exact ⟨m, parts, hm, hparts, (hcut parts hparts).1, hread⟩

end Module

end IrRecords
