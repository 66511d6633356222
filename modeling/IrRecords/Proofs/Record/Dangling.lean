import IrRecords.Record.Encode
import Mathlib.Data.List.Forall2

/-!
# Places that do not exist

A function that is put together by hand may hold places that do not exist. It has a record exactly if none
of those that encoding follows is such a place (`record?_isSome_iff`): the arguments, the instructions of the
blocks, and of each of these the result, the operands, and the blocks that operands of a phi flow in from.
Nothing else counts. Functions that differ in the labels of their blocks, in instructions that no block has,
or in edges behind the last operand have the same record or both none (`record?_eq_of_sameFollowed`).
-/

namespace IrRecords

/-! ## Walks along places -/

section

variable {α β γ : Type}

theorem isSome_bind_iff {x : Option α} {g : α → Option β} :
    (x >>= g).isSome ↔ ∃ a, x = some a ∧ (g a).isSome := by
  cases x with
  | none => exact iff_of_false Bool.false_ne_true fun ⟨_, h, _⟩ => nomatch h
  | some a => exact ⟨fun h => ⟨a, rfl, h⟩, fun ⟨_, h, hg⟩ => Option.some.inj h ▸ hg⟩

theorem isSome_mapM_iff {g : α → Option β} {xs : List α} :
    (xs.mapM g).isSome ↔ ∀ x ∈ xs, (g x).isSome := by
  induction xs with
  | nil => exact iff_of_true rfl (List.forall_mem_nil _)
  | cons x xs ih =>
    rw [List.mapM_cons, isSome_bind_iff, List.forall_mem_cons, ← ih]
    constructor
    · rintro ⟨y, hy, h⟩
      obtain ⟨ys, hys, _⟩ := isSome_bind_iff.mp h
      exact ⟨hy ▸ rfl, hys ▸ rfl⟩
    · rintro ⟨hx, hxs⟩
      obtain ⟨y, hy⟩ := Option.isSome_iff_exists.mp hx
      obtain ⟨ys, hys⟩ := Option.isSome_iff_exists.mp hxs
      exact ⟨y, hy, isSome_bind_iff.mpr ⟨ys, hys, rfl⟩⟩

theorem mapM_eq_of_forall₂ {g : α → Option β} {g' : γ → Option β} {xs : List α} {ys : List γ}
    (h : List.Forall₂ (fun x y => g' y = g x) xs ys) : ys.mapM g' = xs.mapM g := by
  induction h with
  | nil => rfl
  | cons hxy _ ih => rw [List.mapM_cons, List.mapM_cons, hxy, ih]

theorem isSome_getElem?_iff {xs : Array α} {n : Nat} : (xs[n]?).isSome ↔ n < xs.size := by
  rw [Option.isSome_iff_exists]
  exact ⟨fun ⟨x, hx⟩ => (Array.getElem?_eq_some_iff.mp hx).1, fun h => ⟨_, Array.getElem?_eq_getElem h⟩⟩

end

namespace Function

variable {f g : Function} {i j : Instr} {ids : List ValueId} {n index : Nat}

/-! ## What encoding follows -/

/-- The places that are followed from an instruction exist. -/
structure HasPlaces (f : Function) (i : Instr) : Prop where
  result : i.result < f.values.size
  operands : ∀ id ∈ i.operands, id < f.values.size
  /-- A phi may have more edges than operands, and fewer. -/
  incoming : ∀ blocks, i.detail = .phi blocks → ∀ n < i.operands.length, ∀ b, blocks[n]? = some b →
    b < f.blocks.size

/-- No place that is followed from the function is one that does not exist. -/
structure NoneDangling (f : Function) : Prop where
  args : ∀ id ∈ f.args, id < f.values.size
  instrs : ∀ b ∈ f.blocks, ∀ id ∈ b.instrs, ∃ i, f.instrs[id]? = some i ∧ f.HasPlaces i

theorem prevBlock?_isSome_iff :
    (f.prevBlock? i n).isSome ↔ ∀ b, i.incoming? n = some b → b < f.blocks.size := by
  rw [prevBlock?]
  cases i.incoming? n with
  | none => exact iff_of_true rfl fun b h => nomatch h
  | some b =>
    dsimp only
    rw [Option.isSome_map, isSome_getElem?_iff]
    exact ⟨fun h b' hb' => Option.some.inj hb' ▸ h, fun h => h b rfl⟩

theorem operandRecord?_isSome_iff {id : ValueId} : (f.operandRecord? i n id).isSome ↔
    id < f.values.size ∧ ∀ b, i.incoming? n = some b → b < f.blocks.size := by
  rw [← prevBlock?_isSome_iff, ← isSome_getElem?_iff, operandRecord?, isSome_bind_iff,
    Option.isSome_iff_exists]
  constructor
  · rintro ⟨v, hv, h⟩
    obtain ⟨prev, hprev, _⟩ := isSome_bind_iff.mp h
    exact ⟨⟨v, hv⟩, hprev ▸ rfl⟩
  · rintro ⟨⟨v, hv⟩, hprev⟩
    obtain ⟨prev, hprev⟩ := Option.isSome_iff_exists.mp hprev
    exact ⟨v, hv, isSome_bind_iff.mpr ⟨prev, hprev, rfl⟩⟩

/-- Operands have records if their values exist, and the blocks that they flow in from. -/
theorem operandRecords?_isSome_iff : (f.operandRecords? i index ids).isSome ↔
    (∀ id ∈ ids, id < f.values.size)
      ∧ ∀ n < ids.length, ∀ b, i.incoming? (index + n) = some b → b < f.blocks.size := by
  induction ids generalizing index with
  | nil =>
    exact iff_of_true rfl ⟨List.forall_mem_nil _, fun n hn => absurd hn (Nat.not_lt_zero n)⟩
  | cons id ids ih =>
    have hrest : (f.operandRecords? i index (id :: ids)).isSome ↔
        (f.operandRecord? i index id).isSome ∧ (f.operandRecords? i (index + 1) ids).isSome := by
      rw [operandRecords?, isSome_bind_iff, Option.isSome_iff_exists]
      constructor
      · rintro ⟨o, ho, h⟩
        obtain ⟨os, hos, _⟩ := isSome_bind_iff.mp h
        exact ⟨⟨o, ho⟩, hos ▸ rfl⟩
      · rintro ⟨⟨o, ho⟩, hos⟩
        obtain ⟨os, hos⟩ := Option.isSome_iff_exists.mp hos
        exact ⟨o, ho, isSome_bind_iff.mpr ⟨os, hos, rfl⟩⟩
    rw [hrest, operandRecord?_isSome_iff, ih, List.forall_mem_cons, List.length_cons]
    constructor
    · rintro ⟨⟨hid, hfirst⟩, hids, hlater⟩
      refine ⟨⟨hid, hids⟩, fun n hn b hb => ?_⟩
      -- The operand at `n + 1` of the row is the one at `n` of the rest, whose first place is one further on.
      cases n with
      | zero => exact hfirst b hb
      | succ n =>
        refine hlater n (Nat.lt_of_succ_lt_succ hn) b ?_
        rwa [Nat.add_assoc, Nat.add_comm 1]
    · rintro ⟨⟨hid, hids⟩, hall⟩
      refine ⟨⟨hid, hall 0 (Nat.succ_pos _)⟩, hids, fun n hn b hb => ?_⟩
      refine hall (n + 1) (Nat.succ_lt_succ hn) b ?_
      rwa [Nat.add_comm n, ← Nat.add_assoc]

/-- The size of an allocation is one of the operands. -/
theorem allocaSize?_isSome (h : ∀ id ∈ i.operands, id < f.values.size) : (f.allocaSize? i).isSome := by
  rw [allocaSize?]
  cases hcount : i.count? with
  | none => rfl
  | some id =>
    dsimp only
    rw [Option.isSome_map, isSome_getElem?_iff]
    refine h id ?_
    rw [Instr.count?] at hcount
    split at hcount
    · exact List.mem_of_head? hcount
    · cases hcount

theorem instrRecord?_isSome_iff : (f.instrRecord? i).isSome ↔ f.HasPlaces i := by
  rw [instrRecord?, isSome_bind_iff]
  constructor
  · rintro ⟨result, hresult, h⟩
    obtain ⟨size, _, h⟩ := isSome_bind_iff.mp h
    obtain ⟨operands, hoperands, _⟩ := isSome_bind_iff.mp h
    have hsome : (f.operandRecords? i 0 i.operands).isSome := by rw [hoperands]; rfl
    obtain ⟨hids, hblocks⟩ := operandRecords?_isSome_iff.mp hsome
    refine ⟨isSome_getElem?_iff.mp (hresult ▸ rfl), hids, fun blocks hdetail n hn b hb => ?_⟩
    refine hblocks n hn b ?_
    rw [Nat.zero_add, Instr.incoming?, hdetail]
    exact hb
  · rintro ⟨hresult, hids, hincoming⟩
    obtain ⟨result, hresult⟩ := Option.isSome_iff_exists.mp (isSome_getElem?_iff.mpr hresult)
    obtain ⟨size, hsize⟩ := Option.isSome_iff_exists.mp (allocaSize?_isSome hids)
    have hoperands : (f.operandRecords? i 0 i.operands).isSome := by
      refine operandRecords?_isSome_iff.mpr ⟨hids, fun n hn b hb => ?_⟩
      rw [Nat.zero_add, Instr.incoming?] at hb
      split at hb
      · next blocks hdetail => exact hincoming blocks hdetail n hn b hb
      · cases hb
    obtain ⟨operands, hoperands⟩ := Option.isSome_iff_exists.mp hoperands
    exact ⟨result, hresult, isSome_bind_iff.mpr ⟨size, hsize,
      isSome_bind_iff.mpr ⟨operands, hoperands, rfl⟩⟩⟩

theorem blockRecord?_isSome_iff {b : Block} :
    (f.blockRecord? b).isSome ↔ ∀ id ∈ b.instrs, ∃ i, f.instrs[id]? = some i ∧ f.HasPlaces i := by
  rw [blockRecord?, isSome_bind_iff]
  have hrow : (∃ instrs, b.instrs.mapM (fun id => f.instrs[id]? >>= f.instrRecord?) = some instrs
      ∧ (some (⟨instrs, b.name⟩ : Record.Block)).isSome)
      ↔ (b.instrs.mapM fun id => f.instrs[id]? >>= f.instrRecord?).isSome := by
    rw [Option.isSome_iff_exists]
    exact exists_congr fun instrs => and_iff_left rfl
  refine hrow.trans (isSome_mapM_iff.trans (forall₂_congr fun id _ => ?_))
  rw [isSome_bind_iff]
  exact exists_congr fun i => and_congr_right fun _ => instrRecord?_isSome_iff

/-- **A function has a record exactly if no place that is followed dangles.** -/
theorem record?_isSome_iff : f.record?.isSome ↔ f.NoneDangling := by
  have hargs : f.arguments?.isSome ↔ ∀ id ∈ f.args, id < f.values.size :=
    isSome_mapM_iff.trans (forall₂_congr fun id _ => isSome_getElem?_iff)
  have hblocks : (f.blocks.toList.mapM f.blockRecord?).isSome ↔
      ∀ b ∈ f.blocks, ∀ id ∈ b.instrs, ∃ i, f.instrs[id]? = some i ∧ f.HasPlaces i := by
    rw [isSome_mapM_iff]
    exact forall_congr' fun b => imp_congr Array.mem_toList_iff blockRecord?_isSome_iff
  rw [record?, isSome_bind_iff]
  constructor
  · rintro ⟨args, ha, h⟩
    obtain ⟨blocks, hb, _⟩ := isSome_bind_iff.mp h
    exact ⟨hargs.mp (ha ▸ rfl), hblocks.mp (hb ▸ rfl)⟩
  · rintro ⟨ha, hb⟩
    obtain ⟨args, ha⟩ := Option.isSome_iff_exists.mp (hargs.mpr ha)
    obtain ⟨blocks, hb⟩ := Option.isSome_iff_exists.mp (hblocks.mpr hb)
    exact ⟨args, ha, isSome_bind_iff.mpr ⟨blocks, hb, rfl⟩⟩

/-! ## What it does not follow -/

/-- The details are the same, as far as there are operands. -/
inductive FollowedDetail (n : Nat) : Detail → Detail → Prop
  | refl (detail : Detail) : FollowedDetail n detail detail
  | phi {blocks blocks' : List BlockId} (h : blocks'.take n = blocks.take n) :
      FollowedDetail n (.phi blocks) (.phi blocks')

/-- The instructions are the same, except for edges behind the last operand. -/
structure FollowedInstr (i j : Instr) : Prop where
  result : j.result = i.result
  opcode : j.opcode = i.opcode
  operands : j.operands = i.operands
  detail : FollowedDetail i.operands.length i.detail j.detail

/-- The functions are the same, except for the labels of blocks, instructions that no block has, edges behind
the last operand, and whether more arguments may follow. -/
structure SameFollowed (f g : Function) : Prop where
  name : g.name = f.name
  ret : g.ret = f.ret
  args : g.args = f.args
  values : g.values = f.values
  blocks : List.Forall₂ (fun b c => Block.name c = Block.name b ∧ Block.instrs c = Block.instrs b)
    f.blocks.toList g.blocks.toList
  instrs : ∀ b ∈ f.blocks, ∀ id ∈ b.instrs, Option.Rel FollowedInstr f.instrs[id]? g.instrs[id]?

theorem FollowedInstr.incoming?_eq (h : FollowedInstr i j) (hn : n < i.operands.length) :
    j.incoming? n = i.incoming? n := by
  have hdetail := h.detail
  rw [Instr.incoming?, Instr.incoming?]
  generalize i.detail = detail at hdetail
  generalize j.detail = detail' at hdetail
  cases hdetail with
  | refl => rfl
  | phi hblocks =>
    dsimp only
    rw [← List.getElem?_take_of_lt hn, hblocks, List.getElem?_take_of_lt hn]

theorem SameFollowed.prevBlock?_eq (h : SameFollowed f g) (hij : FollowedInstr i j)
    (hn : n < i.operands.length) : g.prevBlock? j n = f.prevBlock? i n := by
  have hnames : ∀ b : BlockId, (g.blocks[b]?).map Block.name = (f.blocks[b]?).map Block.name := by
    intro b
    have hrow : g.blocks.toList.map Block.name = f.blocks.toList.map Block.name :=
      (List.forall₂_eq_eq_eq ▸ List.forall₂_map_left_iff.mpr (List.forall₂_map_right_iff.mpr
        (h.blocks.flip.imp fun _ _ hb => hb.1)))
    rw [← Array.getElem?_toList, ← Array.getElem?_toList, ← List.getElem?_map, hrow, List.getElem?_map]
  rw [prevBlock?, prevBlock?, hij.incoming?_eq hn]
  cases i.incoming? n with
  | none => rfl
  | some b =>
    have hb := congrArg (Option.map some) (hnames b)
    rwa [Option.map_map, Option.map_map] at hb

theorem SameFollowed.operandRecords?_eq (h : SameFollowed f g) (hij : FollowedInstr i j)
    (hle : index + ids.length ≤ i.operands.length) :
    g.operandRecords? j index ids = f.operandRecords? i index ids := by
  induction ids generalizing index with
  | nil => rfl
  | cons id ids ih =>
    rw [List.length_cons] at hle
    have hrest := @ih (index + 1) (by omega)
    have hprev := h.prevBlock?_eq hij (n := index) (by omega)
    rw [operandRecords?, operandRecords?, operandRecord?, operandRecord?, h.values, hprev, hrest]

theorem SameFollowed.instrRecord?_eq (h : SameFollowed f g) (hij : FollowedInstr i j) :
    g.instrRecord? j = f.instrRecord? i := by
  have hcount : j.count? = i.count? := by
    have hdetail := hij.detail
    rw [Instr.count?, Instr.count?, hij.operands]
    generalize i.detail = detail at hdetail
    generalize j.detail = detail' at hdetail
    cases hdetail <;> rfl
  have hsize : g.allocaSize? j = f.allocaSize? i := by
    rw [allocaSize?, allocaSize?, hcount, h.values]
  have hoperands : g.operandRecords? j 0 i.operands = f.operandRecords? i 0 i.operands :=
    h.operandRecords?_eq hij (Nat.le_of_eq (Nat.zero_add _))
  have hdetail := hij.detail
  rw [instrRecord?, instrRecord?, hsize, hij.result, hij.opcode, hij.operands, hoperands, h.values]
  generalize i.detail = detail at hdetail
  generalize j.detail = detail' at hdetail
  cases hdetail <;> rfl

/-- **What is not followed does not matter.** -/
theorem record?_eq_of_sameFollowed (h : SameFollowed f g) : g.record? = f.record? := by
  have hargs : g.arguments? = f.arguments? := by rw [arguments?, arguments?, h.args, h.values]
  have hblocks : g.blocks.toList.mapM g.blockRecord? = f.blocks.toList.mapM f.blockRecord? := by
    have hmem : ∀ b ∈ f.blocks.toList, ∀ id ∈ b.instrs,
        Option.Rel FollowedInstr f.instrs[id]? g.instrs[id]? :=
      fun b hb => h.instrs b (Array.mem_toList_iff.mp hb)
    refine mapM_eq_of_forall₂ (((List.forall₂_and_left _ _).mpr ⟨hmem, h.blocks⟩).imp ?_)
    rintro b c ⟨hinstrs, hname, hids⟩
    rw [blockRecord?, blockRecord?, hname, hids]
    refine congrArg (· >>= _) (mapM_eq_of_forall₂ (List.forall₂_same.mpr fun id hid => ?_))
    have hrel := hinstrs id hid
    generalize f.instrs[id]? = i? at hrel
    generalize g.instrs[id]? = j? at hrel
    cases hrel with
    | none => rfl
    | some hij => exact h.instrRecord?_eq hij
  rw [record?, record?, hargs, hblocks, h.name, h.ret]

/-- **A function that is put together by hand has a record exactly if none of the places that are followed
dangles**, and its record depends on nothing else. -/
theorem recorded_of_reachable (f : Function) : (f.record?.isSome ↔ f.NoneDangling)
    ∧ ∀ g, SameFollowed f g → g.record? = f.record? :=
  ⟨record?_isSome_iff, fun _ h => record?_eq_of_sameFollowed h⟩

/-- A block with a phi of one operand. -/
def selfLoop (label : ValueId) (edges : List BlockId) (unlisted : Array Instr) : Function where
  name := "spin"
  ret := .void
  vararg := false
  args := [0]
  blocks := #[⟨"entry", label, [0]⟩]
  values := #[⟨"n", none, .int 32, .argument 0⟩, ⟨"m", none, .int 32, .instruction 0⟩]
  instrs := #[⟨1, .phi, [0], .phi edges⟩] ++ unlisted

/-- A label, a second edge and an instruction of no block lead nowhere, and it does not matter. -/
theorem recorded_of_reachable_selfLoop :
    SameFollowed (selfLoop 0 [0] #[]) (selfLoop 7 [0, 9] #[⟨8, .ret, [8], .plain⟩])
      ∧ (selfLoop 7 [0, 9] #[⟨8, .ret, [8], .plain⟩]).record? = (selfLoop 0 [0] #[]).record? := by
  have hsame : SameFollowed (selfLoop 0 [0] #[]) (selfLoop 7 [0, 9] #[⟨8, .ret, [8], .plain⟩]) := by
    refine ⟨rfl, rfl, rfl, rfl, .cons ⟨rfl, rfl⟩ .nil, ?_⟩
    rintro b hb id hid
    obtain rfl := Array.mem_singleton.mp hb
    obtain rfl := List.mem_singleton.mp hid
    exact .some ⟨rfl, rfl, rfl, .phi rfl⟩
  exact ⟨hsame, (recorded_of_reachable (selfLoop 0 [0] #[])).2 _ hsame⟩

end Function

end IrRecords
