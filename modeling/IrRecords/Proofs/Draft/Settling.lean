import IrRecords.Proofs.Listing.Forms
import IrRecords.Proofs.Ty.Settling

/-!
# How the readers of instructions end

Instructions are read without going into themselves, so their readers settle by the rules alone, line
by line. An operand keeps the position that it was read at, and so does the label of an incoming block;
these are positions of tokens, and the answer of a reader says so (`Instr.Marked`).
-/

namespace IrRecords.Draft

open Reader

/-! ## Positions in drafts -/

/-- A reference stands at a marked position. -/
def Operand.Marked (M : Position → Prop) : Operand → Prop
  | reference _ _ position => M position
  | known _ => True

/-- The labels of incoming blocks stand at marked positions. -/
def Detail.Marked (M : Position → Prop) : Detail → Prop
  | phi incoming => ∀ label ∈ incoming, M label.2
  | _ => True

/-- All positions that an instruction keeps are marked. -/
structure Instr.Marked (M : Position → Prop) (i : Instr) : Prop where
  operands : ∀ o ∈ i.operands, o.Marked M
  detail : i.detail.Marked M

variable {S : Scene} {n : Nat}

theorem Instr.Marked.plain {M : Position → Prop} {opcode : Opcode} {ty : Ty}
    {operands : List Operand} (h : ∀ o ∈ operands, o.Marked M) :
    (Instr.plain opcode ty operands).Marked M :=
  ⟨h, trivial⟩

theorem Operand.Marked.withTy {M : Position → Prop} {o : Operand} (h : o.Marked M) (ty : Ty) :
    (o.withTy ty).Marked M := by
  cases o with
  | reference id ty' position => exact h
  | known value => trivial

/-- The reader of an instruction goes forward, and the positions in its answer are marked. -/
abbrev GoesToInstr (S : Scene) (r : Reader Instr) : Prop := Goes S r (Instr.Marked S.Marked)

/-! ## Operands -/

theorem goes_passString (what : String) : Goes S (passString what) fun _ => True := by
  rw [passString]
  refine goes_kind.skip fun k => ?_
  split
  · exact goes_advance
  · exact .unexpected

theorem goes_passGlobal : Goes S passGlobal fun _ => True := by
  rw [passGlobal]
  refine goes_kind.skip fun k => ?_
  split
  · exact goes_advance
  · exact .unexpected

theorem goes_passWordConstant (w : String) : Goes S (passWordConstant w) fun _ => True := by
  rw [passWordConstant]
  split
  · exact goes_advance
  · split
    · refine goes_advance.skip fun _ => (goes_skipWords _).skip fun _ => ?_
      refine (goes_passString _).skip fun _ => goes_expectComma.skip fun _ => ?_
      exact goes_passString _
    · split
      · exact goes_advance.skip fun _ => goes_passGlobal
      · refine (goes_skipWhile _).skip fun _ => (goes_isAt _).skip fun group => ?_
        cases group with
        | true => exact goes_skipGroup
        | false => exact .unexpected

theorem goes_passConstant : Goes S passConstant fun _ => True := by
  rw [passConstant]
  refine goes_kind.skip fun k => ?_
  split
  · exact goes_advance
  · exact goes_advance
  · exact goes_advance
  · exact goes_skipGroup
  · exact goes_skipGroup
  · exact goes_skipGroup
  · exact goes_passWordConstant _
  · exact .unexpected

theorem goes_passMetadata : Goes S passMetadata fun _ => True := by
  rw [passMetadata]
  refine goes_kind.skip fun k => ?_
  split
  · refine goes_advance.skip fun _ => (goes_isAt _).skip fun group => ?_
    cases group with
    | true => exact goes_skipGroup
    | false => exact .pure trivial
  · refine goes_advance.skip fun _ => goes_kind.skip fun k => ?_
    split
    · exact goes_skipGroup
    · exact goes_advance
    · exact .unexpected
  · refine Ty.goes_read.skip fun _ => goes_kind.skip fun k => ?_
    split
    · exact goes_advance
    · exact goes_advance
    · exact goes_passConstant

theorem goes_readOperand (ty : Ty) : Goes S (readOperand ty) (Operand.Marked S.Marked) := by
  rw [readOperand]
  split
  · exact (goes_passedText goes_passMetadata).skip fun _ => .pure trivial
  · refine goes_position.bind fun position hposition => goes_kind.skip fun k => ?_
    split
    · exact goes_advance.skip fun _ => .pure hposition
    · exact goes_advance.skip fun _ => .pure trivial
    · exact (goes_passedText goes_passConstant).skip fun _ => .pure trivial

theorem goes_readTypedOperand : Goes S readTypedOperand fun p => p.2.Marked S.Marked := by
  rw [readTypedOperand]
  exact Ty.goes_read.skip fun ty => (goes_readOperand ty).bind fun _ ho => .pure ho

/-! ## Instructions that direct control -/

theorem goes_readRet : GoesToInstr S readRet := by
  rw [readRet]
  refine (goes_acceptWord _).skip fun void => ?_
  cases void with
  | true => exact .pure (.plain (by simp))
  | false => exact goes_readTypedOperand.bind fun p h => .pure (.plain (by simpa using h))

theorem goes_readBr : GoesToInstr S readBr := by
  rw [readBr]
  refine goes_readTypedOperand.bind fun typed hfirst => ?_
  obtain ⟨ty, first⟩ := typed
  dsimp only at hfirst ⊢
  split
  · exact .pure (.plain (by simpa using hfirst))
  · refine goes_expectComma.skip fun _ => goes_readTypedOperand.bind fun onTrue htrue => ?_
    refine goes_expectComma.skip fun _ => goes_readTypedOperand.bind fun onFalse hfalse => ?_
    exact .pure (.plain (by simp [hfirst, htrue, hfalse]))

/-- A case of a switch has a comma in it. -/
theorem settles_caseStep {cases : Array Operand} (h : ∀ o ∈ cases, o.Marked S.Marked) :
    Settles S n (Listing.caseStep cases) (RoundWithin n (fun s => ∀ o ∈ s, o.Marked S.Marked)
      fun s => ∀ o ∈ s, o.Marked S.Marked) := by
  rw [Listing.caseStep]
  refine (goes_accept _ n).bind fun closed m hm => ?_
  cases closed with
  | true => exact .pure ⟨hm.1, h⟩
  | false =>
    refine (goes_readTypedOperand m).bind fun value m₁ h₁ => ?_
    refine (settles_expect (by simp) _).bind fun _ m₂ h₂ => ?_
    refine (goes_readTypedOperand m₂).bind fun target m₃ h₃ => .pure ⟨?_, ?_⟩
    · have := hm.1
      have := h₁.1
      have := h₃.1
      omega
    · exact Array.forall_mem_push.mpr ⟨h₃.2, Array.forall_mem_push.mpr ⟨h₁.2, h⟩⟩

theorem goes_readSwitch : GoesToInstr S readSwitch := by
  rw [readSwitch]
  refine goes_readTypedOperand.bind fun condition hcondition => goes_expectComma.skip fun _ => ?_
  refine goes_readTypedOperand.bind fun otherwise hotherwise => (goes_expect _ _).skip fun _ => ?_
  refine Goes.bind (.iterate (fun _ _ h => settles_caseStep h) (by simp)) fun cases hcases => ?_
  exact .pure (.plain (by simpa [hcondition, hotherwise] using hcases))

theorem goes_readIndirectbr : GoesToInstr S readIndirectbr := by
  rw [readIndirectbr]
  refine goes_readTypedOperand.bind fun address haddress => goes_expectComma.skip fun _ => ?_
  refine (goes_expect _ _).skip fun _ => (goes_accept _).skip fun closed => ?_
  cases closed with
  | true => exact .pure (.plain (by simpa using haddress))
  | false =>
    refine (goes_commaSeparated goes_readTypedOperand).bind fun targets htargets => ?_
    refine (goes_expect _ _).skip fun _ => .pure (.plain ?_)
    exact List.forall_mem_cons.mpr ⟨haddress, List.forall_mem_map.mpr htargets⟩

/-- The operand and the label of an edge stand at marked positions. -/
def EdgeMarked (M : Position → Prop) (edge : Operand × Ident × Position) : Prop :=
  edge.1.Marked M ∧ M edge.2.2

theorem settles_readEdge (ty : Ty) :
    Settles S n (readEdge ty) fun edge m => m < n ∧ EdgeMarked S.Marked edge := by
  rw [readEdge]
  refine (settles_expect (by simp) _).bind fun _ m hm => ?_
  have hmono : ∀ {r : Reader (Operand × Ident × Position)}, Goes S r (EdgeMarked S.Marked) →
      Settles S m r fun edge k => k < n ∧ EdgeMarked S.Marked edge :=
    fun hr => (hr m).mono fun _ _ h => ⟨Nat.lt_of_le_of_lt h.1 hm, h.2⟩
  refine hmono ((goes_readOperand ty).bind fun operand ho => goes_expectComma.skip fun _ => ?_)
  refine goes_position.bind fun position hposition => goes_kind.skip fun k => ?_
  split
  · exact goes_advance.skip fun _ => (goes_expect _ _).skip fun _ => .pure ⟨ho, hposition⟩
  · exact .unexpected

/-- An edge of a phi has a bracket at least. -/
theorem settles_edgeStep (ty : Ty) {edges : Array (Operand × Ident × Position)}
    (h : ∀ edge ∈ edges, EdgeMarked S.Marked edge) :
    Settles S n (Listing.edgeStep ty edges)
      (RoundWithin n (fun s => ∀ edge ∈ s, EdgeMarked S.Marked edge)
        fun s => ∀ edge ∈ s, EdgeMarked S.Marked edge) := by
  rw [Listing.edgeStep]
  refine (settles_readEdge ty).bind fun edge m hm => ?_
  have hpush := Array.forall_mem_push.mpr ⟨hm.2, h⟩
  refine (goes_isAt _ m).bind fun more m₁ h₁ => (goes_nextKind m₁).bind fun k m₂ h₂ => ?_
  have hlt : m₂ < n := Nat.lt_of_le_of_lt (Nat.le_trans h₂.1 h₁.1) hm.1
  split
  · exact (goes_advance m₂).bind fun _ m₃ h₃ => .pure ⟨Nat.lt_of_le_of_lt h₃.1 hlt, hpush⟩
  · exact .pure ⟨Nat.le_of_lt hlt, hpush⟩

theorem goes_readPhi : GoesToInstr S readPhi := by
  rw [readPhi]
  refine (goes_skipWords _).skip fun _ => Ty.goes_read.skip fun ty => ?_
  refine Goes.bind (.iterate (fun _ _ h => settles_edgeStep ty h) (by simp)) fun edges hedges => ?_
  have hlist : ∀ edge ∈ edges.toList, EdgeMarked S.Marked edge :=
    fun edge hedge => hedges edge (Array.mem_toList_iff.mp hedge)
  refine .pure ⟨List.forall_mem_map.mpr fun edge hedge => (hlist edge hedge).1, ?_⟩
  exact List.forall_mem_map.mpr fun edge hedge => (hlist edge hedge).2

/-! ## Calls -/

theorem goes_readArgument : Goes S readArgument fun p => p.2.Marked S.Marked := by
  rw [readArgument]
  refine Ty.goes_read.skip fun ty => (goes_skipAttributes _ _).skip fun _ => ?_
  exact (goes_readOperand ty).bind fun _ ho => .pure ho

theorem goes_readArguments :
    Goes S readArguments fun arguments => ∀ p ∈ arguments, p.2.Marked S.Marked := by
  rw [readArguments]
  refine (goes_expect _ _).skip fun _ => (goes_accept _).skip fun none => ?_
  cases none with
  | true => exact .pure (by simp)
  | false =>
    refine (goes_commaSeparated goes_readArgument).bind fun arguments harguments => ?_
    exact (goes_expect _ _).skip fun _ => .pure harguments

theorem goes_readCall (ctx : Context) : GoesToInstr S (readCall ctx) := by
  rw [readCall]
  refine (goes_skipWords _).skip fun _ => (goes_skipAttributes _ _).skip fun _ => ?_
  refine Ty.goes_read.skip fun given => (goes_readOperand _).bind fun callee hcallee => ?_
  refine goes_readArguments.bind fun arguments harguments => .pure (.plain ?_)
  rw [List.forall_mem_append, List.forall_mem_singleton]
  exact ⟨List.forall_mem_map.mpr harguments, hcallee.withTy _⟩

/-! ## Instructions on memory -/

/-- What follows the operands of an allocation starts with a comma. -/
theorem settles_readAllocaTrailer (space : Nat) : Settles S n (readAllocaTrailer space)
    (RoundWithin n (fun _ => True) fun _ => True) := by
  rw [readAllocaTrailer]
  refine (settles_isAt (by simp)).bind fun comma m h => ?_
  obtain ⟨rfl, hpos⟩ := h
  cases comma with
  | false => exact .pure ⟨Nat.le_refl _, trivial⟩
  | true =>
    have hm := hpos rfl
    refine settles_nextKind.bind fun k m' hm' => ?_
    obtain rfl := hm'
    split
    · refine settles_advance.bind fun _ m₁ h₁ => (Ty.goes_readSpace m₁).bind fun _ m₂ h₂ => ?_
      exact .pure ⟨by have := h₂.1; omega, trivial⟩
    · refine settles_advance.bind fun _ m₁ h₁ => (goes_advance m₁).bind fun _ m₂ h₂ => ?_
      refine (goes_expectNumber _ _ m₂).bind fun _ m₃ h₃ => .pure ⟨?_, trivial⟩
      have := h₂.1
      have := h₃.1
      omega
    · exact .pure ⟨Nat.le_refl _, trivial⟩

theorem goes_readAlloca (ctx : Context) : GoesToInstr S (readAlloca ctx) := by
  rw [readAlloca]
  refine (goes_skipWords _).skip fun _ => Ty.goes_read.skip fun allocated => ?_
  refine (goes_isAt _).skip fun counted => goes_nextKind.skip fun k => ?_
  have hrest : ∀ count : Operand, count.Marked S.Marked → GoesToInstr S (do
      let space ← iterate readAllocaTrailer 0
      return ⟨.alloca, ctx.pointerTo allocated space, [count], .alloca allocated⟩) := by
    intro count hcount
    refine Goes.skip (P := fun _ => True) (.iterate (I := fun _ => True)
      (fun _ space _ => settles_readAllocaTrailer space) trivial) fun space => ?_
    exact .pure ⟨by simpa using hcount, trivial⟩
  split
  · exact goes_advance.skip fun _ => goes_readTypedOperand.bind fun p hp => hrest p.2 hp
  · exact hrest _ trivial

theorem goes_readLoad : GoesToInstr S readLoad := by
  rw [readLoad]
  refine (goes_skipWords _).skip fun _ => Ty.goes_read.skip fun ty => ?_
  refine goes_expectComma.skip fun _ => goes_readTypedOperand.bind fun address haddress => ?_
  exact .pure (.plain (by simpa using haddress))

theorem goes_readStore : GoesToInstr S readStore := by
  rw [readStore]
  refine (goes_skipWords _).skip fun _ => goes_readTypedOperand.bind fun value hvalue => ?_
  refine goes_expectComma.skip fun _ => goes_readTypedOperand.bind fun address haddress => ?_
  exact .pure (.plain (by simp [hvalue, haddress]))

theorem goes_skipOrdering : Goes S skipOrdering fun _ => True := by
  rw [skipOrdering]
  refine (goes_acceptWord _).skip fun scope => ?_
  cases scope with
  | true =>
    refine (goes_isAt _).skip fun group => ?_
    cases group with
    | true => exact goes_skipGroup.skip fun _ => goes_skipWords _
    | false => exact goes_skipWords _
  | false => exact goes_skipWords _

theorem goes_readCmpxchg : GoesToInstr S readCmpxchg := by
  rw [readCmpxchg]
  refine (goes_skipWords _).skip fun _ => goes_readTypedOperand.bind fun address haddress => ?_
  refine goes_expectComma.skip fun _ => goes_readTypedOperand.bind fun expected hexpected => ?_
  refine goes_expectComma.skip fun _ => goes_readTypedOperand.bind fun replacement hrepl => ?_
  exact goes_skipOrdering.skip fun _ => .pure (.plain (by simp [haddress, hexpected, hrepl]))

theorem goes_readAtomicrmw : GoesToInstr S readAtomicrmw := by
  rw [readAtomicrmw]
  refine (goes_acceptWord _).skip fun _ => goes_current.skip fun t => ?_
  split
  · refine goes_advance.skip fun _ => goes_readTypedOperand.bind fun address haddress => ?_
    refine goes_expectComma.skip fun _ => goes_readTypedOperand.bind fun value hvalue => ?_
    exact goes_skipOrdering.skip fun _ => .pure (.plain (by simp [haddress, hvalue]))
  · exact Goes.bind (P := fun _ => False) .unexpected fun _ h => h.elim

theorem goes_skipInrange : Goes S skipInrange fun _ => True := by
  rw [skipInrange]
  refine (goes_acceptWord _).skip fun inrange => ?_
  cases inrange with
  | true =>
    refine (goes_isAt _).skip fun group => ?_
    cases group with
    | true => exact goes_skipGroup
    | false => exact .pure trivial
  | false => exact .pure trivial

/-- One round of the indices of an address computation. -/
def indexStep (indices : Array (Ty × Operand)) :
    Reader (Round (Array (Ty × Operand)) (Array (Ty × Operand))) := do
  let more ← isAt .comma
  if more && startsIndex (← nextKind) then
    advance
    skipInrange
    return .again (indices.push (← readTypedOperand))
  else return .done indices

/-- An index stands behind a comma. -/
theorem settles_indexStep {indices : Array (Ty × Operand)}
    (h : ∀ p ∈ indices, p.2.Marked S.Marked) :
    Settles S n (indexStep indices) (RoundWithin n (fun s => ∀ p ∈ s, p.2.Marked S.Marked)
      fun s => ∀ p ∈ s, p.2.Marked S.Marked) := by
  rw [indexStep]
  refine (settles_isAt (by simp)).bind fun more m hm => ?_
  obtain ⟨rfl, hpos⟩ := hm
  refine settles_nextKind.bind fun k m' hm' => ?_
  obtain rfl := hm'
  split
  · next hmore =>
    have hm := hpos ((Bool.and_eq_true_iff.mp hmore).1)
    refine settles_advance.bind fun _ m₁ h₁ => (goes_skipInrange m₁).bind fun _ m₂ h₂ => ?_
    refine (goes_readTypedOperand m₂).bind fun p m₃ h₃ => .pure ⟨?_, ?_⟩
    · have := h₂.1
      have := h₃.1
      omega
    · exact Array.forall_mem_push.mpr ⟨h₃.2, h⟩
  · exact .pure ⟨Nat.le_refl _, h⟩

theorem goes_readIndices : Goes S readIndices fun indices => ∀ p ∈ indices, p.2.Marked S.Marked := by
  have hloop : Goes S (iterate indexStep #[]) fun s => ∀ p ∈ s, p.2.Marked S.Marked :=
    .iterate (fun _ _ h => settles_indexStep h) (by simp)
  exact hloop.bind fun indices h => .pure fun p hp => h p (Array.mem_toList_iff.mp hp)

theorem goes_readGetelementptr (ctx : Context) : GoesToInstr S (readGetelementptr ctx) := by
  rw [readGetelementptr]
  refine goes_position.bind fun position hposition => (goes_skipWords _).skip fun _ => ?_
  refine goes_skipInrange.skip fun _ => Ty.goes_read.skip fun source => ?_
  refine goes_expectComma.skip fun _ => goes_readTypedOperand.bind fun ⟨baseTy, base⟩ hbase => ?_
  refine goes_readIndices.bind fun indices hindices => ?_
  dsimp only at hbase ⊢
  split
  · exact .failAt hposition trivial
  · exact .pure (.plain (List.forall_mem_cons.mpr ⟨hbase, List.forall_mem_map.mpr hindices⟩))

/-! ## Other instructions -/

theorem goes_readFneg : GoesToInstr S readFneg := by
  rw [readFneg]
  refine (goes_skipWords _).skip fun _ => goes_readTypedOperand.bind fun p hp => ?_
  exact .pure (.plain (by simpa using hp))

theorem goes_readBinary (op : BinaryOp) : GoesToInstr S (readBinary op) := by
  rw [readBinary]
  refine (goes_skipWords _).skip fun _ => Ty.goes_read.skip fun ty => ?_
  refine (goes_readOperand ty).bind fun lhs hlhs => goes_expectComma.skip fun _ => ?_
  exact (goes_readOperand ty).bind fun rhs hrhs => .pure (.plain (by simp [hlhs, hrhs]))

theorem goes_readCast (op : CastOp) : GoesToInstr S (readCast op) := by
  rw [readCast]
  refine (goes_skipWords _).skip fun _ => goes_readTypedOperand.bind fun p hp => ?_
  refine (goes_expectWord _).skip fun _ => Ty.goes_read.skip fun ty => ?_
  exact .pure (.plain (by simpa using hp))

theorem goes_readCompare (opcode : Opcode) (predicate? : String → Option Predicate) :
    GoesToInstr S (readCompare opcode predicate?) := by
  rw [readCompare]
  refine (goes_skipWords _).skip fun _ => goes_kind.skip fun k => ?_
  dsimp only
  split
  · exact .unexpected
  · refine goes_advance.skip fun _ => Ty.goes_read.skip fun ty => ?_
    refine (goes_readOperand ty).bind fun lhs hlhs => goes_expectComma.skip fun _ => ?_
    exact (goes_readOperand ty).bind fun rhs hrhs => .pure ⟨by simp [hlhs, hrhs], trivial⟩

theorem goes_readSelect : GoesToInstr S readSelect := by
  rw [readSelect]
  refine (goes_skipWords _).skip fun _ => goes_readTypedOperand.bind fun condition hcond => ?_
  refine goes_expectComma.skip fun _ => goes_readTypedOperand.bind fun onTrue htrue => ?_
  refine goes_expectComma.skip fun _ => goes_readTypedOperand.bind fun onFalse hfalse => ?_
  exact .pure (.plain (by simp [hcond, htrue, hfalse]))

theorem goes_readVaArg : GoesToInstr S readVaArg := by
  rw [readVaArg]
  refine goes_readTypedOperand.bind fun list hlist => goes_expectComma.skip fun _ => ?_
  exact Ty.goes_read.skip fun ty => .pure (.plain (by simpa using hlist))

theorem goes_readFreeze : GoesToInstr S readFreeze := by
  rw [readFreeze]
  exact goes_readTypedOperand.bind fun p hp => .pure (.plain (by simpa using hp))

theorem goes_readExtractelement {position : Position} (h : S.Marked position) :
    GoesToInstr S (readExtractelement position) := by
  rw [readExtractelement]
  refine goes_readTypedOperand.bind fun vector hvector => goes_expectComma.skip fun _ => ?_
  refine goes_readTypedOperand.bind fun index hindex => ?_
  dsimp only
  split
  · exact .pure (.plain (by simp [hvector, hindex]))
  · exact .failAt h trivial

theorem goes_readInsertelement : GoesToInstr S readInsertelement := by
  rw [readInsertelement]
  refine goes_readTypedOperand.bind fun vector hvector => goes_expectComma.skip fun _ => ?_
  refine goes_readTypedOperand.bind fun elem helem => goes_expectComma.skip fun _ => ?_
  refine goes_readTypedOperand.bind fun index hindex => ?_
  exact .pure (.plain (by simp [hvector, helem, hindex]))

theorem goes_readShufflevector {position : Position} (h : S.Marked position) :
    GoesToInstr S (readShufflevector position) := by
  rw [readShufflevector]
  refine goes_readTypedOperand.bind fun lhs hlhs => goes_expectComma.skip fun _ => ?_
  refine goes_readTypedOperand.bind fun rhs hrhs => goes_expectComma.skip fun _ => ?_
  refine goes_readTypedOperand.skip fun mask => ?_
  dsimp only
  split
  · exact .pure (.plain (by simp [hlhs, hrhs]))
  · exact .failAt h trivial

/-- One round of the indices of an aggregate. -/
def aggregateIndexStep (indices : Array Nat) : Reader (Round (Array Nat) (Array Nat)) := do
  let more ← isAt .comma
  if more && isNumeral (← nextKind) then
    advance
    return .again (indices.push (← expectNumber Text.bound64 "an index"))
  else return .done indices

/-- An index of an aggregate stands behind a comma. -/
theorem settles_aggregateIndexStep (indices : Array Nat) :
    Settles S n (aggregateIndexStep indices) (RoundWithin n (fun _ => True) fun _ => True) := by
  rw [aggregateIndexStep]
  refine (settles_isAt (by simp)).bind fun more m hm => ?_
  obtain ⟨rfl, hpos⟩ := hm
  refine settles_nextKind.bind fun k m' hm' => ?_
  obtain rfl := hm'
  split
  · next hmore =>
    have hm := hpos ((Bool.and_eq_true_iff.mp hmore).1)
    refine settles_advance.bind fun _ m₁ h₁ => (goes_expectNumber _ _ m₁).bind fun _ m₂ h₂ => ?_
    exact .pure ⟨by have := h₂.1; omega, trivial⟩
  · exact .pure ⟨Nat.le_refl _, trivial⟩

theorem goes_readAggregateIndices : Goes S readAggregateIndices fun _ => True := by
  have hloop : Goes S (iterate aggregateIndexStep #[]) fun _ => True :=
    .iterate (I := fun _ => True) (fun _ indices _ => settles_aggregateIndexStep indices) trivial
  refine hloop.skip fun indices => ?_
  split
  · exact .unexpected
  · exact .pure trivial

theorem goes_readExtractvalue (ctx : Context) {position : Position} (h : S.Marked position) :
    GoesToInstr S (readExtractvalue ctx position) := by
  rw [readExtractvalue]
  refine goes_readTypedOperand.bind fun aggregate hagg => goes_readAggregateIndices.skip fun _ => ?_
  split
  · exact .pure (.plain (by simpa using hagg))
  · exact .failAt h trivial

theorem goes_readInsertvalue : GoesToInstr S readInsertvalue := by
  rw [readInsertvalue]
  refine goes_readTypedOperand.bind fun aggregate hagg => goes_expectComma.skip fun _ => ?_
  refine goes_readTypedOperand.bind fun value hvalue => goes_readAggregateIndices.skip fun _ => ?_
  exact .pure (.plain (by simp [hagg, hvalue]))

/-- Whatever opcode stands at a marked position. -/
theorem goes_readOperation (ctx : Context) {position : Position} (h : S.Marked position)
    (opcode : Opcode) : GoesToInstr S (readOperation ctx position opcode) := by
  cases opcode with
  | ret => exact goes_readRet
  | br => exact goes_readBr
  | switch => exact goes_readSwitch
  | indirectbr => exact goes_readIndirectbr
  | unreachable => exact .pure (.plain (by simp))
  | fneg => exact goes_readFneg
  | binary op => exact goes_readBinary op
  | alloca => exact goes_readAlloca ctx
  | load => exact goes_readLoad
  | store => exact goes_readStore
  | getelementptr => exact goes_readGetelementptr ctx
  | fence => exact .pure (.plain (by simp))
  | cmpxchg => exact goes_readCmpxchg
  | atomicrmw => exact goes_readAtomicrmw
  | cast op => exact goes_readCast op
  | icmp => exact goes_readCompare _ _
  | fcmp => exact goes_readCompare _ _
  | phi => exact goes_readPhi
  | call => exact goes_readCall ctx
  | select => exact goes_readSelect
  | vaArg => exact goes_readVaArg
  | extractelement => exact goes_readExtractelement h
  | insertelement => exact goes_readInsertelement
  | shufflevector => exact goes_readShufflevector h
  | extractvalue => exact goes_readExtractvalue ctx h
  | insertvalue => exact goes_readInsertvalue
  | freeze => exact goes_readFreeze

/-- An instruction starts with a word, and keeps marked positions only. -/
theorem settles_readInstr (ctx : Context) :
    Settles S n (readInstr ctx) fun instr m => m < n ∧ instr.Marked S.Marked := by
  rw [readInstr]
  refine (goes_skipWords _ n).bind fun _ m hm => settles_kind.bind fun k m' h => ?_
  obtain ⟨rfl, hpos⟩ := h
  split
  · have := hpos (by simp)
    split
    · refine (goes_position _).bind fun position m₁ h₁ => settles_advance.bind fun _ m₂ h₂ => ?_
      refine (goes_readOperation ctx h₁.2 _ m₂).mono fun instr m₃ h₃ => ⟨?_, h₃.2⟩
      have := hm.1
      have := h₁.1
      have := h₃.1
      omega
    · exact .unexpected
  · exact .unexpected

end IrRecords.Draft
