import IrRecords.Proofs.Draft.Typing
import IrRecords.Proofs.Draft.Writing
import IrRecords.Proofs.Ty.BareFree

/-!
# Instructions without opaque pointers

In a text that does not speak of opaque pointers no instruction has one, neither in the types of
its operands and of its result nor in what it allocates (`readInstr_bareFree`). Most types stand in
the text. The others are made: addresses of what is allocated, indexed or called are pointers of
the form that the module uses, and parts of aggregates come out of types that were there before.
-/

namespace IrRecords

namespace Draft

open Reader

/-- What the module says is free of opaque pointers. -/
structure Context.BareFree (ctx : Context) : Prop where
  types : ctx.types.BareFree
  opaquePointers : ctx.opaquePointers = false

/-- No opaque pointer type occurs in the instruction, at any depth. -/
structure Instr.BareFree (i : Instr) : Prop where
  ty : i.ty.BareFree
  operands : ∀ o ∈ i.operands, o.ty.BareFree
  allocated : ∀ ty, i.detail.allocated? = some ty → ty.BareFree

theorem Instr.BareFree.plain {opcode : Opcode} {ty : Ty} {operands : List Operand}
    (hty : ty.BareFree) (hoperands : ∀ o ∈ operands, o.ty.BareFree) :
    (Instr.plain opcode ty operands).BareFree :=
  ⟨hty, hoperands, fun _ h => by cases h⟩

/-- The reader answers such instructions on texts that do not speak of opaque pointers. -/
abbrev ReadsBareFree (r : Reader Instr) : Prop := r.YieldsAmong TokenKind.Pointed Instr.BareFree

/-- An address in a module with typed pointers knows what it points to. -/
theorem Context.BareFree.pointerTo {ctx : Context} (h : ctx.BareFree) {pointee : Ty}
    (hpointee : pointee.BareFree) (space : Nat) : (ctx.pointerTo pointee space).BareFree := by
  rw [Context.pointerTo, h.opaquePointers]
  exact Ty.bareFree_pointer.mpr hpointee

/-! ## Operands -/

theorem goesForward_readOperand (ty : Ty) : (readOperand ty).GoesForward :=
  fun c => (writes_readOperand (c := c) (l := ⟨[], []⟩) ty).passes

theorem bareFree_readOperand {ty : Ty} (hty : ty.BareFree) :
    (readOperand ty).YieldsAmong TokenKind.Pointed fun o => o.ty.BareFree :=
  ((goesForward_readOperand ty).among_yields (readOperand_spec ty)).mono
    fun _ ho => ho.ty_eq.symm ▸ hty

theorem bareFree_readTypedOperand : readTypedOperand.YieldsAmong TokenKind.Pointed
    fun p => p.1.BareFree ∧ p.2.ty.BareFree := by
  rw [readTypedOperand]
  refine Ty.bareFree_read.bind fun ty hty => (bareFree_readOperand hty).bind fun operand ho => ?_
  exact .pure ⟨hty, ho⟩

theorem ty_withTy (o : Operand) (ty : Ty) : (o.withTy ty).ty = ty := by
  cases o <;> rfl

/-! ## Instructions that direct control -/

theorem bareFree_readRet : ReadsBareFree readRet := by
  rw [readRet]
  refine .skip (neutral_acceptWord _).goesForward fun void => ?_
  cases void with
  | true => exact .pure (.plain rfl (by simp))
  | false => exact bareFree_readTypedOperand.bind fun p h => .pure (.plain rfl (by simp [h.2]))

theorem bareFree_readBr : ReadsBareFree readBr := by
  rw [readBr]
  refine bareFree_readTypedOperand.bind fun typed hfirst => ?_
  obtain ⟨ty, first⟩ := typed
  dsimp only
  by_cases hlabel : ty = .label
  · rw [if_pos hlabel]
    exact .pure (.plain rfl (by simp [hfirst.2]))
  · rw [if_neg hlabel]
    refine .skip neutral_expectComma.goesForward fun _ => ?_
    refine bareFree_readTypedOperand.bind fun onTrue htrue => ?_
    refine .skip neutral_expectComma.goesForward fun _ => ?_
    refine bareFree_readTypedOperand.bind fun onFalse hfalse => ?_
    exact .pure (.plain rfl (by simp [hfirst.2, htrue.2, hfalse.2]))

theorem bareFree_readSwitch : ReadsBareFree readSwitch := by
  rw [readSwitch]
  refine bareFree_readTypedOperand.bind fun condition hcond => ?_
  refine .skip neutral_expectComma.goesForward fun _ => ?_
  refine bareFree_readTypedOperand.bind fun otherwise hother => ?_
  refine .expect TokenKind.noConfusion fun _ => ?_
  refine YieldsAmong.bind (P := fun cases : Array Operand => ∀ o ∈ cases, o.ty.BareFree) ?_
    fun cases hcases => ?_
  · refine .iterate (I := fun cases : Array Operand => ∀ o ∈ cases, o.ty.BareFree)
      (fun cases hI => ?_) (by simp)
    refine .accept TokenKind.noConfusion fun closed => ?_
    cases closed with
    | true => exact .pure hI
    | false =>
      refine bareFree_readTypedOperand.bind fun value hvalue => ?_
      refine .skip neutral_expectComma.goesForward fun _ => ?_
      refine bareFree_readTypedOperand.bind fun target htarget => .pure ?_
      exact Array.forall_mem_push.mpr ⟨htarget.2, Array.forall_mem_push.mpr ⟨hvalue.2, hI⟩⟩
  · exact .pure (.plain rfl (by simpa [hcond.2, hother.2] using hcases))

theorem bareFree_readIndirectbr : ReadsBareFree readIndirectbr := by
  rw [readIndirectbr]
  refine bareFree_readTypedOperand.bind fun address haddr => ?_
  refine .skip neutral_expectComma.goesForward fun _ => ?_
  refine .expect TokenKind.noConfusion fun _ => ?_
  refine .accept TokenKind.noConfusion fun closed => ?_
  cases closed with
  | true => exact .pure (.plain rfl (by simp [haddr.2]))
  | false =>
    refine bareFree_readTypedOperand.commaSeparated.bind fun targets htargets => ?_
    refine .expect TokenKind.noConfusion fun _ => .pure (.plain rfl ?_)
    refine List.forall_mem_cons.mpr ⟨haddr.2, List.forall_mem_map.mpr fun p hp => ?_⟩
    exact (htargets p hp).2

theorem bareFree_readEdge {ty : Ty} (hty : ty.BareFree) :
    (readEdge ty).YieldsAmong TokenKind.Pointed fun e => e.1.ty.BareFree := by
  rw [readEdge]
  refine .expect TokenKind.noConfusion fun _ => ?_
  refine (bareFree_readOperand hty).bind fun operand ho => ?_
  refine .skip neutral_expectComma.goesForward fun _ => .position fun p => .kind fun k _ => ?_
  split
  · exact .advance (.expect TokenKind.noConfusion fun _ => .pure ho)
  · exact .unexpected

theorem bareFree_readPhi : ReadsBareFree readPhi := by
  rw [readPhi]
  refine .skip (neutral_skipWords _).goesForward fun _ => Ty.bareFree_read.bind fun ty hty => ?_
  refine YieldsAmong.bind (P := fun edges : Array (Operand × Ident × Position) =>
    ∀ e ∈ edges, e.1.ty.BareFree) ?_ fun edges hedges => ?_
  · refine .iterate (I := fun edges : Array (Operand × Ident × Position) =>
      ∀ e ∈ edges, e.1.ty.BareFree) (fun edges hI => ?_) (by simp)
    refine (bareFree_readEdge hty).bind fun edge hedge => .isAt fun more => .nextKind fun next => ?_
    have hpush : ∀ e ∈ edges.push edge, e.1.ty.BareFree :=
      Array.forall_mem_push.mpr ⟨hedge, hI⟩
    split
    · exact .advance (.pure hpush)
    · exact .pure hpush
  · refine .pure ⟨hty, fun o ho => ?_, fun _ h => by cases h⟩
    simp only [List.mem_map, Array.mem_toList_iff] at ho
    obtain ⟨e, he, rfl⟩ := ho
    exact hedges e he

/-! ### Calls -/

theorem bareFree_readArgument : readArgument.YieldsAmong TokenKind.Pointed
    fun p => p.1.BareFree ∧ p.2.ty.BareFree := by
  rw [readArgument]
  refine Ty.bareFree_read.bind fun ty hty => ?_
  refine .skip (neutral_skipAttributes _ _).goesForward fun _ => ?_
  exact (bareFree_readOperand hty).bind fun operand ho => .pure ⟨hty, ho⟩

theorem bareFree_readArguments : readArguments.YieldsAmong TokenKind.Pointed
    fun ps => ∀ p ∈ ps, p.1.BareFree ∧ p.2.ty.BareFree := by
  rw [readArguments]
  refine .expect TokenKind.noConfusion fun _ => ?_
  refine .accept TokenKind.noConfusion fun closed => ?_
  cases closed with
  | true => exact .pure (by simp)
  | false =>
    refine bareFree_readArgument.commaSeparated.bind fun ps hps => ?_
    exact .expect TokenKind.noConfusion fun _ => .pure hps

theorem bareFree_calleeType {given : Ty} {arguments : List Ty} (hgiven : given.BareFree)
    (harguments : ∀ ty ∈ arguments, ty.BareFree) :
    (calleeType given arguments).1.BareFree ∧ (calleeType given arguments).2.BareFree := by
  cases given
  case function => exact ⟨(Ty.bareFree_function.mp hgiven).1, hgiven⟩
  all_goals exact ⟨hgiven, Ty.bareFree_function.mpr ⟨hgiven, harguments⟩⟩

/-- What is called is a function of the types that the call gives. -/
theorem bareFree_readCall {ctx : Context} (hctx : ctx.BareFree) : ReadsBareFree (readCall ctx) := by
  rw [readCall]
  refine .skip (neutral_skipWords _).goesForward fun _ => ?_
  refine .skip (neutral_skipAttributes _ _).goesForward fun _ => ?_
  refine Ty.bareFree_read.bind fun given hgiven => ?_
  refine .skip (goesForward_readOperand _) fun callee => ?_
  refine bareFree_readArguments.bind fun arguments harguments => .pure ?_
  have htypes : ∀ ty ∈ arguments.map (·.1), ty.BareFree :=
    List.forall_mem_map.mpr fun p hp => (harguments p hp).1
  obtain ⟨hret, hfunction⟩ := bareFree_calleeType hgiven htypes
  refine .plain hret fun o ho => ?_
  rcases List.mem_append.mp ho with ho | ho
  · obtain ⟨p, hp, rfl⟩ := List.mem_map.mp ho
    exact (harguments p hp).2
  · rw [List.mem_singleton.mp ho, ty_withTy]
    exact hctx.pointerTo hfunction 0

/-! ## Instructions on memory -/

/-- The count that the text leaves out is an integer. -/
theorem bareFree_readAlloca {ctx : Context} (hctx : ctx.BareFree) :
    ReadsBareFree (readAlloca ctx) := by
  rw [readAlloca]
  refine .skip (neutral_skipWords _).goesForward fun _ => ?_
  refine Ty.bareFree_read.bind fun allocated hallocated => ?_
  refine .isAt fun counted => .nextKind fun next => ?_
  have hrest : ∀ count : Operand, count.ty.BareFree → ReadsBareFree (do
      let space ← iterate readAllocaTrailer 0
      return ⟨.alloca, ctx.pointerTo allocated space, [count], .alloca allocated⟩) := by
    intro count hcount
    refine .skip (Neutral.iterate neutral_readAllocaTrailer 0).goesForward fun space => ?_
    refine .pure ⟨hctx.pointerTo hallocated space, by simpa using hcount, fun ty hty => ?_⟩
    cases hty
    exact hallocated
  split
  · exact .advance (bareFree_readTypedOperand.bind fun p h => hrest p.2 h.2)
  · exact hrest _ rfl

theorem bareFree_readLoad : ReadsBareFree readLoad := by
  rw [readLoad]
  refine .skip (neutral_skipWords _).goesForward fun _ => Ty.bareFree_read.bind fun ty hty => ?_
  refine .skip neutral_expectComma.goesForward fun _ => ?_
  exact bareFree_readTypedOperand.bind fun p h => .pure (.plain hty (by simp [h.2]))

theorem bareFree_readStore : ReadsBareFree readStore := by
  rw [readStore]
  refine .skip (neutral_skipWords _).goesForward fun _ => ?_
  refine bareFree_readTypedOperand.bind fun value hvalue => ?_
  refine .skip neutral_expectComma.goesForward fun _ => ?_
  refine bareFree_readTypedOperand.bind fun address haddr => ?_
  exact .pure (.plain rfl (by simp [hvalue.2, haddr.2]))

theorem bareFree_readCmpxchg : ReadsBareFree readCmpxchg := by
  rw [readCmpxchg]
  refine .skip (neutral_skipWords _).goesForward fun _ => ?_
  refine bareFree_readTypedOperand.bind fun address haddr => ?_
  refine .skip neutral_expectComma.goesForward fun _ => ?_
  refine bareFree_readTypedOperand.bind fun typed hexp => ?_
  obtain ⟨ty, expected⟩ := typed
  refine .skip neutral_expectComma.goesForward fun _ => ?_
  refine bareFree_readTypedOperand.bind fun new hnew => ?_
  refine .skip neutral_skipOrdering.goesForward fun _ => .pure (.plain ?_ ?_)
  · exact Ty.bareFree_literal.mpr (by simpa using hexp.1)
  · simp [haddr.2, hexp.2, hnew.2]

theorem bareFree_readAtomicrmw : ReadsBareFree readAtomicrmw := by
  rw [readAtomicrmw]
  refine .skip (neutral_acceptWord _).goesForward fun _ => .current fun t => ?_
  dsimp only
  split
  · refine .advance (bareFree_readTypedOperand.bind fun address haddr => ?_)
    refine .skip neutral_expectComma.goesForward fun _ => ?_
    refine bareFree_readTypedOperand.bind fun value hvalue => ?_
    refine .skip neutral_skipOrdering.goesForward fun _ => .pure (.plain hvalue.1 ?_)
    simp [haddr.2, hvalue.2]
  · exact YieldsAmong.bind (P := fun _ => False) .unexpected fun _ h => h.elim

/-! ### Address computations -/

theorem bareFree_readIndices : readIndices.YieldsAmong TokenKind.Pointed
    fun ps => ∀ p ∈ ps, p.1.BareFree ∧ p.2.ty.BareFree := by
  rw [readIndices]
  refine YieldsAmong.bind (P := fun ps : Array (Ty × Operand) =>
    ∀ p ∈ ps, p.1.BareFree ∧ p.2.ty.BareFree) ?_ fun ps hps => .pure (by simpa using hps)
  refine .iterate (I := fun ps : Array (Ty × Operand) => ∀ p ∈ ps, p.1.BareFree ∧ p.2.ty.BareFree)
    (fun ps hI => .isAt fun more => .nextKind fun next => ?_) (by simp)
  split
  · refine .advance (.skip neutral_skipInrange.goesForward fun _ => ?_)
    exact bareFree_readTypedOperand.bind fun p hp => .pure (Array.forall_mem_push.mpr ⟨hp, hI⟩)
  · exact .pure hI

/-- An address leads to what the indices reach, and in a table of such types that is one of them. -/
theorem bareFree_addressType {types : TypeTable} {source base ty : Ty} {indices : List Operand}
    (htypes : types.BareFree) (hsource : source.BareFree) (hbase : base.BareFree)
    (h : addressType types source base indices = .ok ty) : ty.BareFree := by
  cases base
  case pointer pointee space =>
    rw [addressType] at h
    split at h
    · next hindexed =>
      cases h
      exact Ty.bareFree_pointer.mpr (htypes.indexed hsource hindexed)
    · cases h
  all_goals cases h; exact hbase

theorem bareFree_readGetelementptr {ctx : Context} (hctx : ctx.BareFree) :
    ReadsBareFree (readGetelementptr ctx) := by
  rw [readGetelementptr]
  refine .position fun position => .skip (neutral_skipWords _).goesForward fun _ => ?_
  refine .skip neutral_skipInrange.goesForward fun _ => ?_
  refine Ty.bareFree_read.bind fun source hsource => ?_
  refine .skip neutral_expectComma.goesForward fun _ => ?_
  refine bareFree_readTypedOperand.bind fun typed hbase => ?_
  obtain ⟨baseTy, base⟩ := typed
  refine bareFree_readIndices.bind fun indices hindices => ?_
  dsimp only
  cases haddress : addressType ctx.types source baseTy.scalar (indices.map (·.2)) with
  | error fault => exact .failAt
  | ok ty =>
    have hty := bareFree_addressType hctx.types hsource hbase.1.scalar haddress
    refine .pure (.plain (hty.reshape _) (List.forall_mem_cons.mpr ⟨hbase.2, ?_⟩))
    exact List.forall_mem_map.mpr fun p hp => (hindices p hp).2

/-! ## Operations on values -/

theorem bareFree_readFneg : ReadsBareFree readFneg := by
  rw [readFneg]
  refine .skip (neutral_skipWords _).goesForward fun _ => ?_
  exact bareFree_readTypedOperand.bind fun p h => .pure (.plain h.1 (by simp [h.2]))

theorem bareFree_readBinary (op : BinaryOp) : ReadsBareFree (readBinary op) := by
  rw [readBinary]
  refine .skip (neutral_skipWords _).goesForward fun _ => Ty.bareFree_read.bind fun ty hty => ?_
  refine (bareFree_readOperand hty).bind fun lhs hlhs => ?_
  refine .skip neutral_expectComma.goesForward fun _ => ?_
  exact (bareFree_readOperand hty).bind fun rhs hrhs => .pure (.plain hty (by simp [hlhs, hrhs]))

theorem bareFree_readCast (op : CastOp) : ReadsBareFree (readCast op) := by
  rw [readCast]
  refine .skip (neutral_skipWords _).goesForward fun _ => ?_
  refine bareFree_readTypedOperand.bind fun p h => ?_
  refine .skip (neutral_expectWord _).goesForward fun _ => Ty.bareFree_read.bind fun ty hty => ?_
  exact .pure (.plain hty (by simp [h.2]))

theorem bareFree_readCompare (opcode : Opcode) (predicate? : String → Option Predicate) :
    ReadsBareFree (readCompare opcode predicate?) := by
  rw [readCompare]
  refine .skip (neutral_skipWords _).goesForward fun _ => .kind fun k _ => ?_
  dsimp only
  split
  · exact .unexpected
  · refine .advance (Ty.bareFree_read.bind fun ty hty => ?_)
    refine (bareFree_readOperand hty).bind fun lhs hlhs => ?_
    refine .skip neutral_expectComma.goesForward fun _ => ?_
    refine (bareFree_readOperand hty).bind fun rhs hrhs => .pure ⟨?_, ?_, fun _ h => by cases h⟩
    · exact (Ty.bareFree_int 1).reshape ty
    · simp [hlhs, hrhs]

theorem bareFree_readSelect : ReadsBareFree readSelect := by
  rw [readSelect]
  refine .skip (neutral_skipWords _).goesForward fun _ => ?_
  refine bareFree_readTypedOperand.bind fun condition hcond => ?_
  refine .skip neutral_expectComma.goesForward fun _ => ?_
  refine bareFree_readTypedOperand.bind fun onTrue htrue => ?_
  refine .skip neutral_expectComma.goesForward fun _ => ?_
  refine bareFree_readTypedOperand.bind fun onFalse hfalse => ?_
  exact .pure (.plain htrue.1 (by simp [hcond.2, htrue.2, hfalse.2]))

theorem bareFree_readVaArg : ReadsBareFree readVaArg := by
  rw [readVaArg]
  refine bareFree_readTypedOperand.bind fun p h => ?_
  refine .skip neutral_expectComma.goesForward fun _ => Ty.bareFree_read.bind fun ty hty => ?_
  exact .pure (.plain hty (by simp [h.2]))

theorem bareFree_readFreeze : ReadsBareFree readFreeze := by
  rw [readFreeze]
  exact bareFree_readTypedOperand.bind fun p h => .pure (.plain h.1 (by simp [h.2]))

/-! ## Vectors and aggregates -/

theorem bareFree_readExtractelement (position : Position) :
    ReadsBareFree (readExtractelement position) := by
  rw [readExtractelement]
  refine bareFree_readTypedOperand.bind fun typed hvec => ?_
  obtain ⟨ty, vector⟩ := typed
  refine .skip neutral_expectComma.goesForward fun _ => ?_
  refine bareFree_readTypedOperand.bind fun index hidx => ?_
  dsimp only
  cases helem : ty.element? with
  | none => exact .failAt
  | some elem => exact .pure (.plain (hvec.1.of_element? helem) (by simp [hvec.2, hidx.2]))

theorem bareFree_readInsertelement : ReadsBareFree readInsertelement := by
  rw [readInsertelement]
  refine bareFree_readTypedOperand.bind fun typed hvec => ?_
  obtain ⟨ty, vector⟩ := typed
  refine .skip neutral_expectComma.goesForward fun _ => ?_
  refine bareFree_readTypedOperand.bind fun elem helem => ?_
  refine .skip neutral_expectComma.goesForward fun _ => ?_
  refine bareFree_readTypedOperand.bind fun index hidx => ?_
  exact .pure (.plain hvec.1 (by simp [hvec.2, helem.2, hidx.2]))

theorem bareFree_readShufflevector (position : Position) :
    ReadsBareFree (readShufflevector position) := by
  rw [readShufflevector]
  refine bareFree_readTypedOperand.bind fun typed hlhs => ?_
  obtain ⟨ty, lhs⟩ := typed
  refine .skip neutral_expectComma.goesForward fun _ => ?_
  refine bareFree_readTypedOperand.bind fun rhs hrhs => ?_
  refine .skip neutral_expectComma.goesForward fun _ => ?_
  refine bareFree_readTypedOperand.bind fun mask _ => ?_
  dsimp only
  cases helem : ty.element? with
  | none => exact .failAt
  | some elem =>
    exact .pure (.plain ((hlhs.1.of_element? helem).reshape _) (by simp [hlhs.2, hrhs.2]))

theorem bareFree_readExtractvalue {ctx : Context} (hctx : ctx.BareFree) (position : Position) :
    ReadsBareFree (readExtractvalue ctx position) := by
  rw [readExtractvalue]
  refine bareFree_readTypedOperand.bind fun typed hagg => ?_
  obtain ⟨ty, aggregate⟩ := typed
  refine .skip neutral_readAggregateIndices.goesForward fun indices => ?_
  cases hpart : ctx.types.indexed ty (indices.map some) with
  | error fault => exact .failAt
  | ok part => exact .pure (.plain (hctx.types.indexed hagg.1 hpart) (by simp [hagg.2]))

theorem bareFree_readInsertvalue : ReadsBareFree readInsertvalue := by
  rw [readInsertvalue]
  refine bareFree_readTypedOperand.bind fun typed hagg => ?_
  obtain ⟨ty, aggregate⟩ := typed
  refine .skip neutral_expectComma.goesForward fun _ => ?_
  refine bareFree_readTypedOperand.bind fun value hvalue => ?_
  refine .skip neutral_readAggregateIndices.goesForward fun _ => ?_
  exact .pure (.plain hagg.1 (by simp [hagg.2, hvalue.2]))

/-! ## All instructions -/

theorem bareFree_readOperation {ctx : Context} (hctx : ctx.BareFree) (position : Position)
    (opcode : Opcode) : ReadsBareFree (readOperation ctx position opcode) := by
  cases opcode with
  | ret => exact bareFree_readRet
  | br => exact bareFree_readBr
  | switch => exact bareFree_readSwitch
  | indirectbr => exact bareFree_readIndirectbr
  | unreachable => exact .pure (.plain rfl (by simp))
  | fneg => exact bareFree_readFneg
  | binary op => exact bareFree_readBinary op
  | alloca => exact bareFree_readAlloca hctx
  | load => exact bareFree_readLoad
  | store => exact bareFree_readStore
  | getelementptr => exact bareFree_readGetelementptr hctx
  | fence => exact .pure (.plain rfl (by simp))
  | cmpxchg => exact bareFree_readCmpxchg
  | atomicrmw => exact bareFree_readAtomicrmw
  | cast op => exact bareFree_readCast op
  | icmp => exact bareFree_readCompare _ _
  | fcmp => exact bareFree_readCompare _ _
  | phi => exact bareFree_readPhi
  | call => exact bareFree_readCall hctx
  | select => exact bareFree_readSelect
  | vaArg => exact bareFree_readVaArg
  | extractelement => exact bareFree_readExtractelement position
  | insertelement => exact bareFree_readInsertelement
  | shufflevector => exact bareFree_readShufflevector position
  | extractvalue => exact bareFree_readExtractvalue hctx position
  | insertvalue => exact bareFree_readInsertvalue
  | freeze => exact bareFree_readFreeze

/-- **An instruction in a text that does not speak of opaque pointers has none.** -/
theorem bareFree_readInstr {ctx : Context} (hctx : ctx.BareFree) :
    ReadsBareFree (readInstr ctx) := by
  rw [readInstr]
  refine .skip (neutral_skipWords _).goesForward fun _ => .kind fun k _ => ?_
  split
  · split
    · exact .position fun position => .advance (bareFree_readOperation hctx position _)
    · exact .unexpected
  · exact .unexpected

end Draft

end IrRecords
