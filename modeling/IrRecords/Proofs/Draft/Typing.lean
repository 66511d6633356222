import IrRecords.Draft.Instr
import IrRecords.Proofs.Reader.Yields

/-!
# The typing of instructions

Each opcode relates the types of its operands to the type of its result. `Opcode.Typing` is that
relation, and the main statement of this module, `readInstr_spec`, is that every instruction that
is read obeys it. At this stage an operand is still the type it is written at: a reference has not
been looked up. That its definition has the same type is checked when the draft is laid out
(`IrRecords.Proofs.Draft.Layout`), and only the two together type a finished function.

Beside the types an instruction has a detail, which has to be of the kind that its opcode asks for
(`Detail.Suits`), and operands that are not references stand for constants and globals only
(`Operand.Outer`).
-/

namespace IrRecords

/-! ## The rules -/

/-- Whether an instruction with operands of the types `ts` may have a result of type `r`. What is
allocated, if anything is, comes from the detail of the instruction. Opcodes that convert, or that
reach into memory and aggregates, are free here: their result is the type that the text gives. -/
def Opcode.Typing (allocated? : Option Ty) (ts : List Ty) (r : Ty) : Opcode → Prop
  | .fneg | .freeze => ts = [r]
  | .binary _ => ts = [r, r]
  | .icmp | .fcmp => ∃ t, ts = [t, t] ∧ r = t.reshape (.int 1)
  | .select => ∃ condition other, ts = [condition, r, other]
  | .phi => ∀ t ∈ ts, t = r
  | .extractelement => ∃ vector index, ts = [vector, index] ∧ vector.element? = some r
  | .insertelement => ∃ elem index, ts = [r, elem, index]
  | .insertvalue => ∃ value, ts = [r, value]
  | .cmpxchg => ∃ address t other, ts = [address, t, other] ∧ r = .literal [t, .int 1] false
  | .atomicrmw => ∃ address, ts = [address, r]
  | .alloca => ∃ count allocated, ts = [count] ∧ allocated? = some allocated
      ∧ ∃ space, r = .bare space ∨ r = .pointer allocated space
  | .call => ∃ arguments callee, ts = arguments ++ [callee]
      ∧ (callee = .bare 0 ∨ ∃ params vararg, callee = .pointer (.function r params vararg) 0)
  | .ret | .br | .switch | .indirectbr | .unreachable | .fence | .store => r = .void
  | .load | .getelementptr | .cast _ | .vaArg | .shufflevector | .extractvalue => True

/-- Whether instructions with this opcode hold something beside their operands. -/
def Opcode.hasDetail : Opcode → Bool
  | .icmp | .fcmp | .alloca | .phi => true
  | _ => false

namespace Draft

/-- The type that an operand is written at. -/
def Operand.ty : Operand → Ty
  | reference _ ty _ => ty
  | known value => value.ty

/-- Whether an operand, where it is no reference to a value of the function, stands for something
outside of it: a constant or a global. -/
def Operand.Outer : Operand → Prop
  | reference .. => True
  | known value => (∃ text, value.origin = .constant text) ∨ value.origin = .global

/-- An operand that may be used at the type `ty`. -/
structure Operand.Fits (ty : Ty) (o : Operand) : Prop where
  ty_eq : o.ty = ty
  outer : o.Outer

/-- What is allocated, if anything is. -/
def Detail.allocated? : Detail → Option Ty
  | alloca allocated => some allocated
  | _ => none

/-- Whether an instruction with this opcode and `n` operands can have this detail. -/
def Detail.Suits (opcode : Opcode) (n : Nat) : Detail → Prop
  | plain => opcode.hasDetail = false
  | compare (.int _) => opcode = .icmp
  | compare (.float _) => opcode = .fcmp
  | alloca _ => opcode = .alloca
  | phi incoming => opcode = .phi ∧ incoming.length = n ∧ 0 < n

/-- A phi has edges, one for each operand and at least one. -/
theorem Detail.Suits.exists_edges {detail : Detail} {n : Nat} (h : detail.Suits .phi n) :
    ∃ incoming, detail = .phi incoming ∧ incoming.length = n ∧ 0 < n := by
  cases detail with
  | plain => cases h
  | compare p => cases p <;> cases h
  | alloca allocated => cases h
  | phi incoming => exact ⟨incoming, rfl, h.2⟩

/-- An instruction as its opcode asks for it. -/
structure Instr.WellFormed (i : Instr) : Prop where
  typing : i.opcode.Typing i.detail.allocated? (i.operands.map Operand.ty) i.ty
  outer : ∀ o ∈ i.operands, o.Outer
  suits : i.detail.Suits i.opcode i.operands.length

/-- A plain instruction is well-formed if it is well typed. -/
theorem Instr.WellFormed.plain {opcode : Opcode} {ty : Ty} {operands : List Operand}
    (hplain : opcode.hasDetail = false) (htyping : opcode.Typing none (operands.map Operand.ty) ty)
    (houter : ∀ o ∈ operands, o.Outer) : (Instr.plain opcode ty operands).WellFormed :=
  ⟨htyping, houter, hplain⟩

/-! ## Operands -/

open Reader

/-- An operand is used at the type it is read at. -/
theorem readOperand_spec (ty : Ty) : (readOperand ty).Yields (Operand.Fits ty) := by
  have hconstant : ∀ text, (Operand.known (.constant ty text)).Fits ty :=
    fun text => ⟨rfl, .inl ⟨text, rfl⟩⟩
  rw [readOperand]
  by_cases hty : ty = .metadata
  · rw [if_pos hty]
    exact .skip fun text => .pure (hconstant text)
  · rw [if_neg hty]
    refine .skip fun position => .skip fun kind => ?_
    cases kind
    case localRef id => exact .skip fun _ => .pure ⟨rfl, trivial⟩
    case globalRef id => exact .skip fun _ => .pure ⟨rfl, .inr rfl⟩
    all_goals exact .skip fun text => .pure (hconstant text)

/-- An operand behind a type is used at that type. -/
theorem readTypedOperand_spec : readTypedOperand.Yields fun p => p.2.Fits p.1 := by
  rw [readTypedOperand]
  exact .skip fun ty => (readOperand_spec ty).bind fun operand h => .pure h

/-- Only the type of an operand changes when the operand is used at another type. -/
theorem Operand.Fits.withTy {o : Operand} {ty ty' : Ty} (h : o.Fits ty) :
    (o.withTy ty').Fits ty' := by
  cases o with
  | reference id _ position => exact ⟨rfl, trivial⟩
  | known value => exact ⟨rfl, h.outer⟩

/-! ## Instructions that direct control -/

theorem readRet_spec : readRet.Yields Instr.WellFormed := by
  rw [readRet]
  refine .skip fun void => ?_
  by_cases hvoid : void = true
  · rw [if_pos hvoid]
    exact .pure (.plain rfl rfl (by simp))
  · rw [if_neg hvoid]
    exact readTypedOperand_spec.bind fun p h => .pure (.plain rfl rfl (by simp [h.outer]))

theorem readBr_spec : readBr.Yields Instr.WellFormed := by
  rw [readBr]
  refine readTypedOperand_spec.bind fun ⟨ty, first⟩ hfirst => ?_
  dsimp only
  by_cases hlabel : ty = .label
  · rw [if_pos hlabel]
    exact .pure (.plain rfl rfl (by simp [hfirst.outer]))
  · rw [if_neg hlabel]
    refine .skip fun _ => readTypedOperand_spec.bind fun onTrue htrue => ?_
    refine .skip fun _ => readTypedOperand_spec.bind fun onFalse hfalse => ?_
    exact .pure (.plain rfl rfl (by simp [hfirst.outer, htrue.outer, hfalse.outer]))

theorem readSwitch_spec : readSwitch.Yields Instr.WellFormed := by
  rw [readSwitch]
  refine readTypedOperand_spec.bind fun condition hcond => ?_
  refine .skip fun _ => readTypedOperand_spec.bind fun otherwise hother => .skip fun _ => ?_
  -- The cases are collected in a loop, and each round keeps what is said of those so far.
  refine Yields.bind (P := fun cases : Array Operand => ∀ o ∈ cases, o.Outer) ?_
    fun cases hcases => ?_
  · refine Yields.iterate (I := fun cases : Array Operand => ∀ o ∈ cases, o.Outer)
      (fun cases hI => .skip fun closed => ?_) (by simp)
    by_cases hclosed : closed = true
    · rw [if_pos hclosed]
      exact .pure hI
    · rw [if_neg hclosed]
      refine readTypedOperand_spec.bind fun value hvalue => .skip fun _ => ?_
      refine readTypedOperand_spec.bind fun target htarget => .pure fun o ho => ?_
      rcases Array.mem_push.mp ho with ho | rfl
      · rcases Array.mem_push.mp ho with ho | rfl
        · exact hI o ho
        · exact hvalue.outer
      · exact htarget.outer
  · refine .pure (.plain rfl rfl fun o ho => ?_)
    simp only [List.mem_cons, Array.mem_toList_iff] at ho
    rcases ho with rfl | rfl | ho
    · exact hcond.outer
    · exact hother.outer
    · exact hcases o ho

theorem readIndirectbr_spec : readIndirectbr.Yields Instr.WellFormed := by
  rw [readIndirectbr]
  refine readTypedOperand_spec.bind fun address haddr => .skip fun _ => .skip fun _ => ?_
  refine .skip fun closed => ?_
  by_cases hclosed : closed = true
  · rw [if_pos hclosed]
    exact .pure (.plain rfl rfl (by simp [haddr.outer]))
  · rw [if_neg hclosed]
    refine (Yields.commaSeparated readTypedOperand_spec).bind fun targets htargets => ?_
    refine .skip fun _ => .pure (.plain rfl rfl fun o ho => ?_)
    rcases List.mem_cons.mp ho with rfl | ho
    · exact haddr.outer
    · obtain ⟨p, hp, rfl⟩ := List.mem_map.mp ho
      exact (htargets p hp).outer

/-- An edge of a phi carries an operand of the type of the phi. -/
theorem readEdge_spec (ty : Ty) : (readEdge ty).Yields fun edge => edge.1.Fits ty := by
  rw [readEdge]
  refine .skip fun _ => (readOperand_spec ty).bind fun operand h => ?_
  refine .skip fun _ => .skip fun position => .skip fun kind => ?_
  cases kind
  case localRef id => exact .skip fun _ => .skip fun _ => .pure h
  all_goals exact .unexpected

/-- The operands of a phi and its incoming blocks come from one list of edges, so there are as
many of the one as of the other. The list ends behind an edge and is not empty. -/
theorem readPhi_spec : readPhi.Yields Instr.WellFormed := by
  rw [readPhi]
  refine .skip fun _ => .skip fun ty => ?_
  refine Yields.bind (P := fun edges : Array (Operand × Ident × Position) =>
    (∀ e ∈ edges, e.1.Fits ty) ∧ 0 < edges.size) ?_ fun edges ⟨hedges, hsize⟩ => ?_
  · refine Yields.iterate (I := fun edges : Array (Operand × Ident × Position) =>
      ∀ e ∈ edges, e.1.Fits ty) (fun edges hI => ?_) (by simp)
    refine (readEdge_spec ty).bind fun edge hedge => .skip fun more => .skip fun next => ?_
    -- All edges have the type of the phi, and a round adds one before it can be the last.
    have hpush : ∀ e ∈ edges.push edge, e.1.Fits ty := by
      intro e he
      rcases Array.mem_push.mp he with he | rfl
      · exact hI e he
      · exact hedge
    by_cases hnext : (more && next == TokenKind.opener .square) = true
    · rw [if_pos hnext]
      exact .skip fun _ => .pure hpush
    · rw [if_neg hnext]
      exact .pure ⟨hpush, by simp⟩
  · refine .pure ⟨fun t ht => ?_, fun o ho => ?_, rfl, by simp, by simpa using hsize⟩
    · simp only [List.map_map, List.mem_map, Array.mem_toList_iff, Function.comp_apply] at ht
      obtain ⟨e, he, rfl⟩ := ht
      exact (hedges e he).ty_eq
    · simp only [List.mem_map, Array.mem_toList_iff] at ho
      obtain ⟨e, he, rfl⟩ := ho
      exact (hedges e he).outer

theorem readArgument_spec : readArgument.Yields fun p => p.2.Fits p.1 := by
  rw [readArgument]
  exact .skip fun ty => .skip fun _ => (readOperand_spec ty).bind fun operand h => .pure h

theorem readArguments_spec : readArguments.Yields fun ps => ∀ p ∈ ps, p.2.Fits p.1 := by
  rw [readArguments]
  refine .skip fun _ => .skip fun closed => ?_
  by_cases hclosed : closed = true
  · rw [if_pos hclosed]
    exact .pure (by simp)
  · rw [if_neg hclosed]
    exact (Yields.commaSeparated readArgument_spec).bind fun ps hps => .skip fun _ => .pure hps

/-- Whatever a call gives, what is called is a function with the result of the call. -/
theorem calleeType_snd (given : Ty) (arguments : List Ty) :
    ∃ params vararg, (calleeType given arguments).2
      = .function (calleeType given arguments).1 params vararg := by
  cases given
  case function ret params vararg => exact ⟨params, vararg, rfl⟩
  all_goals exact ⟨arguments, false, rfl⟩

/-- The type of an address is a pointer of the form that the module uses. -/
theorem Context.pointerTo_eq (ctx : Context) (pointee : Ty) (space : Nat) :
    ctx.pointerTo pointee space = .bare space
      ∨ ctx.pointerTo pointee space = .pointer pointee space := by
  unfold Context.pointerTo
  by_cases h : ctx.opaquePointers = true
  · exact .inl (if_pos h)
  · exact .inr (if_neg h)

/-- The type of what is called is known only behind the arguments, and it is the callee alone whose
type is set afterwards. -/
theorem readCall_spec (ctx : Context) : (readCall ctx).Yields Instr.WellFormed := by
  rw [readCall]
  refine .skip fun _ => .skip fun _ => .skip fun given => ?_
  refine (readOperand_spec .void).bind fun callee hcallee => ?_
  refine readArguments_spec.bind fun arguments hargs => ?_
  -- The callee was read at the type `void` for the time being.
  obtain ⟨params, vararg, hfn⟩ := calleeType_snd given (arguments.map (·.1))
  generalize calleeType given (arguments.map (·.1)) = types at hfn
  obtain ⟨ret, function⟩ := types
  dsimp only at hfn
  subst hfn
  have hlast : (callee.withTy (ctx.pointerTo (.function ret params vararg) 0)).Fits
      (ctx.pointerTo (.function ret params vararg) 0) := hcallee.withTy
  refine .pure (.plain rfl ?_ fun o ho => ?_)
  · refine ⟨(arguments.map (·.2)).map Operand.ty, _, List.map_append, ?_⟩
    rw [hlast.ty_eq]
    rcases ctx.pointerTo_eq (.function ret params vararg) 0 with h | h
    · exact .inl h
    · exact .inr ⟨params, vararg, h⟩
  · rcases List.mem_append.mp ho with ho | ho
    · obtain ⟨p, hp, rfl⟩ := List.mem_map.mp ho
      exact (hargs p hp).outer
    · rw [List.mem_singleton.mp ho]
      exact hlast.outer

/-! ## Instructions on memory -/

/-- The count of an allocation is an operand even where the text has none: then it is a constant. -/
theorem readAlloca_spec (ctx : Context) : (readAlloca ctx).Yields Instr.WellFormed := by
  rw [readAlloca]
  refine .skip fun _ => .skip fun allocated => .skip fun counted => .skip fun next => ?_
  have hrest : ∀ count : Operand, count.Outer → Yields (do
      let space ← iterate readAllocaTrailer 0
      return ⟨.alloca, ctx.pointerTo allocated space, [count], .alloca allocated⟩)
      Instr.WellFormed := by
    intro count hcount
    refine .skip fun space => .pure ⟨⟨count.ty, allocated, rfl, rfl, space, ?_⟩, ?_, rfl⟩
    · exact ctx.pointerTo_eq allocated space
    · simpa using hcount
  by_cases hcount : (counted && startsType next) = true
  · rw [if_pos hcount]
    exact .skip fun _ => readTypedOperand_spec.bind fun p h => hrest p.2 h.outer
  · rw [if_neg hcount]
    exact hrest _ (.inl ⟨"1", rfl⟩)

theorem readLoad_spec : readLoad.Yields Instr.WellFormed := by
  rw [readLoad]
  refine .skip fun _ => .skip fun ty => .skip fun _ => ?_
  exact readTypedOperand_spec.bind fun p h => .pure (.plain rfl trivial (by simp [h.outer]))

theorem readStore_spec : readStore.Yields Instr.WellFormed := by
  rw [readStore]
  refine .skip fun _ => readTypedOperand_spec.bind fun value hvalue => .skip fun _ => ?_
  refine readTypedOperand_spec.bind fun address haddr => ?_
  exact .pure (.plain rfl rfl (by simp [hvalue.outer, haddr.outer]))

theorem readCmpxchg_spec : readCmpxchg.Yields Instr.WellFormed := by
  rw [readCmpxchg]
  refine .skip fun _ => readTypedOperand_spec.bind fun address haddr => .skip fun _ => ?_
  refine readTypedOperand_spec.bind fun ⟨ty, expected⟩ hexp => .skip fun _ => ?_
  refine readTypedOperand_spec.bind fun new hnew => .skip fun _ => .pure (.plain rfl ?_ ?_)
  · exact ⟨address.2.ty, ty, new.2.ty, by simp [hexp.ty_eq], rfl⟩
  · simp [haddr.outer, hexp.outer, hnew.outer]

theorem readAtomicrmw_spec : readAtomicrmw.Yields Instr.WellFormed := by
  rw [readAtomicrmw]
  refine .skip fun _ => .skip fun t => ?_
  by_cases ht : isWordOf atomicOperations t = true
  · rw [if_pos ht]
    refine .skip fun _ => readTypedOperand_spec.bind fun address haddr => .skip fun _ => ?_
    refine readTypedOperand_spec.bind fun ⟨ty, value⟩ hvalue => .skip fun _ => ?_
    refine .pure (.plain rfl ?_ (by simp [haddr.outer, hvalue.outer]))
    exact ⟨address.2.ty, by simp [hvalue.ty_eq]⟩
  · rw [if_neg ht]
    refine Yields.bind (P := fun _ => False) .unexpected fun _ h => h.elim

theorem readIndices_spec : readIndices.Yields fun ps => ∀ p ∈ ps, p.2.Outer := by
  rw [readIndices]
  refine Yields.bind (P := fun ps : Array (Ty × Operand) => ∀ p ∈ ps, p.2.Outer) ?_
    fun ps hps => .pure fun p hp => hps p (by simpa using hp)
  refine Yields.iterate (I := fun ps : Array (Ty × Operand) => ∀ p ∈ ps, p.2.Outer)
    (fun ps hI => .skip fun more => .skip fun next => ?_) (by simp)
  by_cases hnext : (more && startsIndex next) = true
  · rw [if_pos hnext]
    refine .skip fun _ => .skip fun _ => readTypedOperand_spec.bind fun p hp => ?_
    refine .pure fun q hq => ?_
    rcases Array.mem_push.mp hq with hq | rfl
    · exact hI q hq
    · exact hp.outer
  · rw [if_neg hnext]
    exact .pure hI

theorem readGetelementptr_spec (ctx : Context) :
    (readGetelementptr ctx).Yields Instr.WellFormed := by
  rw [readGetelementptr]
  refine .skip fun position => .skip fun _ => .skip fun _ => .skip fun source => .skip fun _ => ?_
  refine readTypedOperand_spec.bind fun ⟨baseTy, base⟩ hbase => ?_
  refine readIndices_spec.bind fun indices hindices => ?_
  dsimp only
  cases addressType ctx.types source baseTy.scalar (indices.map (·.2)) with
  | error fault => exact .failAt
  | ok ty =>
    refine .pure (.plain rfl trivial fun o ho => ?_)
    rcases List.mem_cons.mp ho with rfl | ho
    · exact hbase.outer
    · obtain ⟨p, hp, rfl⟩ := List.mem_map.mp ho
      exact hindices p hp

/-! ## Operations on values -/

theorem readFneg_spec : readFneg.Yields Instr.WellFormed := by
  rw [readFneg]
  refine .skip fun _ => readTypedOperand_spec.bind fun ⟨ty, operand⟩ h => ?_
  exact .pure (.plain rfl (by simp [Opcode.Typing, h.ty_eq]) (by simp [h.outer]))

theorem readBinary_spec (op : BinaryOp) : (readBinary op).Yields Instr.WellFormed := by
  rw [readBinary]
  refine .skip fun _ => .skip fun ty => (readOperand_spec ty).bind fun lhs hlhs => ?_
  refine .skip fun _ => (readOperand_spec ty).bind fun rhs hrhs => .pure (.plain rfl ?_ ?_)
  · simp [Opcode.Typing, hlhs.ty_eq, hrhs.ty_eq]
  · simp [hlhs.outer, hrhs.outer]

theorem readCast_spec (op : CastOp) : (readCast op).Yields Instr.WellFormed := by
  rw [readCast]
  refine .skip fun _ => readTypedOperand_spec.bind fun p h => .skip fun _ => .skip fun ty => ?_
  exact .pure (.plain rfl trivial (by simp [h.outer]))

/-- A comparison holds the predicate that its word names, and its opcode decides among which
predicates the word is looked for. -/
theorem readCompare_spec {opcode : Opcode} {predicate? : String → Option Predicate}
    (hopcode : opcode = .icmp ∨ opcode = .fcmp)
    (hpredicate : ∀ w p n, predicate? w = some p → (Detail.compare p).Suits opcode n) :
    (readCompare opcode predicate?).Yields Instr.WellFormed := by
  rw [readCompare]
  refine .skip fun _ => .skip fun kind => ?_
  cases kind with
  | word w =>
    dsimp only
    cases hp : predicate? w with
    | none => exact .unexpected
    | some p =>
      refine .skip fun _ => .skip fun ty => (readOperand_spec ty).bind fun lhs hlhs => ?_
      refine .skip fun _ => (readOperand_spec ty).bind fun rhs hrhs => ?_
      refine .pure ⟨?_, ?_, hpredicate w p _ hp⟩
      · rcases hopcode with rfl | rfl <;> exact ⟨ty, by simp [hlhs.ty_eq, hrhs.ty_eq], rfl⟩
      · simp [hlhs.outer, hrhs.outer]
  | _ => exact .unexpected

theorem readSelect_spec : readSelect.Yields Instr.WellFormed := by
  rw [readSelect]
  refine .skip fun _ => readTypedOperand_spec.bind fun condition hcond => .skip fun _ => ?_
  refine readTypedOperand_spec.bind fun ⟨ty, onTrue⟩ htrue => .skip fun _ => ?_
  refine readTypedOperand_spec.bind fun onFalse hfalse => .pure (.plain rfl ?_ ?_)
  · exact ⟨condition.2.ty, onFalse.2.ty, by simp [htrue.ty_eq]⟩
  · simp [hcond.outer, htrue.outer, hfalse.outer]

theorem readVaArg_spec : readVaArg.Yields Instr.WellFormed := by
  rw [readVaArg]
  refine readTypedOperand_spec.bind fun p h => .skip fun _ => .skip fun ty => ?_
  exact .pure (.plain rfl trivial (by simp [h.outer]))

theorem readFreeze_spec : readFreeze.Yields Instr.WellFormed := by
  rw [readFreeze]
  refine readTypedOperand_spec.bind fun ⟨ty, operand⟩ h => ?_
  exact .pure (.plain rfl (by simp [Opcode.Typing, h.ty_eq]) (by simp [h.outer]))

/-! ## Vectors and aggregates -/

theorem readExtractelement_spec (position : Position) :
    (readExtractelement position).Yields Instr.WellFormed := by
  rw [readExtractelement]
  refine readTypedOperand_spec.bind fun ⟨ty, vector⟩ hvec => .skip fun _ => ?_
  refine readTypedOperand_spec.bind fun index hidx => ?_
  dsimp only
  cases helem : ty.element? with
  | none => exact .failAt
  | some elem =>
    refine .pure (.plain rfl ⟨ty, index.2.ty, ?_, helem⟩ (by simp [hvec.outer, hidx.outer]))
    simp [hvec.ty_eq]

theorem readInsertelement_spec : readInsertelement.Yields Instr.WellFormed := by
  rw [readInsertelement]
  refine readTypedOperand_spec.bind fun ⟨ty, vector⟩ hvec => .skip fun _ => ?_
  refine readTypedOperand_spec.bind fun elem helem => .skip fun _ => ?_
  refine readTypedOperand_spec.bind fun index hidx => .pure (.plain rfl ?_ ?_)
  · exact ⟨elem.2.ty, index.2.ty, by simp [hvec.ty_eq]⟩
  · simp [hvec.outer, helem.outer, hidx.outer]

theorem readShufflevector_spec (position : Position) :
    (readShufflevector position).Yields Instr.WellFormed := by
  rw [readShufflevector]
  refine readTypedOperand_spec.bind fun ⟨ty, lhs⟩ hlhs => .skip fun _ => ?_
  refine readTypedOperand_spec.bind fun rhs hrhs => .skip fun _ => .skip fun mask => ?_
  dsimp only
  cases ty.element? with
  | none => exact .failAt
  | some elem => exact .pure (.plain rfl trivial (by simp [hlhs.outer, hrhs.outer]))

theorem readExtractvalue_spec (ctx : Context) (position : Position) :
    (readExtractvalue ctx position).Yields Instr.WellFormed := by
  rw [readExtractvalue]
  refine readTypedOperand_spec.bind fun ⟨ty, aggregate⟩ hagg => .skip fun indices => ?_
  cases ctx.types.indexed ty (indices.map some) with
  | error fault => exact .failAt
  | ok part => exact .pure (.plain rfl trivial (by simp [hagg.outer]))

theorem readInsertvalue_spec : readInsertvalue.Yields Instr.WellFormed := by
  rw [readInsertvalue]
  refine readTypedOperand_spec.bind fun ⟨ty, aggregate⟩ hagg => .skip fun _ => ?_
  refine readTypedOperand_spec.bind fun value hvalue => .skip fun _ => .pure (.plain rfl ?_ ?_)
  · exact ⟨value.2.ty, by simp [hagg.ty_eq]⟩
  · simp [hagg.outer, hvalue.outer]

/-! ## All instructions -/

theorem readOperation_spec (ctx : Context) (position : Position) (opcode : Opcode) :
    (readOperation ctx position opcode).Yields Instr.WellFormed := by
  cases opcode with
  | ret => exact readRet_spec
  | br => exact readBr_spec
  | switch => exact readSwitch_spec
  | indirectbr => exact readIndirectbr_spec
  | unreachable => exact .pure (.plain rfl rfl (by simp))
  | fneg => exact readFneg_spec
  | binary op => exact readBinary_spec op
  | alloca => exact readAlloca_spec ctx
  | load => exact readLoad_spec
  | store => exact readStore_spec
  | getelementptr => exact readGetelementptr_spec ctx
  | fence => exact .pure (.plain rfl rfl (by simp))
  | cmpxchg => exact readCmpxchg_spec
  | atomicrmw => exact readAtomicrmw_spec
  | cast op => exact readCast_spec op
  | icmp =>
    refine readCompare_spec (.inl rfl) fun w p n hp => ?_
    obtain ⟨q, _, rfl⟩ := Option.map_eq_some_iff.mp hp
    rfl
  | fcmp =>
    refine readCompare_spec (.inr rfl) fun w p n hp => ?_
    obtain ⟨q, _, rfl⟩ := Option.map_eq_some_iff.mp hp
    rfl
  | phi => exact readPhi_spec
  | call => exact readCall_spec ctx
  | select => exact readSelect_spec
  | vaArg => exact readVaArg_spec
  | extractelement => exact readExtractelement_spec position
  | insertelement => exact readInsertelement_spec
  | shufflevector => exact readShufflevector_spec position
  | extractvalue => exact readExtractvalue_spec ctx position
  | insertvalue => exact readInsertvalue_spec
  | freeze => exact readFreeze_spec

/-- **Every instruction that is read obeys the typing rule of its opcode**, at the types that its
operands are written at. -/
theorem readInstr_spec (ctx : Context) : (readInstr ctx).Yields Instr.WellFormed := by
  rw [readInstr]
  refine .skip fun _ => .skip fun kind => ?_
  cases kind
  case word w =>
    dsimp only
    cases Opcode.ofMnemonic? w with
    | none => exact .unexpected
    | some opcode =>
      exact .skip fun position => .skip fun _ => readOperation_spec ctx position opcode
  all_goals exact .unexpected

end Draft

end IrRecords
