import IrRecords.Draft.Instr
import IrRecords.Proofs.Draft.SameOperands

/-!
# Instructions are read alike

In two texts with the same tokens the same instructions are read, with the same operands
(`SameInstr`). The lemmas follow the readers, one for each. Two things are looked at besides the
tokens: the place of an instruction, where faults of some are told, and the numbers among the indices
of an address, which its type depends on (`addressType_eq`).
-/

namespace IrRecords.Draft

open Reader

variable {T : Twins}

/-- The same label of a block. -/
def SameLabel (T : Twins) (x x' : Ident × Position) : Prop := x'.1 = x.1 ∧ T.At x.2 x'.2

/-- The same details. -/
inductive SameDetail (T : Twins) : Detail → Detail → Prop
  | plain : SameDetail T .plain .plain
  | compare (p : Predicate) : SameDetail T (.compare p) (.compare p)
  | alloca (ty : Ty) : SameDetail T (.alloca ty) (.alloca ty)
  | phi {incoming incoming' : List (Ident × Position)}
      (h : List.Forall₂ (SameLabel T) incoming incoming') :
      SameDetail T (.phi incoming) (.phi incoming')

/-- The same instruction in the two texts. -/
structure SameInstr (T : Twins) (i i' : Instr) : Prop where
  opcode : i'.opcode = i.opcode
  ty : i'.ty = i.ty
  operands : List.Forall₂ (SameOperand T) i.operands i'.operands
  detail : SameDetail T i.detail i'.detail

theorem SameInstr.plain (opcode : Opcode) (ty : Ty) {operands operands' : List Operand}
    (h : List.Forall₂ (SameOperand T) operands operands') :
    SameInstr T (.plain opcode ty operands) (.plain opcode ty operands') :=
  ⟨rfl, rfl, h, .plain⟩

/-! ## Control -/

theorem keeps_readRet : Keeps T (SameInstr T) readRet := by
  rw [readRet]
  refine (steady_acceptWord _).bind fun void => ?_
  split
  · exact .pure (.plain _ _ .nil)
  · exact agrees_readTypedOperand fun _ _ _ h => .pure (.plain _ _ (.cons h .nil))

theorem keeps_readBr : Keeps T (SameInstr T) readBr := by
  rw [readBr]
  refine agrees_readTypedOperand fun ty o o' h => ?_
  dsimp only
  split
  · exact .pure (.plain _ _ (.cons h .nil))
  · refine .after steady_expectComma fun _ => agrees_readTypedOperand fun _ _ _ ht => ?_
    refine .after steady_expectComma fun _ => agrees_readTypedOperand fun _ _ _ hf => ?_
    exact .pure (.plain _ _ (.cons h (.cons hf (.cons ht .nil))))

theorem keeps_readSwitch : Keeps T (SameInstr T) readSwitch := by
  rw [readSwitch]
  refine agrees_readTypedOperand fun _ _ _ hc => .after steady_expectComma fun _ => ?_
  refine agrees_readTypedOperand fun _ _ _ hd => .after (steady_expect _ _) fun _ => ?_
  refine Agrees.bind (A := SameItems (SameOperand T)) (.iterate (I := SameItems (SameOperand T))
    (fun cases cases' hcases => .after (steady_accept _) fun closes => ?_) .nil)
    fun cases cases' hcases => .pure (.plain _ _ (.cons hc (.cons hd hcases)))
  split
  · exact .pure (.done hcases)
  · refine agrees_readTypedOperand fun _ _ _ hv => .after steady_expectComma fun _ => ?_
    exact agrees_readTypedOperand fun _ _ _ ht => .pure (.again ((hcases.push hv).push ht))

theorem keeps_readIndirectbr : Keeps T (SameInstr T) readIndirectbr := by
  rw [readIndirectbr]
  refine agrees_readTypedOperand fun _ _ _ h => .after steady_expectComma fun _ => ?_
  refine .after (steady_expect _ _) fun _ => .after (steady_accept _) fun closes => ?_
  split
  · exact .pure (.plain _ _ (.cons h .nil))
  · refine Agrees.bind (.commaSeparated keeps_readTypedOperand) fun targets targets' ht => ?_
    exact .after (steady_expect _ _) fun _ => .pure (.plain _ _ (.cons h (operands_eq ht).2))

/-- The same edge of a phi. -/
structure SameEdge (T : Twins) (x x' : Operand × Ident × Position) : Prop where
  operand : SameOperand T x.1 x'.1
  label : SameLabel T x.2 x'.2

theorem keeps_readEdge (ty : Ty) : Keeps T (SameEdge T) (readEdge ty) := by
  rw [readEdge]
  refine (steady_expect _ _).bind fun _ => Agrees.bind (keeps_readOperand ty) fun o o' ho => ?_
  refine .after steady_expectComma fun _ => Agrees.bind keeps_position fun p p' hp => ?_
  refine .after steady_kind fun k => ?_
  split
  · exact .after steady_advance fun _ => .after (steady_expect _ _) fun _ => .pure ⟨ho, rfl, hp⟩
  · exact keeps_unexpected _

theorem edges_eq {xs xs' : List (Operand × Ident × Position)}
    (h : List.Forall₂ (SameEdge T) xs xs') :
    List.Forall₂ (SameOperand T) (xs.map (·.1)) (xs'.map (·.1))
      ∧ List.Forall₂ (SameLabel T) (xs.map (·.2)) (xs'.map (·.2)) := by
  induction h with
  | nil => exact ⟨.nil, .nil⟩
  | cons hx _ ih => exact ⟨.cons hx.operand ih.1, .cons hx.label ih.2⟩

theorem keeps_readPhi : Keeps T (SameInstr T) readPhi := by
  rw [readPhi]
  refine (steady_skipWords _).bind fun _ => Ty.steady_read.bind fun ty => ?_
  refine Agrees.bind (A := SameItems (SameEdge T)) (.iterate (I := SameItems (SameEdge T))
    (fun edges edges' hedges => Agrees.bind (keeps_readEdge ty) fun edge edge' hedge => ?_) .nil)
    fun edges edges' hedges => .pure ⟨rfl, rfl, (edges_eq hedges).1, .phi (edges_eq hedges).2⟩
  refine .after (steady_isAt _) fun more => .after steady_nextKind fun k => ?_
  split
  · exact .after steady_advance fun _ => .pure (.again (hedges.push hedge))
  · exact .pure (.done (hedges.push hedge))

theorem keeps_readArgument : Keeps T (SameTyped T) readArgument := by
  rw [readArgument]
  refine Ty.steady_read.bind fun ty => (steady_skipAttributes _ _).bind fun _ => ?_
  exact Agrees.bind (keeps_readOperand ty) fun _ _ h => .pure ⟨rfl, h⟩

theorem keeps_readArguments : Keeps T (List.Forall₂ (SameTyped T)) readArguments := by
  rw [readArguments]
  refine (steady_expect _ _).bind fun _ => (steady_accept _).bind fun closes => ?_
  split
  · exact .pure .nil
  · refine Agrees.bind (.commaSeparated keeps_readArgument) fun arguments arguments' h => ?_
    exact .after (steady_expect _ _) fun _ => .pure h

theorem keeps_readCall (ctx : Context) : Keeps T (SameInstr T) (readCall ctx) := by
  rw [readCall]
  refine (steady_skipWords _).bind fun _ => (steady_skipAttributes _ _).bind fun _ => ?_
  refine Ty.steady_read.bind fun given => Agrees.bind (keeps_readOperand .void) fun o o' ho => ?_
  refine Agrees.bind keeps_readArguments fun arguments arguments' h => ?_
  obtain ⟨htypes, hoperands⟩ := operands_eq h
  rw [htypes]
  exact .pure (.plain _ _ (List.rel_append hoperands (.cons (ho.withTy _) .nil)))

/-! ## Memory -/

theorem steady_readAllocaTrailer (space : Nat) : Steady T (readAllocaTrailer space) := by
  rw [readAllocaTrailer]
  refine (steady_isAt _).bind fun more => ?_
  split
  · refine steady_nextKind.bind fun k => ?_
    split
    · exact steady_advance.bind fun _ => Ty.steady_readSpace.bind fun _ => .pure rfl
    · refine steady_advance.bind fun _ => steady_advance.bind fun _ => ?_
      exact (steady_expectNumber _ _).bind fun _ => .pure rfl
    · exact .pure rfl
  · exact .pure rfl

theorem keeps_readAlloca (ctx : Context) : Keeps T (SameInstr T) (readAlloca ctx) := by
  rw [readAlloca]
  refine (steady_skipWords _).bind fun _ => Ty.steady_read.bind fun allocated => ?_
  refine (steady_isAt _).bind fun counted => steady_nextKind.bind fun k => ?_
  have hrest : ∀ o o', SameOperand T o o' → Agrees T (SameInstr T)
      (do return ⟨.alloca, ctx.pointerTo allocated (← iterate readAllocaTrailer 0), [o],
        .alloca allocated⟩)
      (do return ⟨.alloca, ctx.pointerTo allocated (← iterate readAllocaTrailer 0), [o'],
        .alloca allocated⟩) :=
    fun o o' h => .after (Steady.iterate steady_readAllocaTrailer 0) fun _ =>
      .pure ⟨rfl, rfl, .cons h .nil, .alloca _⟩
  dsimp only
  split
  · refine steady_advance.bind fun _ => agrees_readTypedOperand fun _ _ _ h => ?_
    exact Agrees.bind (.pure h) hrest
  · exact Agrees.bind (.pure (.refl T _)) hrest

theorem keeps_readLoad : Keeps T (SameInstr T) readLoad := by
  rw [readLoad]
  refine (steady_skipWords _).bind fun _ => Ty.steady_read.bind fun ty => ?_
  refine steady_expectComma.bind fun _ => agrees_readTypedOperand fun _ _ _ h => ?_
  exact .pure (.plain _ _ (.cons h .nil))

theorem keeps_readStore : Keeps T (SameInstr T) readStore := by
  rw [readStore]
  refine (steady_skipWords _).bind fun _ => agrees_readTypedOperand fun _ _ _ hv => ?_
  refine .after steady_expectComma fun _ => agrees_readTypedOperand fun _ _ _ ha => ?_
  exact .pure (.plain _ _ (.cons hv (.cons ha .nil)))

theorem steady_skipOrdering : Steady T skipOrdering := by
  rw [skipOrdering]
  refine (steady_acceptWord _).bind fun found => ?_
  split
  · refine (steady_isAt _).bind fun opens => ?_
    split
    · exact steady_skipGroup.bind fun _ => steady_skipWords _
    · exact Steady.bind (.pure rfl) fun _ => steady_skipWords _
  · exact Steady.bind (.pure rfl) fun _ => steady_skipWords _

theorem keeps_readCmpxchg : Keeps T (SameInstr T) readCmpxchg := by
  rw [readCmpxchg]
  refine (steady_skipWords _).bind fun _ => agrees_readTypedOperand fun _ _ _ ha => ?_
  refine .after steady_expectComma fun _ => agrees_readTypedOperand fun _ _ _ he => ?_
  refine .after steady_expectComma fun _ => agrees_readTypedOperand fun _ _ _ hr => ?_
  exact .after steady_skipOrdering fun _ => .pure (.plain _ _ (.cons ha (.cons he (.cons hr .nil))))

theorem keeps_readAtomicrmw : Keeps T (SameInstr T) readAtomicrmw := by
  rw [readAtomicrmw]
  refine (steady_acceptWord _).bind fun _ => Agrees.bind keeps_current fun t t' ht => ?_
  have hword : isWordOf atomicOperations t' = isWordOf atomicOperations t := by
    rw [isWordOf, isWordOf, ht.kind]
  rw [hword]
  dsimp only
  split
  on_goal 1 => refine .after steady_advance fun _ => ?_
  on_goal 2 => refine .after (keeps_unexpected _) fun _ => ?_
  -- The operands follow in either case.
  all_goals
    refine agrees_readTypedOperand fun _ _ _ ha => .after steady_expectComma fun _ => ?_
    refine agrees_readTypedOperand fun _ _ _ hv => .after steady_skipOrdering fun _ => ?_
    exact .pure (.plain _ _ (.cons ha (.cons hv .nil)))

theorem steady_skipInrange : Steady T skipInrange := by
  rw [skipInrange]
  refine (steady_acceptWord _).bind fun found => ?_
  split
  · refine (steady_isAt _).bind fun opens => ?_
    split
    · exact steady_skipGroup
    · exact .pure rfl
  · exact .pure rfl

theorem keeps_readIndices : Keeps T (List.Forall₂ (SameTyped T)) readIndices := by
  rw [readIndices]
  refine Agrees.bind (A := SameItems (SameTyped T)) (.iterate (I := SameItems (SameTyped T))
    (fun indices indices' h => .after (steady_isAt _) fun more => ?_) .nil)
    fun indices indices' h => .pure h
  refine .after steady_nextKind fun k => ?_
  split
  · refine .after steady_advance fun _ => .after steady_skipInrange fun _ => ?_
    exact Agrees.bind keeps_readTypedOperand fun _ _ hindex => .pure (.again (h.push hindex))
  · exact .pure (.done h)

theorem constantIndices_eq {os os' : List Operand} (h : List.Forall₂ (SameOperand T) os os') :
    os'.map (·.constantIndex?) = os.map (·.constantIndex?) := by
  induction h with
  | nil => rfl
  | cons ho _ ih => rw [List.map_cons, List.map_cons, ho.constantIndex?, ih]

/-- The same indices lead to the same type. -/
theorem addressType_eq {os os' : List Operand} (h : List.Forall₂ (SameOperand T) os os')
    (types : TypeTable) (source base : Ty) :
    addressType types source base os' = addressType types source base os := by
  have htail : os'.tail.map (·.constantIndex?) = os.tail.map (·.constantIndex?) := by
    rw [List.map_tail, List.map_tail, constantIndices_eq h]
  unfold addressType
  rw [htail]

theorem keeps_readGetelementptr (ctx : Context) :
    Keeps T (SameInstr T) (readGetelementptr ctx) := by
  rw [readGetelementptr]
  refine Agrees.bind keeps_position fun p p' hp => .after (steady_skipWords _) fun _ => ?_
  refine .after steady_skipInrange fun _ => .after Ty.steady_read fun source => ?_
  refine .after steady_expectComma fun _ => agrees_readTypedOperand fun ty o o' ho => ?_
  refine Agrees.bind keeps_readIndices fun indices indices' h => ?_
  obtain ⟨htypes, hoperands⟩ := operands_eq h
  dsimp only
  rw [htypes, addressType_eq hoperands]
  split
  · exact agrees_failAt hp _
  · exact .pure (.plain _ _ (.cons ho hoperands))

/-! ## Arithmetic, vectors and aggregates -/

theorem keeps_readFneg : Keeps T (SameInstr T) readFneg := by
  rw [readFneg]
  refine (steady_skipWords _).bind fun _ => agrees_readTypedOperand fun _ _ _ h => ?_
  exact .pure (.plain _ _ (.cons h .nil))

theorem keeps_readBinary (op : BinaryOp) : Keeps T (SameInstr T) (readBinary op) := by
  rw [readBinary]
  refine (steady_skipWords _).bind fun _ => Ty.steady_read.bind fun ty => ?_
  refine Agrees.bind (keeps_readOperand ty) fun _ _ hl => .after steady_expectComma fun _ => ?_
  exact Agrees.bind (keeps_readOperand ty) fun _ _ hr => .pure (.plain _ _ (.cons hl (.cons hr .nil)))

theorem keeps_readCast (op : CastOp) : Keeps T (SameInstr T) (readCast op) := by
  rw [readCast]
  refine (steady_skipWords _).bind fun _ => agrees_readTypedOperand fun _ _ _ h => ?_
  refine .after (steady_expectWord _) fun _ => .after Ty.steady_read fun ty => ?_
  exact .pure (.plain _ _ (.cons h .nil))

theorem keeps_readCompare (opcode : Opcode) (predicate? : String → Option Predicate) :
    Keeps T (SameInstr T) (readCompare opcode predicate?) := by
  rw [readCompare]
  refine (steady_skipWords _).bind fun _ => steady_kind.bind fun k => ?_
  dsimp only
  split
  · exact keeps_unexpected _
  · refine steady_advance.bind fun _ => Ty.steady_read.bind fun ty => ?_
    refine Agrees.bind (keeps_readOperand ty) fun _ _ hl => .after steady_expectComma fun _ => ?_
    refine Agrees.bind (keeps_readOperand ty) fun _ _ hr => .pure ?_
    exact ⟨rfl, rfl, .cons hl (.cons hr .nil), .compare _⟩

theorem keeps_readSelect : Keeps T (SameInstr T) readSelect := by
  rw [readSelect]
  refine (steady_skipWords _).bind fun _ => agrees_readTypedOperand fun _ _ _ hc => ?_
  refine .after steady_expectComma fun _ => agrees_readTypedOperand fun _ _ _ ht => ?_
  refine .after steady_expectComma fun _ => agrees_readTypedOperand fun _ _ _ hf => ?_
  exact .pure (.plain _ _ (.cons hc (.cons ht (.cons hf .nil))))

theorem keeps_readVaArg : Keeps T (SameInstr T) readVaArg := by
  rw [readVaArg]
  refine agrees_readTypedOperand fun _ _ _ h => .after steady_expectComma fun _ => ?_
  exact .after Ty.steady_read fun _ => .pure (.plain _ _ (.cons h .nil))

theorem keeps_readFreeze : Keeps T (SameInstr T) readFreeze := by
  rw [readFreeze]
  exact agrees_readTypedOperand fun _ _ _ h => .pure (.plain _ _ (.cons h .nil))

variable {p p' : Position}

theorem agrees_readExtractelement (hp : T.At p p') :
    Agrees T (SameInstr T) (readExtractelement p) (readExtractelement p') := by
  rw [readExtractelement, readExtractelement]
  refine agrees_readTypedOperand fun ty _ _ hv => .after steady_expectComma fun _ => ?_
  refine agrees_readTypedOperand fun _ _ _ hi => ?_
  dsimp only
  split
  · exact .pure (.plain _ _ (.cons hv (.cons hi .nil)))
  · exact agrees_failAt hp _

theorem keeps_readInsertelement : Keeps T (SameInstr T) readInsertelement := by
  rw [readInsertelement]
  refine agrees_readTypedOperand fun _ _ _ hv => .after steady_expectComma fun _ => ?_
  refine agrees_readTypedOperand fun _ _ _ he => .after steady_expectComma fun _ => ?_
  exact agrees_readTypedOperand fun _ _ _ hi =>
    .pure (.plain _ _ (.cons hv (.cons he (.cons hi .nil))))

theorem agrees_readShufflevector (hp : T.At p p') :
    Agrees T (SameInstr T) (readShufflevector p) (readShufflevector p') := by
  rw [readShufflevector, readShufflevector]
  refine agrees_readTypedOperand fun ty _ _ hl => .after steady_expectComma fun _ => ?_
  refine agrees_readTypedOperand fun _ _ _ hr => .after steady_expectComma fun _ => ?_
  refine agrees_readTypedOperand fun mask _ _ _ => ?_
  dsimp only
  split
  · exact .pure (.plain _ _ (.cons hl (.cons hr .nil)))
  · exact agrees_failAt hp _

theorem steady_readAggregateIndices : Steady T readAggregateIndices := by
  rw [readAggregateIndices]
  refine Steady.bind (.iterate (fun indices => (steady_isAt _).bind fun more => ?_) #[])
    fun indices => ?_
  · refine steady_nextKind.bind fun k => ?_
    split
    · refine steady_advance.bind fun _ => (steady_expectNumber _ _).bind fun _ => ?_
      exact .pure rfl
    · exact .pure rfl
  · split
    · exact keeps_unexpected _
    · exact .pure rfl

theorem agrees_readExtractvalue (ctx : Context) (hp : T.At p p') :
    Agrees T (SameInstr T) (readExtractvalue ctx p) (readExtractvalue ctx p') := by
  rw [readExtractvalue, readExtractvalue]
  refine agrees_readTypedOperand fun ty _ _ h => .after steady_readAggregateIndices fun _ => ?_
  split
  · exact .pure (.plain _ _ (.cons h .nil))
  · exact agrees_failAt hp _

theorem keeps_readInsertvalue : Keeps T (SameInstr T) readInsertvalue := by
  rw [readInsertvalue]
  refine agrees_readTypedOperand fun _ _ _ ha => .after steady_expectComma fun _ => ?_
  refine agrees_readTypedOperand fun _ _ _ hv => .after steady_readAggregateIndices fun _ => ?_
  exact .pure (.plain _ _ (.cons ha (.cons hv .nil)))

/-! ## All instructions -/

theorem agrees_readOperation (ctx : Context) (hp : T.At p p') (opcode : Opcode) :
    Agrees T (SameInstr T) (readOperation ctx p opcode) (readOperation ctx p' opcode) := by
  cases opcode with
  | ret => exact keeps_readRet
  | br => exact keeps_readBr
  | switch => exact keeps_readSwitch
  | indirectbr => exact keeps_readIndirectbr
  | unreachable => exact .pure (.plain _ _ .nil)
  | fneg => exact keeps_readFneg
  | binary op => exact keeps_readBinary op
  | alloca => exact keeps_readAlloca ctx
  | load => exact keeps_readLoad
  | store => exact keeps_readStore
  | getelementptr => exact keeps_readGetelementptr ctx
  | fence => exact .pure (.plain _ _ .nil)
  | cmpxchg => exact keeps_readCmpxchg
  | atomicrmw => exact keeps_readAtomicrmw
  | cast op => exact keeps_readCast op
  | icmp => exact keeps_readCompare _ _
  | fcmp => exact keeps_readCompare _ _
  | phi => exact keeps_readPhi
  | call => exact keeps_readCall ctx
  | select => exact keeps_readSelect
  | vaArg => exact keeps_readVaArg
  | extractelement => exact agrees_readExtractelement hp
  | insertelement => exact keeps_readInsertelement
  | shufflevector => exact agrees_readShufflevector hp
  | extractvalue => exact agrees_readExtractvalue ctx hp
  | insertvalue => exact keeps_readInsertvalue
  | freeze => exact keeps_readFreeze

/-- **The same instruction is read in both texts.** -/
theorem keeps_readInstr (ctx : Context) : Keeps T (SameInstr T) (readInstr ctx) := by
  rw [readInstr]
  refine (steady_skipWords _).bind fun _ => steady_kind.bind fun k => ?_
  split
  · split
    · refine Agrees.bind keeps_position fun p p' hp => .after steady_advance fun _ => ?_
      exact agrees_readOperation ctx hp _
    · exact keeps_unexpected _
  · exact keeps_unexpected _

end IrRecords.Draft
