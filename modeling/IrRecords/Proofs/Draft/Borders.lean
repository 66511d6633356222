import IrRecords.Draft.Instr
import IrRecords.Proofs.Draft.Writing
import IrRecords.Proofs.Reader.Traps
import IrRecords.Proofs.Ty.Borders

/-!
# Instructions end where a part ends

Constants, operands and nearly all instructions are read alike at the end of a text and in front of another part.
An allocation and an address computation go on behind a comma if what follows looks like one more operand, and
the name of a struct that is defined there does. Of these two only the weaker judgement `Dooms` holds, and so of
instructions in general: `dooms_readOperation` has one case for each opcode.
-/

namespace IrRecords.Draft

open Reader

variable {B : Border}

/-! ## Constants and metadata -/

theorem extends_passString (what : String) : Local B (passString what) := by
  rw [passString]
  refine .kind_of_starves (fun k => ?_) (starves_unexpected what)
  split
  · exact extendsInside_advance
  · exact (extends_unexpected what).inside

theorem extends_passGlobal : Local B passGlobal := by
  rw [passGlobal]
  refine .kind_of_starves (fun k => ?_) (starves_unexpected _)
  split
  · exact extendsInside_advance
  · exact (extends_unexpected _).inside

/-- A constant expression is a row of words, which might go on behind the part, and a group. -/
theorem extends_passExpression :
    Local B (do
      skipWhile isWord
      if ← isAt (.opener .round) then skipGroup else unexpected "a value") := by
  refine (strays_skipWhile isWord).extends (fun _ => ?_) fun _ _ => ?_
  · refine .isAt_all rfl fun grouped => ?_
    split
    · exact extends_skipGroup
    · exact extends_unexpected _
  · exact .isAt TokenKind.noConfusion (starves_unexpected _)

theorem extendsInside_passWordConstant (w : String) :
    ExtendsInside B (passWordConstant w) (passWordConstant w) := by
  unfold passWordConstant
  split
  · exact extendsInside_advance
  · split
    · refine extendsInside_advance.bind fun _ => (extends_skipWords (by decide)).bind fun _ => ?_
      refine (extends_passString _).bind fun _ => extends_expectComma.bind fun _ => ?_
      exact extends_passString _
    · split
      · exact extendsInside_advance.bind fun _ => extends_passGlobal
      · exact extends_passExpression.inside

theorem starves_passConstant : passConstant.Starves := .kind (starves_unexpected _)

theorem extends_passConstant : Local B passConstant := by
  rw [passConstant]
  refine .kind_of_starves (fun k => ?_) (starves_unexpected _)
  split
  · exact extendsInside_advance
  · exact extendsInside_advance
  · exact extendsInside_advance
  · exact extends_skipGroup.inside
  · exact extends_skipGroup.inside
  · exact extends_skipGroup.inside
  · exact extendsInside_passWordConstant _
  · exact (extends_unexpected _).inside

theorem starves_passMetadata : passMetadata.Starves := .kind (Starves.bind Ty.starves_read)

theorem extends_passMetadata : Local B passMetadata := by
  rw [passMetadata]
  refine .kind_of_starves (fun k => ?_) (Starves.bind Ty.starves_read)
  split
  · refine extendsInside_advance.bind fun _ => .isAt_all rfl fun grouped => ?_
    split
    · exact extends_skipGroup
    · exact extends_pure _
  · refine extendsInside_advance.bind fun _ => ?_
    refine .kind_of_starves (fun k => ?_) (starves_unexpected _)
    split
    · exact extends_skipGroup.inside
    · exact extendsInside_advance
    · exact (extends_unexpected _).inside
  · refine (Ty.extends_read.bind fun _ => ?_).inside
    refine .kind_of_starves (fun k => ?_) starves_passConstant
    split
    · exact extendsInside_advance
    · exact extendsInside_advance
    · exact extends_passConstant.inside

/-! ## Operands -/

theorem starves_readOperand (ty : Ty) : (readOperand ty).Starves := by
  rw [readOperand]
  split
  · exact Starves.bind (starves_passedText starves_passMetadata)
  · exact .position fun _ => .kind (Starves.bind (starves_passedText starves_passConstant))

theorem extends_readOperand (ty : Ty) : Local B (readOperand ty) := by
  rw [readOperand]
  split
  · exact extends_passMetadata.passedText.bind fun _ => extends_pure _
  · refine .position (fun p => .kind fun k => ?_) fun p => .kind ?_
    · split
      · exact extendsInside_advance.bind fun _ => extends_pure _
      · exact extendsInside_advance.bind fun _ => extends_pure _
      · exact (extends_passConstant.passedText.bind fun _ => extends_pure _).inside
    · exact Starves.bind (starves_passedText starves_passConstant)

theorem extends_readTypedOperand : Local B readTypedOperand :=
  Ty.extends_read.bind fun _ => (extends_readOperand _).bind fun _ => extends_pure _

/-! ## Control -/

theorem extends_readRet : Local B readRet := by
  rw [readRet]
  refine (extends_acceptWord rfl).bind fun isVoid => ?_
  split
  · exact extends_pure _
  · exact extends_readTypedOperand.bind fun _ => extends_pure _

theorem extends_readBr : Local B readBr := by
  rw [readBr]
  refine extends_readTypedOperand.bind fun first => ?_
  dsimp only
  split
  · exact extends_pure _
  · refine extends_expectComma.bind fun _ => extends_readTypedOperand.bind fun _ => ?_
    refine extends_expectComma.bind fun _ => extends_readTypedOperand.bind fun _ => ?_
    exact extends_pure _

theorem extends_readSwitch : Local B readSwitch := by
  rw [readSwitch]
  refine extends_readTypedOperand.bind fun _ => extends_expectComma.bind fun _ => ?_
  refine extends_readTypedOperand.bind fun _ => ?_
  refine (extends_expect TokenKind.noConfusion _).bind fun _ => ?_
  refine Extends.bind (.iterate (fun cases => (extends_accept rfl).bind fun _ => ?_) #[])
    fun _ => extends_pure _
  split
  · exact extends_pure _
  · refine extends_readTypedOperand.bind fun _ => extends_expectComma.bind fun _ => ?_
    exact extends_readTypedOperand.bind fun _ => extends_pure _

theorem extends_readIndirectbr : Local B readIndirectbr := by
  rw [readIndirectbr]
  refine extends_readTypedOperand.bind fun _ => extends_expectComma.bind fun _ => ?_
  refine (extends_expect TokenKind.noConfusion _).bind fun _ => (extends_accept rfl).bind fun _ => ?_
  split
  · exact extends_pure _
  · refine extends_readTypedOperand.commaSeparated.bind fun _ => ?_
    exact (extends_expect TokenKind.noConfusion _).bind fun _ => extends_pure _

theorem extends_readEdge (ty : Ty) : Local B (readEdge ty) := by
  rw [readEdge]
  refine (extends_expect TokenKind.noConfusion _).bind fun _ => (extends_readOperand ty).bind fun _ => ?_
  refine extends_expectComma.bind fun _ => ?_
  refine .position (fun p => .kind fun k => ?_) fun p => .kind (starves_unexpected _)
  split
  · refine extendsInside_advance.bind fun _ => ?_
    exact (extends_expect TokenKind.noConfusion _).bind fun _ => extends_pure _
  · exact (extends_unexpected _).inside

theorem extends_readPhi : Local B readPhi := by
  rw [readPhi]
  refine (extends_skipWords (by decide)).bind fun _ => Ty.extends_read.bind fun ty => ?_
  refine Extends.bind (.iterate (fun edges => (extends_readEdge ty).bind fun edge => ?_) #[])
    fun _ => extends_pure _
  refine .item (fun k hk => ?_) (extends_pure _) (extends_pure _)
  rw [beq_eq_false_iff_ne]
  rintro rfl
  cases hk

/-! ## Calls -/

theorem extends_readArgument : Local B readArgument := by
  rw [readArgument]
  refine Ty.extends_read.bind fun ty => ?_
  refine (strays_skipAttributes _ _).extends (fun _ => ?_) fun _ _ => Starves.bind (starves_readOperand ty)
  exact (extends_readOperand ty).bind fun _ => extends_pure _

theorem extends_readArguments : Local B readArguments := by
  rw [readArguments]
  refine (extends_expect TokenKind.noConfusion _).bind fun _ => (extends_accept rfl).bind fun _ => ?_
  split
  · exact extends_pure _
  · refine extends_readArgument.commaSeparated.bind fun _ => ?_
    exact (extends_expect TokenKind.noConfusion _).bind fun _ => extends_pure _

/-- In front of the type of a call any word is passed, which might go on behind the part. -/
theorem extends_readCall (ctx : Context) : Local B (readCall ctx) := by
  rw [readCall]
  refine (extends_skipWords (by decide)).bind fun _ => ?_
  refine (strays_skipAttributes _ _).extends (fun _ => ?_) fun _ _ => Starves.bind Ty.starves_read
  refine Ty.extends_read.bind fun _ => (extends_readOperand _).bind fun _ => ?_
  exact extends_readArguments.bind fun _ => extends_pure _

/-! ## Memory -/

/-- An alignment is looked for two tokens ahead, and both are passed when it is there. -/
theorem extends_readAllocaTrailer (space : Nat) : Local B (readAllocaTrailer space) := by
  rw [readAllocaTrailer]
  refine .isAt rfl (fun more => ?_) ?_
  · split
    · refine .nextKind_pair (fun k c c' hc htwo => ?_) (extends_pure _).inside fun k hk => ?_
      · split
        · have hin : c.rest ≠ [] := List.ne_nil_of_length_pos (by omega)
          exact (extendsInside_advance.bind fun _ => Ty.extends_readSpace.bind fun _ => extends_pure _)
            c c' hc hin
        · refine outcome_advance_two hc htwo ?_
          exact (extends_expectNumber _ _).bind fun _ => extends_pure _
        · exact extends_pure _ c c' hc
      · split
        · cases hk
        · cases hk
        · rfl
    · exact (extends_pure _).inside
  · exact (extends_pure _).atEnd

theorem extends_readLoad : Local B readLoad := by
  rw [readLoad]
  refine (extends_skipWords (by decide)).bind fun _ => Ty.extends_read.bind fun _ => ?_
  refine extends_expectComma.bind fun _ => extends_readTypedOperand.bind fun _ => ?_
  exact extends_pure _

theorem extends_readStore : Local B readStore := by
  rw [readStore]
  refine (extends_skipWords (by decide)).bind fun _ => extends_readTypedOperand.bind fun _ => ?_
  refine extends_expectComma.bind fun _ => extends_readTypedOperand.bind fun _ => ?_
  exact extends_pure _

theorem extends_skipOrdering : Local B skipOrdering := by
  rw [skipOrdering]
  refine (extends_acceptWord rfl).bind fun scope => ?_
  dsimp only
  split
  · refine .isAt_all rfl fun named => ?_
    split
    · exact extends_skipGroup.bind fun _ => extends_skipWords (by decide)
    · exact extends_skipWords (by decide)
  · exact extends_skipWords (by decide)

theorem extends_readCmpxchg : Local B readCmpxchg := by
  rw [readCmpxchg]
  refine (extends_skipWords (by decide)).bind fun _ => extends_readTypedOperand.bind fun _ => ?_
  refine extends_expectComma.bind fun _ => extends_readTypedOperand.bind fun _ => ?_
  refine extends_expectComma.bind fun _ => extends_readTypedOperand.bind fun _ => ?_
  exact extends_skipOrdering.bind fun _ => extends_pure _

theorem extends_readAtomicrmw : Local B readAtomicrmw := by
  rw [readAtomicrmw]
  refine (extends_acceptWord rfl).bind fun _ => ?_
  refine ExtendsInside.extends (.current fun t => ?_) (Starves.atEnd (.current fun t ht => ?_) _)
  · split
    on_goal 1 => refine extendsInside_advance.bind fun _ => ?_
    on_goal 2 => refine (extends_unexpected _).inside.bind fun _ => ?_
    -- The operands follow in either case.
    all_goals
      refine extends_readTypedOperand.bind fun _ => extends_expectComma.bind fun _ => ?_
      refine extends_readTypedOperand.bind fun _ => ?_
      exact extends_skipOrdering.bind fun _ => extends_pure _
  · have hno : isWordOf atomicOperations t = false := by rw [isWordOf, ht]
    rw [hno, if_neg Bool.false_ne_true]
    exact Starves.bind (starves_unexpected _)

/-! ## Address computations -/

theorem extends_skipInrange : Local B skipInrange := by
  rw [skipInrange]
  refine (extends_acceptWord rfl).bind fun marked => ?_
  split
  · refine .isAt_all rfl fun grouped => ?_
    split
    · exact extends_skipGroup
    · exact extends_pure _
  · exact extends_pure _

/-! ### In front of a definition -/

/-- The name of the struct is taken for a type, and the equals sign is no operand. -/
theorem exists_error_of_atDefinition {c : Cursor} (h : c.AtDefinition) :
    ∃ d, readTypedOperand c = .error d ∧ d.fault.wantsMore = false := by
  obtain ⟨t, u, ts, id, hrest, ht, hu⟩ := h
  obtain ⟨last?, rest, stop⟩ := c
  cases hrest
  obtain ⟨_, gap, text, start⟩ := t
  obtain ⟨_, gap', text', start'⟩ := u
  cases ht
  cases hu
  exact ⟨_, rfl, rfl⟩

theorem skipInrange_of_atDefinition {c : Cursor} (h : c.AtDefinition) : skipInrange c = .ok ((), c) := by
  obtain ⟨t, u, ts, id, hrest, ht, hu⟩ := h
  obtain ⟨last?, rest, stop⟩ := c
  cases hrest
  obtain ⟨_, gap, text, start⟩ := t
  cases ht
  rfl

/-- Of all that a part may begin with, only a reference may begin a type. -/
theorem exists_localRef_of_startsType {k : TokenKind} (hk : k.startsPart = true)
    (h : startsType k = true) : ∃ id, k = .localRef id := by
  cases k with
  | localRef id => exact ⟨id, rfl⟩
  | word w =>
    rw [TokenKind.startsPart, List.contains_iff_mem] at hk
    have hno : ∀ w ∈ ["attributes", "declare", "define", "source_filename", "target"],
        startsType (.word w) = false := by decide
    rw [hno w hk] at h
    cases h
  | opener b => cases hk
  | _ => cases h

theorem exists_localRef_of_startsIndex {k : TokenKind} (hk : k.startsPart = true)
    (h : startsIndex k = true) : ∃ id, k = .localRef id := by
  rw [startsIndex, Bool.or_eq_true, beq_iff_eq] at h
  rcases h with h | rfl
  · exact exists_localRef_of_startsType hk h
  · exact absurd hk (by decide)

theorem dooms_readAlloca (ctx : Context) : Dooms B (readAlloca ctx) (readAlloca ctx) := by
  rw [readAlloca]
  refine (extends_skipWords (by decide)).bind_dooms fun _ => Ty.extends_read.bind_dooms fun ty => ?_
  have hrest : ∀ count, Local B (do
      let space ← iterate readAllocaTrailer 0
      return Instr.mk .alloca (ctx.pointerTo ty space) [count] (.alloca ty)) :=
    fun count => (Extends.iterate extends_readAllocaTrailer 0).bind fun _ => extends_pure _
  refine .item (fun k => exists_localRef_of_startsType) ?_ ?_ ?_ ?_
  · exact extends_readTypedOperand.bind fun _ => hrest _
  · exact hrest _
  · refine Neutral.goesForward ?_
    exact (Neutral.pure _).bind fun _ =>
      (Neutral.iterate neutral_readAllocaTrailer 0).bind fun _ => .pure _
  · intro c hc
    obtain ⟨d, hd, hfault⟩ := exists_error_of_atDefinition hc
    exact ⟨d, by simp only [Bind.bind, StateT.bind, hd, Except.bind], hfault⟩

theorem dooms_readIndices : Dooms B readIndices readIndices := by
  rw [readIndices]
  refine Dooms.bind (.iterate (fun indices => ?_) (fun indices => ?_) #[])
    (fun _ => (extends_pure _).dooms) fun _ _ => .pure trivial
  · refine .item (fun k => exists_localRef_of_startsIndex) ?_ (extends_pure _)
      (fun _ => .pure trivial) ?_
    · exact extends_skipInrange.bind fun _ => extends_readTypedOperand.bind fun _ => extends_pure _
    · intro c hc
      obtain ⟨d, hd, hfault⟩ := exists_error_of_atDefinition hc
      rw [bind_of_ok (skipInrange_of_atDefinition hc)]
      exact ⟨d, by simp only [Bind.bind, StateT.bind, hd, Except.bind], hfault⟩
  · refine Neutral.goesForward (.intro fun c l => .isAt (.nextKind ?_))
    by_cases hmore : ((c.current.kind == .comma) && startsIndex (c.lookahead 1).kind) = true
    · rw [if_pos hmore]
      rw [Bool.and_eq_true, beq_iff_eq] at hmore
      refine .advance hmore.1 rfl fun _ _ => .skip neutral_skipInrange fun _ _ => ?_
      exact .skip neutral_readTypedOperand fun _ _ => .pure rfl
    · rw [if_neg hmore]
      exact .pure rfl

theorem ends_skipInrange : skipInrange.Ends fun _ => True := by
  rw [skipInrange]
  refine (ends_accept TokenKind.noConfusion).bind fun marked hmarked => ?_
  rw [hmarked]
  exact .pure trivial

theorem dooms_readGetelementptr (ctx : Context) :
    Dooms B (readGetelementptr ctx) (readGetelementptr ctx) := by
  rw [readGetelementptr]
  refine DoomsInside.dooms (.position fun p => Dooms.inside ?_)
    (Starves.atEnd (.position fun p => ?_) _)
  · refine (extends_skipWords (by decide)).bind_dooms fun _ => extends_skipInrange.bind_dooms fun _ => ?_
    refine Ty.extends_read.bind_dooms fun source => extends_expectComma.bind_dooms fun _ => ?_
    refine extends_readTypedOperand.bind_dooms fun base => ?_
    refine dooms_readIndices.bind (fun indices => Extends.dooms ?_) fun indices => ?_
    · split
      · exact extends_failAt _ _
      · exact extends_pure _
    · intro c
      split
      · exact .failAt
      · exact .pure trivial
  · refine (ends_skipWhile _).bind fun _ _ => ends_skipInrange.bind fun _ _ => ?_
    exact Starves.bind Ty.starves_read

/-! ## All instructions -/

theorem extends_readFneg : Local B readFneg := by
  rw [readFneg]
  refine (extends_skipWords (by decide)).bind fun _ => ?_
  exact extends_readTypedOperand.bind fun _ => extends_pure _

theorem extends_readBinary (op : BinaryOp) : Local B (readBinary op) := by
  rw [readBinary]
  refine (extends_skipWords (by decide)).bind fun _ => Ty.extends_read.bind fun ty => ?_
  refine (extends_readOperand ty).bind fun _ => extends_expectComma.bind fun _ => ?_
  exact (extends_readOperand ty).bind fun _ => extends_pure _

theorem extends_readCast (op : CastOp) : Local B (readCast op) := by
  rw [readCast]
  refine (extends_skipWords (by decide)).bind fun _ => extends_readTypedOperand.bind fun _ => ?_
  exact (extends_expectWord _).bind fun _ => Ty.extends_read.bind fun _ => extends_pure _

theorem extends_readCompare (opcode : Opcode) (predicate? : String → Option Predicate) :
    Local B (readCompare opcode predicate?) := by
  rw [readCompare]
  refine (extends_skipWords (by decide)).bind fun _ => ?_
  refine .kind_of_starves (fun k => ?_) (starves_unexpected _)
  dsimp only
  split
  · exact (extends_unexpected _).inside
  · refine extendsInside_advance.bind fun _ => Ty.extends_read.bind fun ty => ?_
    refine (extends_readOperand ty).bind fun _ => extends_expectComma.bind fun _ => ?_
    exact (extends_readOperand ty).bind fun _ => extends_pure _

theorem extends_readSelect : Local B readSelect := by
  rw [readSelect]
  refine (extends_skipWords (by decide)).bind fun _ => extends_readTypedOperand.bind fun _ => ?_
  refine extends_expectComma.bind fun _ => extends_readTypedOperand.bind fun _ => ?_
  refine extends_expectComma.bind fun _ => extends_readTypedOperand.bind fun _ => ?_
  exact extends_pure _

theorem extends_readVaArg : Local B readVaArg := by
  rw [readVaArg]
  refine extends_readTypedOperand.bind fun _ => extends_expectComma.bind fun _ => ?_
  exact Ty.extends_read.bind fun _ => extends_pure _

theorem extends_readFreeze : Local B readFreeze :=
  extends_readTypedOperand.bind fun _ => extends_pure _

theorem extends_readExtractelement (position : Position) :
    Local B (readExtractelement position) := by
  rw [readExtractelement]
  refine extends_readTypedOperand.bind fun _ => extends_expectComma.bind fun _ => ?_
  refine extends_readTypedOperand.bind fun _ => ?_
  dsimp only
  split
  · exact extends_pure _
  · exact extends_failAt _ _

theorem extends_readInsertelement : Local B readInsertelement := by
  rw [readInsertelement]
  refine extends_readTypedOperand.bind fun _ => extends_expectComma.bind fun _ => ?_
  refine extends_readTypedOperand.bind fun _ => extends_expectComma.bind fun _ => ?_
  exact extends_readTypedOperand.bind fun _ => extends_pure _

theorem extends_readShufflevector (position : Position) :
    Local B (readShufflevector position) := by
  rw [readShufflevector]
  refine extends_readTypedOperand.bind fun _ => extends_expectComma.bind fun _ => ?_
  refine extends_readTypedOperand.bind fun _ => extends_expectComma.bind fun _ => ?_
  refine extends_readTypedOperand.bind fun _ => ?_
  dsimp only
  split
  · exact extends_pure _
  · exact extends_failAt _ _

theorem extends_readAggregateIndices : Local B readAggregateIndices := by
  rw [readAggregateIndices]
  refine Extends.bind (.iterate (fun indices => .item (fun k hk => ?_) ?_ (extends_pure _)) #[])
    fun indices => ?_
  · cases k
    all_goals first | rfl | cases hk
  · exact (extends_expectNumber _ _).bind fun _ => extends_pure _
  · split
    · exact extends_unexpected _
    · exact extends_pure _

theorem extends_readExtractvalue (ctx : Context) (position : Position) :
    Local B (readExtractvalue ctx position) := by
  rw [readExtractvalue]
  refine extends_readTypedOperand.bind fun _ => extends_readAggregateIndices.bind fun _ => ?_
  split
  · exact extends_pure _
  · exact extends_failAt _ _

theorem extends_readInsertvalue : Local B readInsertvalue := by
  rw [readInsertvalue]
  refine extends_readTypedOperand.bind fun _ => extends_expectComma.bind fun _ => ?_
  refine extends_readTypedOperand.bind fun _ => extends_readAggregateIndices.bind fun _ => ?_
  exact extends_pure _

theorem dooms_readOperation (ctx : Context) (position : Position) (opcode : Opcode) :
    Dooms B (readOperation ctx position opcode) (readOperation ctx position opcode) := by
  cases opcode with
  | alloca => exact dooms_readAlloca ctx
  | getelementptr => exact dooms_readGetelementptr ctx
  | ret => exact extends_readRet.dooms
  | br => exact extends_readBr.dooms
  | switch => exact extends_readSwitch.dooms
  | indirectbr => exact extends_readIndirectbr.dooms
  | unreachable => exact (extends_pure _).dooms
  | fneg => exact extends_readFneg.dooms
  | binary op => exact (extends_readBinary op).dooms
  | load => exact extends_readLoad.dooms
  | store => exact extends_readStore.dooms
  | fence => exact (extends_pure _).dooms
  | cmpxchg => exact extends_readCmpxchg.dooms
  | atomicrmw => exact extends_readAtomicrmw.dooms
  | cast op => exact (extends_readCast op).dooms
  | icmp => exact (extends_readCompare _ _).dooms
  | fcmp => exact (extends_readCompare _ _).dooms
  | phi => exact extends_readPhi.dooms
  | call => exact (extends_readCall ctx).dooms
  | select => exact extends_readSelect.dooms
  | vaArg => exact extends_readVaArg.dooms
  | extractelement => exact (extends_readExtractelement position).dooms
  | insertelement => exact extends_readInsertelement.dooms
  | shufflevector => exact (extends_readShufflevector position).dooms
  | extractvalue => exact (extends_readExtractvalue ctx position).dooms
  | insertvalue => exact extends_readInsertvalue.dooms
  | freeze => exact extends_readFreeze.dooms

/-- **An instruction is the same at the end of a text and in front of another part**, or else it ends
with a comma in front of a definition. -/
theorem dooms_readInstr (ctx : Context) : Dooms B (readInstr ctx) (readInstr ctx) := by
  rw [readInstr]
  refine (extends_skipWords (by decide)).bind_dooms fun _ => ?_
  refine .kind_of_starves (fun k => ?_) (starves_unexpected _)
  split
  · split
    · refine .position fun p => ?_
      exact extendsInside_advance.bind_dooms fun _ => dooms_readOperation ctx p _
    · exact (extends_unexpected _).inside.dooms
  · exact (extends_unexpected _).inside.dooms

end IrRecords.Draft
