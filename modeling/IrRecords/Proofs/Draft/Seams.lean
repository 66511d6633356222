import IrRecords.Draft.Instr
import IrRecords.Proofs.Ty.Seams

/-!
# Instructions up to a seam

What an instruction ends with is found one or two tokens ahead: an alignment, an index, one more edge of a
phi. None of these is what an attachment starts with, a comma and the name of metadata. So an instruction
is read as before if an attachment is put in behind it (`feeds_readInstr`), for every opcode.
-/

namespace IrRecords.Draft

open Reader

variable {S : Seam} {k : TokenKind}

/-! ## What is put in -/

theorem startsType_of_isInert (h : k.isInert = true) : startsType k = false := by
  cases k with
  | word w =>
    rw [TokenKind.isInert, Bool.not_eq_true', Bool.or_eq_false_iff] at h
    exact h.1
  | comma => rfl
  | _ => cases h

theorem startsType_of_isMetadata (h : k.isMetadata = true) : startsType k = false := by
  cases k with
  | metadata name => rfl
  | _ => cases h

theorem startsIndex_of_isInert (h : k.isInert = true) : startsIndex k = false := by
  rw [startsIndex, startsType_of_isInert h, Bool.false_or, beq_eq_false_iff_ne]
  rintro rfl
  exact absurd h (by decide)

theorem startsIndex_of_isMetadata (h : k.isMetadata = true) : startsIndex k = false := by
  rw [startsIndex, startsType_of_isMetadata h, Bool.false_or, beq_eq_false_iff_ne]
  rintro rfl
  cases h

theorem isNumeral_of_isInert (h : k.isInert = true) : isNumeral k = false := by
  cases k with
  | int text => cases h
  | _ => rfl

theorem isNumeral_of_isMetadata (h : k.isMetadata = true) : isNumeral k = false := by
  cases k with
  | int text => cases h
  | _ => rfl

theorem beq_opener_of_isInert {b : Bracket} (h : k.isInert = true) : (k == .opener b) = false := by
  rw [beq_eq_false_iff_ne]
  rintro rfl
  cases h

theorem beq_opener_of_isMetadata {b : Bracket} (h : k.isMetadata = true) :
    (k == .opener b) = false := by
  rw [beq_eq_false_iff_ne]
  rintro rfl
  cases h

/-! ## Constants and metadata -/

theorem feeds_passString (what : String) : Feeds S (passString what) (passString what) := by
  rw [passString]
  refine .kind fun k => ?_
  split
  · exact feeds_advance
  · exact feeds_unexpected what

theorem feeds_passGlobal : Feeds S passGlobal passGlobal := by
  rw [passGlobal]
  refine .kind fun k => ?_
  split
  · exact feeds_advance
  · exact feeds_unexpected _

theorem feeds_passWordConstant (w : String) : Feeds S (passWordConstant w) (passWordConstant w) := by
  rw [passWordConstant]
  split
  · exact feeds_advance
  · split
    · refine feeds_advance.feeds fun _ => (copies_skipWords _).feeds fun _ => ?_
      refine (feeds_passString _).feeds fun _ => feeds_expectComma.feeds fun _ => ?_
      exact feeds_passString _
    · split
      · exact feeds_advance.feeds fun _ => feeds_passGlobal
      · refine (tracks_skipWhile isWord).feeds fun _ => .isAt fun grouped => ?_
        split
        · exact feeds_skipGroup
        · exact feeds_unexpected _

theorem feeds_passConstant : Feeds S passConstant passConstant := by
  rw [passConstant]
  refine .kind fun k => ?_
  split
  · exact feeds_advance
  · exact feeds_advance
  · exact feeds_advance
  · exact feeds_skipGroup
  · exact feeds_skipGroup
  · exact feeds_skipGroup
  · exact feeds_passWordConstant _
  · exact feeds_unexpected _

theorem feeds_passMetadata : Feeds S passMetadata passMetadata := by
  rw [passMetadata]
  refine .kind fun k => ?_
  split
  · exact feeds_advance.bind fun _ => .isAt TokenKind.noConfusion feeds_skipGroup (copies_pure ())
  · refine feeds_advance.feeds fun _ => .kind fun k => ?_
    split
    · exact feeds_skipGroup
    · exact feeds_advance
    · exact feeds_unexpected _
  · refine Ty.feeds_read.feeds fun _ => .kind fun k => ?_
    split
    · exact feeds_advance
    · exact feeds_advance
    · exact feeds_passConstant

/-! ## Operands -/

theorem feeds_readOperand (ty : Ty) : Feeds S (readOperand ty) (readOperand ty) := by
  rw [readOperand]
  split
  · exact feeds_passMetadata.passedText.bind fun _ => copies_pure _
  · refine .position fun p => .kind fun k => ?_
    split
    · exact feeds_advance.bind fun _ => copies_pure _
    · exact feeds_advance.bind fun _ => copies_pure _
    · exact feeds_passConstant.passedText.bind fun _ => copies_pure _

theorem feeds_readTypedOperand : Feeds S readTypedOperand readTypedOperand :=
  Ty.feeds_read.feeds fun _ => (feeds_readOperand _).bind fun _ => copies_pure _

/-! ## Control -/

theorem feeds_readRet : Feeds S readRet readRet := by
  rw [readRet]
  refine .accept (copies_pure _) ?_
  exact feeds_readTypedOperand.bind fun _ => copies_pure _

theorem feeds_readBr : Feeds S readBr readBr := by
  rw [readBr]
  refine feeds_readTypedOperand.bind fun first => ?_
  dsimp only
  split
  · exact copies_pure _
  · refine (feeds_expectComma.feeds fun _ => feeds_readTypedOperand.feeds fun _ => ?_).toCopies
    refine feeds_expectComma.feeds fun _ => feeds_readTypedOperand.bind fun _ => ?_
    exact copies_pure _

theorem feeds_readSwitch : Feeds S readSwitch readSwitch := by
  rw [readSwitch]
  refine feeds_readTypedOperand.feeds fun _ => feeds_expectComma.feeds fun _ => ?_
  refine feeds_readTypedOperand.feeds fun _ => (feeds_expect _ _).bind fun _ => ?_
  refine Copies.bind (.iterate (fun cases => ?_) #[]) fun _ => copies_pure _
  refine (copies_accept TokenKind.noConfusion).bind fun closed => ?_
  split
  · exact copies_pure _
  · refine (feeds_readTypedOperand.feeds fun _ => feeds_expectComma.feeds fun _ => ?_).toCopies
    exact feeds_readTypedOperand.bind fun _ => copies_pure _

theorem feeds_readIndirectbr : Feeds S readIndirectbr readIndirectbr := by
  rw [readIndirectbr]
  refine feeds_readTypedOperand.feeds fun _ => feeds_expectComma.feeds fun _ => ?_
  refine (feeds_expect _ _).bind fun _ => (copies_accept TokenKind.noConfusion).bind fun closed => ?_
  split
  · exact copies_pure _
  · exact (Ty.feeds_closes feeds_readTypedOperand.commaSeparated).toCopies

theorem feeds_readEdge (ty : Ty) : Feeds S (readEdge ty) (readEdge ty) := by
  rw [readEdge]
  refine (feeds_expect _ _).feeds fun _ => (feeds_readOperand ty).feeds fun _ => ?_
  refine feeds_expectComma.feeds fun _ => .position fun p => .kind fun k => ?_
  split
  · exact feeds_advance.feeds fun _ => (feeds_expect _ _).bind fun _ => copies_pure _
  · exact feeds_unexpected _

/-- Behind the comma in front of another edge the edge follows, in the next round. -/
theorem feeds_readPhi : Feeds S readPhi readPhi := by
  rw [readPhi]
  refine (copies_skipWords _).feeds fun _ => Ty.feeds_read.feeds fun ty => ?_
  refine Feeds.bind (.iterate (fun k k' hagain hdone edges => ?_) #[]) fun _ => copies_pure _
  -- A round and what follows it, with the rest of the loop moved to the two ends of the round.
  have hround : ∀ k : Round (Array (Operand × Ident × Position)) (Array (Operand × Ident × Position)) →
      Reader (Array (Operand × Ident × Position)), (do
        let edges := edges.push (← readEdge ty)
        let more ← isAt .comma
        if more && (← nextKind) == .opener .square then
          advance
          return .again edges
        else return .done edges) >>= k = (do
        let edges := edges.push (← readEdge ty)
        let more ← isAt .comma
        if more && (← nextKind) == .opener .square then
          advance
          k (.again edges)
        else k (.done edges)) := by
    intro k
    simp only [bind_assoc]
    refine bind_congr fun edge => bind_congr fun more => bind_congr fun next => ?_
    split <;> rfl
  rw [hround, hround]
  refine (feeds_readEdge ty).bind fun edge => .item (fun _ => beq_opener_of_isInert)
    (fun _ => beq_opener_of_isMetadata) (hagain _) ?_
  rw [(hdone _).1, (hdone _).2]
  exact copies_pure _

/-! ## Calls -/

theorem feeds_readArgument : Feeds S readArgument readArgument := by
  rw [readArgument]
  refine Ty.feeds_read.feeds fun ty => (tracks_skipAttributes _ _).feeds fun _ => ?_
  exact (feeds_readOperand ty).bind fun _ => copies_pure _

theorem feeds_readArguments : Feeds S readArguments readArguments := by
  rw [readArguments]
  refine (feeds_expect _ _).bind fun _ => (copies_accept TokenKind.noConfusion).bind fun closed => ?_
  split
  · exact copies_pure _
  · exact (Ty.feeds_closes feeds_readArgument.commaSeparated).toCopies

theorem feeds_readCall (ctx : Context) : Feeds S (readCall ctx) (readCall ctx) := by
  rw [readCall]
  refine (copies_skipWords _).feeds fun _ => (tracks_skipAttributes _ _).feeds fun _ => ?_
  refine Ty.feeds_read.feeds fun _ => (feeds_readOperand _).feeds fun _ => ?_
  exact feeds_readArguments.bind fun _ => copies_pure _

/-! ## Memory -/

/-- What may follow behind a comma, told by the token behind it. -/
def readTrailerBehind (space : Nat) : TokenKind → Reader (Round Nat Nat)
  | .word "addrspace" => do
    advance
    return .again (← Ty.readSpace)
  | .word "align" => do
    advance
    advance
    let _ ← expectNumber Text.bound64 "an alignment"
    return .again space
  | _ => return .done space

theorem readAllocaTrailer_eq (space : Nat) : readAllocaTrailer space = (do
    let k ← kind
    let next ← nextKind
    if k == TokenKind.comma then readTrailerBehind space next else return .done space) := by
  funext c
  have hlook : ∀ more : Bool,
      (if more = true then nextKind >>= readTrailerBehind space else Pure.pure (.done space)) c
        = (if more = true then readTrailerBehind space (c.lookahead 1).kind
            else Pure.pure (.done space)) c := by
    intro more
    cases more <;> rfl
  exact hlook (c.current.kind == .comma)

/-- Behind the comma there is a trailer or nothing. -/
theorem readTrailerBehind_cases (S : Seam) (space : Nat) (k : TokenKind) :
    (∃ g, readTrailerBehind space k = (advance >>= fun _ => g) ∧ Feeds S g g)
      ∨ readTrailerBehind space k = Pure.pure (.done space) := by
  unfold readTrailerBehind
  split
  · exact .inl ⟨_, rfl, Ty.feeds_readSpace.bind fun _ => copies_pure _⟩
  · exact .inl ⟨_, rfl, feeds_advance.feeds fun _ => (feeds_expectNumber _ _).bind fun _ => copies_pure _⟩
  · exact .inr rfl

/-- What is put in is no trailer. -/
theorem readTrailerBehind_of_ne {space : Nat} {k : TokenKind} (hspace : k ≠ .word "addrspace")
    (halign : k ≠ .word "align") : readTrailerBehind space k = Pure.pure (.done space) := by
  rw [readTrailerBehind]
  · exact hspace
  · exact halign

theorem copies_readAllocaTrailer (space : Nat) :
    Copies S (readAllocaTrailer space) (readAllocaTrailer space) := by
  have hskip : ∀ {k next : TokenKind}, readTrailerBehind space next = Pure.pure (.done space) →
      (if (k == TokenKind.comma) = true then readTrailerBehind space next else Pure.pure (.done space))
        = (Pure.pure (.done space) : Reader (Round Nat Nat)) := by
    intro k next hnext
    rw [hnext, ite_self]
  -- What stands behind the seam begins with an inert token or with the name of an attachment. Neither
  -- is a trailer, so behind a comma the loop is done.
  have hinert : ∀ next : TokenKind, next.isInert = true →
      readTrailerBehind space next = Pure.pure (.done space) := by
    intro next hnext
    refine readTrailerBehind_of_ne ?_ ?_
    all_goals
      rintro rfl
      exact absurd hnext (by decide)
  have hname : ∀ next : TokenKind, next.isMetadata = true →
      readTrailerBehind space next = Pure.pure (.done space) := by
    intro next hnext
    refine readTrailerBehind_of_ne ?_ ?_
    all_goals
      rintro rfl
      cases hnext
  rw [readAllocaTrailer_eq]
  refine .kinds (fun k next => ?_) (fun k next next' hnext => ?_) fun k next next' hnext => ?_
  · rcases readTrailerBehind_cases S space next with ⟨g, hg, hfeeds⟩ | hdone
    · split
      · exact hg ▸ (feeds_advance.feeds fun _ => hfeeds).toCopies
      · exact copies_pure _
    · rw [hskip hdone]
      exact copies_pure _
  · rw [hskip (hinert next' hnext)]
    rcases readTrailerBehind_cases S space next with ⟨g, hg, hfeeds⟩ | hdone
    · split
      · exact .inr ⟨g, g, hg, hfeeds⟩
      · exact .inl rfl
    · exact .inl (hskip hdone).symm
  · rw [hskip (hname next' hnext)]
    rcases readTrailerBehind_cases S space next with ⟨g, hg, hfeeds⟩ | hdone
    · split
      · exact .inl (hg ▸ feeds_advance.feeds fun _ => hfeeds)
      · exact .inr rfl
    · exact .inr (hskip hdone).symm

theorem feeds_readAlloca (ctx : Context) : Feeds S (readAlloca ctx) (readAlloca ctx) := by
  rw [readAlloca]
  refine (copies_skipWords _).feeds fun _ => Ty.feeds_read.bind fun ty => ?_
  have hrest : ∀ count, Copies S (do
      let space ← iterate readAllocaTrailer 0
      return Instr.mk .alloca (ctx.pointerTo ty space) [count] (.alloca ty)) (do
      let space ← iterate readAllocaTrailer 0
      return Instr.mk .alloca (ctx.pointerTo ty space) [count] (.alloca ty)) :=
    fun count => (Copies.iterate copies_readAllocaTrailer 0).bind fun _ => copies_pure _
  refine .item (fun _ => startsType_of_isInert) (fun _ => startsType_of_isMetadata) ?_ (hrest _)
  exact feeds_readTypedOperand.bind fun _ => hrest _

theorem feeds_readLoad : Feeds S readLoad readLoad := by
  rw [readLoad]
  refine (copies_skipWords _).feeds fun _ => Ty.feeds_read.feeds fun _ => ?_
  exact feeds_expectComma.feeds fun _ => feeds_readTypedOperand.bind fun _ => copies_pure _

theorem feeds_readStore : Feeds S readStore readStore := by
  rw [readStore]
  refine (copies_skipWords _).feeds fun _ => feeds_readTypedOperand.feeds fun _ => ?_
  exact feeds_expectComma.feeds fun _ => feeds_readTypedOperand.bind fun _ => copies_pure _

theorem copies_skipOrdering : Copies S skipOrdering skipOrdering := by
  rw [skipOrdering]
  refine (copies_acceptWord _).bind fun scope => ?_
  dsimp only
  split
  · refine .isAt TokenKind.noConfusion ?_ (copies_skipWords _)
    exact feeds_skipGroup.bind fun _ => copies_skipWords _
  · exact copies_skipWords _

theorem feeds_readCmpxchg : Feeds S readCmpxchg readCmpxchg := by
  rw [readCmpxchg]
  refine (copies_skipWords _).feeds fun _ => feeds_readTypedOperand.feeds fun _ => ?_
  refine feeds_expectComma.feeds fun _ => feeds_readTypedOperand.feeds fun _ => ?_
  refine feeds_expectComma.feeds fun _ => feeds_readTypedOperand.bind fun _ => ?_
  exact copies_skipOrdering.bind fun _ => copies_pure _

theorem feeds_readAtomicrmw : Feeds S readAtomicrmw readAtomicrmw := by
  rw [readAtomicrmw]
  refine (copies_acceptWord _).feeds fun _ => .current fun t => ?_
  split
  on_goal 1 => refine feeds_advance.feeds fun _ => ?_
  on_goal 2 => refine (feeds_unexpected _).feeds fun _ => ?_
  -- The operands follow in either case.
  all_goals
    refine feeds_readTypedOperand.feeds fun _ => feeds_expectComma.feeds fun _ => ?_
    refine feeds_readTypedOperand.bind fun _ => ?_
    exact copies_skipOrdering.bind fun _ => copies_pure _

/-! ## Address computations -/

theorem copies_skipInrange : Copies S skipInrange skipInrange := by
  rw [skipInrange]
  refine (copies_acceptWord _).bind fun marked => ?_
  split
  · exact .isAt TokenKind.noConfusion feeds_skipGroup (copies_pure ())
  · exact copies_pure _

theorem copies_readIndices : Copies S readIndices readIndices := by
  rw [readIndices]
  refine Copies.bind (.iterate (fun indices => ?_) #[]) fun _ => copies_pure _
  refine .item (fun _ => startsIndex_of_isInert) (fun _ => startsIndex_of_isMetadata) ?_ (copies_pure _)
  exact copies_skipInrange.feeds fun _ => feeds_readTypedOperand.bind fun _ => copies_pure _

theorem feeds_readGetelementptr (ctx : Context) :
    Feeds S (readGetelementptr ctx) (readGetelementptr ctx) := by
  rw [readGetelementptr]
  refine .position fun p => (copies_skipWords _).feeds fun _ => copies_skipInrange.feeds fun _ => ?_
  refine Ty.feeds_read.feeds fun source => feeds_expectComma.feeds fun _ => ?_
  refine feeds_readTypedOperand.bind fun base => copies_readIndices.bind fun indices => ?_
  dsimp only
  split
  · exact (feeds_failAt _ _).toCopies
  · exact copies_pure _

/-! ## Arithmetic, conversions and comparisons -/

theorem feeds_readFneg : Feeds S readFneg readFneg :=
  (copies_skipWords _).feeds fun _ => feeds_readTypedOperand.bind fun _ => copies_pure _

theorem feeds_readBinary (op : BinaryOp) : Feeds S (readBinary op) (readBinary op) := by
  rw [readBinary]
  refine (copies_skipWords _).feeds fun _ => Ty.feeds_read.feeds fun ty => ?_
  refine (feeds_readOperand ty).feeds fun _ => feeds_expectComma.feeds fun _ => ?_
  exact (feeds_readOperand ty).bind fun _ => copies_pure _

theorem feeds_readCast (op : CastOp) : Feeds S (readCast op) (readCast op) := by
  rw [readCast]
  refine (copies_skipWords _).feeds fun _ => feeds_readTypedOperand.feeds fun _ => ?_
  exact (feeds_expectWord _).feeds fun _ => Ty.feeds_read.bind fun _ => copies_pure _

theorem feeds_readCompare (opcode : Opcode) (predicate? : String → Option Predicate) :
    Feeds S (readCompare opcode predicate?) (readCompare opcode predicate?) := by
  rw [readCompare]
  refine (copies_skipWords _).feeds fun _ => .kind fun k => ?_
  dsimp only
  split
  · exact feeds_unexpected _
  · refine feeds_advance.feeds fun _ => Ty.feeds_read.feeds fun ty => ?_
    refine (feeds_readOperand ty).feeds fun _ => feeds_expectComma.feeds fun _ => ?_
    exact (feeds_readOperand ty).bind fun _ => copies_pure _

theorem feeds_readSelect : Feeds S readSelect readSelect := by
  rw [readSelect]
  refine (copies_skipWords _).feeds fun _ => feeds_readTypedOperand.feeds fun _ => ?_
  refine feeds_expectComma.feeds fun _ => feeds_readTypedOperand.feeds fun _ => ?_
  exact feeds_expectComma.feeds fun _ => feeds_readTypedOperand.bind fun _ => copies_pure _

theorem feeds_readVaArg : Feeds S readVaArg readVaArg := by
  rw [readVaArg]
  refine feeds_readTypedOperand.feeds fun _ => feeds_expectComma.feeds fun _ => ?_
  exact Ty.feeds_read.bind fun _ => copies_pure _

theorem feeds_readFreeze : Feeds S readFreeze readFreeze :=
  feeds_readTypedOperand.bind fun _ => copies_pure _

/-! ## Vectors and aggregates -/

theorem feeds_readExtractelement (position : Position) :
    Feeds S (readExtractelement position) (readExtractelement position) := by
  rw [readExtractelement]
  refine feeds_readTypedOperand.feeds fun vector => feeds_expectComma.feeds fun _ => ?_
  refine feeds_readTypedOperand.bind fun index => ?_
  dsimp only
  split
  · exact copies_pure _
  · exact (feeds_failAt _ _).toCopies

theorem feeds_readInsertelement : Feeds S readInsertelement readInsertelement := by
  rw [readInsertelement]
  refine feeds_readTypedOperand.feeds fun _ => feeds_expectComma.feeds fun _ => ?_
  refine feeds_readTypedOperand.feeds fun _ => feeds_expectComma.feeds fun _ => ?_
  exact feeds_readTypedOperand.bind fun _ => copies_pure _

theorem feeds_readShufflevector (position : Position) :
    Feeds S (readShufflevector position) (readShufflevector position) := by
  rw [readShufflevector]
  refine feeds_readTypedOperand.feeds fun first => feeds_expectComma.feeds fun _ => ?_
  refine feeds_readTypedOperand.feeds fun second => feeds_expectComma.feeds fun _ => ?_
  refine feeds_readTypedOperand.bind fun mask => ?_
  dsimp only
  split
  · exact copies_pure _
  · exact (feeds_failAt _ _).toCopies

theorem copies_readAggregateIndices : Copies S readAggregateIndices readAggregateIndices := by
  rw [readAggregateIndices]
  refine Copies.bind (.iterate (fun indices => ?_) #[]) fun indices => ?_
  · refine .item (fun _ => isNumeral_of_isInert) (fun _ => isNumeral_of_isMetadata) ?_ (copies_pure _)
    exact (feeds_expectNumber _ _).bind fun _ => copies_pure _
  · split
    · exact (feeds_unexpected _).toCopies
    · exact copies_pure _

theorem feeds_readExtractvalue (ctx : Context) (position : Position) :
    Feeds S (readExtractvalue ctx position) (readExtractvalue ctx position) := by
  rw [readExtractvalue]
  refine feeds_readTypedOperand.bind fun aggregate => copies_readAggregateIndices.bind fun indices => ?_
  split
  · exact copies_pure _
  · exact (feeds_failAt _ _).toCopies

theorem feeds_readInsertvalue : Feeds S readInsertvalue readInsertvalue := by
  rw [readInsertvalue]
  refine feeds_readTypedOperand.feeds fun _ => feeds_expectComma.feeds fun _ => ?_
  exact feeds_readTypedOperand.bind fun _ => copies_readAggregateIndices.bind fun _ => copies_pure _

/-! ## All instructions -/

theorem copies_readOperation (ctx : Context) (position : Position) (opcode : Opcode) :
    Copies S (readOperation ctx position opcode) (readOperation ctx position opcode) := by
  cases opcode with
  | ret => exact feeds_readRet.toCopies
  | br => exact feeds_readBr.toCopies
  | switch => exact feeds_readSwitch.toCopies
  | indirectbr => exact feeds_readIndirectbr.toCopies
  | unreachable => exact copies_pure _
  | fneg => exact feeds_readFneg.toCopies
  | binary op => exact (feeds_readBinary op).toCopies
  | alloca => exact (feeds_readAlloca ctx).toCopies
  | load => exact feeds_readLoad.toCopies
  | store => exact feeds_readStore.toCopies
  | getelementptr => exact (feeds_readGetelementptr ctx).toCopies
  | fence => exact copies_pure _
  | cmpxchg => exact feeds_readCmpxchg.toCopies
  | atomicrmw => exact feeds_readAtomicrmw.toCopies
  | cast op => exact (feeds_readCast op).toCopies
  | icmp => exact (feeds_readCompare _ _).toCopies
  | fcmp => exact (feeds_readCompare _ _).toCopies
  | phi => exact feeds_readPhi.toCopies
  | call => exact (feeds_readCall ctx).toCopies
  | select => exact feeds_readSelect.toCopies
  | vaArg => exact feeds_readVaArg.toCopies
  | extractelement => exact (feeds_readExtractelement position).toCopies
  | insertelement => exact feeds_readInsertelement.toCopies
  | shufflevector => exact (feeds_readShufflevector position).toCopies
  | extractvalue => exact (feeds_readExtractvalue ctx position).toCopies
  | insertvalue => exact feeds_readInsertvalue.toCopies
  | freeze => exact feeds_readFreeze.toCopies

/-- **The same instruction is read up to a seam**, also in front of an attachment. -/
theorem feeds_readInstr (ctx : Context) : Feeds S (readInstr ctx) (readInstr ctx) := by
  rw [readInstr]
  refine (copies_skipWords _).feeds fun _ => .kind fun k => ?_
  split
  · split
    · exact .position fun p => feeds_advance.bind fun _ => copies_readOperation ctx p _
    · exact feeds_unexpected _
  · exact feeds_unexpected _

end IrRecords.Draft
