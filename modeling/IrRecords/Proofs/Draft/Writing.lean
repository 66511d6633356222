import IrRecords.Draft.Instr
import IrRecords.Proofs.Draft.Spelling

/-!
# How instructions are written

An instruction stands in the text as a row of tokens in which its operands are spelled one behind
the other. `writes_readInstr` says so of every instruction that is read, and that labels and equals
signs stand in this row inside of brackets only. The order of the operands in the text is the order
in the instruction, but for two opcodes (`Opcode.textOrder`), and one operand need not be in the
text at all: an allocation without a count allocates one element.

What a call calls is read before it is known at which type it is called. It is therefore noted at
the type that it was read at, and an instruction is compared with its notes up to that type
(`Instr.NotedAs`); the spelling is the same at both.
-/

namespace IrRecords

/-- The operands of an instruction in the order of the text: a branch gives its targets the other
way around, and a call gives first what is called. -/
def Opcode.textOrder {α : Type} : Opcode → List α → List α
  | .br, [condition, onFalse, onTrue] => [condition, onTrue, onFalse]
  | .call, xs => xs.drop (xs.length - 1) ++ xs.take (xs.length - 1)
  | _, xs => xs

/-- The order depends on nothing but the number of operands. -/
theorem Opcode.forall₂_textOrder {α β : Type} {R : α → β → Prop} {xs : List α} {ys : List β}
    (op : Opcode) (h : List.Forall₂ R xs ys) :
    List.Forall₂ R (op.textOrder xs) (op.textOrder ys) := by
  cases op
  case br =>
    cases h with
    | nil => exact .nil
    | cons h₁ h =>
      cases h with
      | nil => exact .cons h₁ .nil
      | cons h₂ h =>
        cases h with
        | nil => exact .cons h₁ (.cons h₂ .nil)
        | cons h₃ h =>
          cases h with
          | nil => exact .cons h₁ (.cons h₃ (.cons h₂ .nil))
          | cons h₄ h => exact .cons h₁ (.cons h₂ (.cons h₃ (.cons h₄ h)))
  case call =>
    rw [textOrder, textOrder, h.length_eq]
    exact List.rel_append (List.forall₂_drop _ h) (List.forall₂_take _ h)
  all_goals exact h

theorem Opcode.textOrder_perm {α : Type} (op : Opcode) (xs : List α) :
    (op.textOrder xs).Perm xs := by
  cases op
  case br =>
    rcases xs with _ | ⟨a, _ | ⟨b, _ | ⟨c, _ | ⟨d, xs⟩⟩⟩⟩
    case cons.cons.cons.nil => exact .cons a (.swap b c [])
    all_goals exact .refl _
  case call =>
    refine List.perm_append_comm.trans ?_
    rw [List.take_append_drop]
  all_goals exact .refl _

namespace Draft

open Reader

/-- The number of elements of an allocation that does not say it. -/
def impliedCount : Operand := .known (.constant (.int 32) "1")

/-- The operands `os` are noted, in the order of the text, when the instruction is read. -/
inductive Instr.NotedAs : Instr → List Operand → Prop
  | inOrder {i : Instr} : NotedAs i (i.opcode.textOrder i.operands)
  | call {ret ty : Ty} {arguments : List Operand} {callee : Operand}
      (hcallee : callee.ty ≠ .metadata) (hty : ty ≠ .metadata) :
      NotedAs (.plain .call ret (arguments ++ [callee.withTy ty])) (callee :: arguments)
  | uncounted {i : Instr} (hopcode : i.opcode = .alloca) (hoperands : i.operands = [impliedCount]) :
      NotedAs i []

/-- Whatever the reader reads is an instruction whose operands are noted. -/
def WritesInstr (r : Reader Instr) : Prop := ∀ c l, Writes Spells c l r fun i l' =>
  ∃ os, l' = l.note os ∧ i.NotedAs os

section

variable {α : Type} {c : Cursor} {l : Ledger Operand} {Q : α → Ledger Operand → Prop}

/-- The rule for an operand behind its type. -/
theorem writes_typedOperand {f : Ty × Operand → Reader α}
    (h : ∀ ty o c₁, Writes Spells c₁ (l.note [o]) (f (ty, o)) Q) :
    Writes Spells c l (readTypedOperand >>= f) Q :=
  writes_readTypedOperand.bind fun p _ c₁ hl => hl ▸ h p.1 p.2 c₁

/-- The rule for an operand whose type is known. -/
theorem writes_operand {ty : Ty} {f : Operand → Reader α}
    (h : ∀ o c₁, o.ty = ty → Writes Spells c₁ (l.note [o]) (f o) Q) :
    Writes Spells c l (readOperand ty >>= f) Q :=
  (writes_readOperand ty).bind fun o _ c₁ ⟨hl, hty⟩ => hl ▸ h o c₁ hty

/-- An operand about which nothing is noted. -/
theorem neutral_readTypedOperand : Neutral readTypedOperand :=
  .of_writes fun _ => writes_readTypedOperand.mono fun _ _ hl => by rw [hl]; rfl

/-- An instruction that has all of its operands, in the order of the text. -/
theorem writes_pure {i : Instr} {os : List Operand} (hos : i.opcode.textOrder i.operands = os) :
    Writes Spells c (l.note os) (pure i) fun i l' => ∃ os, l' = l.note os ∧ i.NotedAs os :=
  .pure ⟨os, rfl, hos ▸ .inOrder⟩

end

/-! ## Instructions that direct control -/

theorem writes_readRet : WritesInstr readRet := by
  intro c l
  rw [readRet]
  refine .skip (neutral_acceptWord _) fun void c => ?_
  cases void with
  | true => exact .pure ⟨[], l.note_nil.symm, .inOrder⟩
  | false => exact writes_typedOperand fun _ _ _ => writes_pure rfl

theorem writes_readBr : WritesInstr readBr := by
  intro c l
  rw [readBr]
  refine writes_typedOperand fun ty first c => ?_
  dsimp only
  by_cases hlabel : ty = .label
  · rw [if_pos hlabel]
    exact writes_pure rfl
  · rw [if_neg hlabel]
    refine .skip neutral_expectComma fun _ _ => writes_typedOperand fun _ onTrue _ => ?_
    refine .skip neutral_expectComma fun _ _ => writes_typedOperand fun _ onFalse _ => ?_
    rw [Ledger.note_note, Ledger.note_note]
    exact writes_pure rfl

/-- The cases of a switch are noted as they are put down. -/
theorem writes_readSwitch : WritesInstr readSwitch := by
  intro c l
  rw [readSwitch]
  refine writes_typedOperand fun _ condition _ => .skip neutral_expectComma fun _ _ => ?_
  refine writes_typedOperand fun _ otherwise _ => .expect_opener fun c => ?_
  rw [Ledger.note_note]
  refine Writes.bind (P := fun (cases : Array Operand) l' =>
    l' = l.note ([condition, otherwise] ++ cases.toList)) ?_ ?_
  · refine .iterate (I := fun (cases : Array Operand) l' =>
      l' = (l.note ([condition, otherwise] ++ cases.toList)).enter .square) ?_ rfl
    rintro cases l' c rfl
    refine .accept_closer (fun c => .pure rfl) fun c => ?_
    refine writes_typedOperand fun _ value _ => .skip neutral_expectComma fun _ _ => ?_
    refine writes_typedOperand fun _ target _ => .pure ?_
    simp [RoundKeeps]
  · rintro cases l' c rfl
    exact writes_pure rfl

theorem writes_readIndirectbr : WritesInstr readIndirectbr := by
  intro c l
  rw [readIndirectbr]
  refine writes_typedOperand fun _ address _ => .skip neutral_expectComma fun _ _ => ?_
  refine .expect_opener fun c => .accept_closer (fun c => writes_pure rfl) fun c => ?_
  refine (Writes.commaSeparated (fun p => [p.2]) fun c l => writes_readTypedOperand).bind
    fun targets l' c hl => ?_
  rw [hl, Ledger.enter_note, Ledger.note_note]
  refine .expect_closer fun c => writes_pure ?_
  rw [List.map_eq_flatMap.symm]
  rfl

/-- An edge notes its operand; its block is no operand. -/
theorem writes_readEdge {c : Cursor} {l : Ledger Operand} (ty : Ty) :
    Writes Spells c l (readEdge ty) fun e l' => l' = l.note [e.1] := by
  rw [readEdge]
  refine .expect_opener fun _ => writes_operand fun operand _ _ => ?_
  rw [Ledger.enter_note]
  refine .skip neutral_expectComma fun _ c => .position (.kind ?_)
  split
  · next id hc => exact .advance hc rfl fun _ _ => .expect_closer fun _ => .pure rfl
  · exact .unexpected

theorem writes_readPhi : WritesInstr readPhi := by
  intro c l
  rw [readPhi]
  refine .skip (neutral_skipWords _) fun _ _ => .skip Ty.neutral_read fun ty _ => ?_
  refine Writes.bind (P := fun (edges : Array (Operand × Ident × Position)) l' =>
    l' = l.note (edges.toList.map (·.1))) ?_ ?_
  · refine .iterate (I := fun (edges : Array (Operand × Ident × Position)) l' =>
      l' = l.note (edges.toList.map (·.1))) ?_ (by simp)
    rintro edges l' c rfl
    refine (writes_readEdge ty).bind fun edge l' c hl => .isAt (.nextKind ?_)
    have hpush : l' = l.note ((edges.push edge).toList.map (·.1)) := by
      rw [hl, Ledger.note_note, Array.toList_push, List.map_append, List.map_singleton]
    by_cases hmore : ((c.current.kind == .comma) && (c.lookahead 1).kind == .opener .square) = true
    · rw [if_pos hmore]
      rw [Bool.and_eq_true, beq_iff_eq] at hmore
      exact .advance hmore.1 rfl fun _ _ => .pure hpush
    · rw [if_neg hmore]
      exact .pure hpush
  · rintro edges l' c rfl
    exact writes_pure rfl

/-! ## Calls -/

theorem writes_readArgument {c : Cursor} {l : Ledger Operand} :
    Writes Spells c l readArgument fun p l' => l' = l.note [p.2] := by
  rw [readArgument]
  refine .skip Ty.neutral_read fun ty _ => .skip (neutral_skipAttributes _ _) fun _ _ => ?_
  exact writes_operand fun operand _ _ => .pure rfl

theorem writes_readArguments {c : Cursor} {l : Ledger Operand} :
    Writes Spells c l readArguments fun arguments l' => l' = l.note (arguments.map (·.2)) := by
  rw [readArguments]
  refine .expect_opener fun _ => .accept_closer (fun _ => .pure l.note_nil.symm) fun _ => ?_
  refine (Writes.commaSeparated (fun p => [p.2]) fun c l => writes_readArgument).bind
    fun arguments l' c hl => ?_
  rw [hl, Ledger.enter_note]
  exact .expect_closer fun _ => .pure (by rw [List.map_eq_flatMap])

theorem Context.pointerTo_ne_metadata (ctx : Context) (ty : Ty) (space : Nat) :
    ctx.pointerTo ty space ≠ .metadata := by
  unfold pointerTo
  split <;> exact Ty.noConfusion

/-- What is called comes first in the text and last in the instruction. -/
theorem writes_readCall (ctx : Context) : WritesInstr (readCall ctx) := by
  intro c l
  rw [readCall]
  refine .skip (neutral_skipWords _) fun _ _ => .skip (neutral_skipAttributes _ _) fun _ _ => ?_
  refine .skip Ty.neutral_read fun given _ => writes_operand fun callee _ hcallee => ?_
  refine writes_readArguments.bind fun arguments l' c hl => ?_
  rw [hl, Ledger.note_note]
  refine .pure ⟨_, rfl, .call ?_ (ctx.pointerTo_ne_metadata _ 0)⟩
  rw [hcallee]
  decide

/-! ## Instructions on memory -/

theorem neutral_readAllocaTrailer (space : Nat) : Neutral (readAllocaTrailer space) := by
  refine .intro fun c l => ?_
  rw [readAllocaTrailer]
  refine .isAt ?_
  by_cases hcomma : (c.current.kind == .comma) = true
  · rw [if_pos hcomma]
    rw [beq_iff_eq] at hcomma
    refine .nextKind ?_
    split
    · exact .advance hcomma rfl fun _ _ => .skip Ty.neutral_readSpace fun _ _ => .pure rfl
    · next hnext =>
      -- The word behind the comma is passed without a second look.
      refine .advance hcomma rfl fun c₁ hc₁ => .advance (k := .word "align") ?_ rfl fun _ _ => ?_
      · rw [hc₁, hnext]
      · exact .skip (neutral_expectNumber _ _) fun _ _ => .pure rfl
    · exact .pure rfl
  · rw [if_neg hcomma]
    exact .pure rfl

theorem writes_readAlloca (ctx : Context) : WritesInstr (readAlloca ctx) := by
  intro c l
  rw [readAlloca]
  refine .skip (neutral_skipWords _) fun _ _ => .skip Ty.neutral_read fun allocated c => ?_
  refine .isAt (.nextKind ?_)
  have htrailer : Neutral (iterate readAllocaTrailer 0) := .iterate neutral_readAllocaTrailer 0
  by_cases hcount : ((c.current.kind == .comma) && startsType (c.lookahead 1).kind) = true
  · rw [if_pos hcount]
    rw [Bool.and_eq_true, beq_iff_eq] at hcount
    refine .advance hcount.1 rfl fun _ _ => writes_typedOperand fun _ count _ => ?_
    dsimp only
    rw [pure_bind]
    exact .skip htrailer fun _ _ => writes_pure rfl
  · rw [if_neg hcount, pure_bind]
    exact .skip htrailer fun _ _ => .pure ⟨[], l.note_nil.symm, .uncounted rfl rfl⟩

theorem writes_readLoad : WritesInstr readLoad := by
  intro c l
  rw [readLoad]
  refine .skip (neutral_skipWords _) fun _ _ => .skip Ty.neutral_read fun _ _ => ?_
  exact .skip neutral_expectComma fun _ _ => writes_typedOperand fun _ _ _ => writes_pure rfl

theorem writes_readStore : WritesInstr readStore := by
  intro c l
  rw [readStore]
  refine .skip (neutral_skipWords _) fun _ _ => writes_typedOperand fun _ _ _ => ?_
  refine .skip neutral_expectComma fun _ _ => writes_typedOperand fun _ _ _ => ?_
  rw [Ledger.note_note]
  exact writes_pure rfl

theorem neutral_skipGroupIf {r : Reader Unit} (hr : Neutral r) : Neutral (do
    if ← isAt (.opener .round) then skipGroup
    r) := by
  refine .intro fun c l => .isAt ?_
  by_cases hgroup : (c.current.kind == .opener .round) = true
  · rw [if_pos hgroup]
    exact .skipGroup (beq_iff_eq.mp hgroup) fun _ => hr.writes
  · rw [if_neg hgroup]
    exact hr.writes

theorem neutral_skipOrdering : Neutral skipOrdering := by
  rw [skipOrdering]
  refine (neutral_acceptWord _).bind fun scope => ?_
  cases scope with
  | true => exact neutral_skipGroupIf (neutral_skipWords _)
  | false => exact neutral_skipWords _

theorem writes_readCmpxchg : WritesInstr readCmpxchg := by
  intro c l
  rw [readCmpxchg]
  refine .skip (neutral_skipWords _) fun _ _ => writes_typedOperand fun _ _ _ => ?_
  refine .skip neutral_expectComma fun _ _ => writes_typedOperand fun _ _ _ => ?_
  refine .skip neutral_expectComma fun _ _ => writes_typedOperand fun _ _ _ => ?_
  rw [Ledger.note_note, Ledger.note_note]
  exact .skip neutral_skipOrdering fun _ _ => writes_pure rfl

theorem writes_readAtomicrmw : WritesInstr readAtomicrmw := by
  intro c l
  rw [readAtomicrmw]
  refine .skip (neutral_acceptWord _) fun _ c => .current ?_
  dsimp only
  split
  · next hword =>
    have hk : c.current.kind.isLoose = true := by
      unfold isWordOf at hword
      split at hword
      · next hk => rw [hk]; rfl
      · cases hword
    refine .advance rfl hk fun _ _ => writes_typedOperand fun _ _ _ => ?_
    refine .skip neutral_expectComma fun _ _ => writes_typedOperand fun _ _ _ => ?_
    rw [Ledger.note_note]
    exact .skip neutral_skipOrdering fun _ _ => writes_pure rfl
  · exact Writes.bind (P := fun _ _ => False) .unexpected fun _ _ _ h => h.elim

/-! ### Address computations -/

theorem neutral_skipInrange : Neutral skipInrange := by
  rw [skipInrange]
  refine (neutral_acceptWord _).bind fun inrange => ?_
  cases inrange with
  | true =>
    refine .intro fun c l => .isAt ?_
    by_cases hgroup : (c.current.kind == .opener .round) = true
    · rw [if_pos hgroup]
      exact .skipGroup_only (beq_iff_eq.mp hgroup) rfl
    · rw [if_neg hgroup]
      exact .pure rfl
  | false => exact .pure ()

theorem writes_readIndices {c : Cursor} {l : Ledger Operand} :
    Writes Spells c l readIndices fun indices l' => l' = l.note (indices.map (·.2)) := by
  rw [readIndices]
  refine Writes.bind (P := fun (indices : Array (Ty × Operand)) l' =>
    l' = l.note (indices.toList.map (·.2))) ?_ fun indices l' c hl => .pure hl
  refine .iterate (I := fun (indices : Array (Ty × Operand)) l' =>
    l' = l.note (indices.toList.map (·.2))) ?_ (by simp)
  rintro indices l' c rfl
  refine .isAt (.nextKind ?_)
  by_cases hmore : ((c.current.kind == .comma) && startsIndex (c.lookahead 1).kind) = true
  · rw [if_pos hmore]
    rw [Bool.and_eq_true, beq_iff_eq] at hmore
    refine .advance hmore.1 rfl fun _ _ => .skip neutral_skipInrange fun _ _ => ?_
    refine writes_typedOperand fun ty index _ => .pure ?_
    simp [RoundKeeps]
  · rw [if_neg hmore]
    exact .pure rfl

theorem writes_readGetelementptr (ctx : Context) : WritesInstr (readGetelementptr ctx) := by
  intro c l
  rw [readGetelementptr]
  refine .position (.skip (neutral_skipWords _) fun _ _ => .skip neutral_skipInrange fun _ _ => ?_)
  refine .skip Ty.neutral_read fun source _ => .skip neutral_expectComma fun _ _ => ?_
  refine writes_typedOperand fun baseTy base _ => writes_readIndices.bind fun indices l' c hl => ?_
  rw [hl, Ledger.note_note]
  dsimp only
  split
  · exact .failAt
  · exact writes_pure rfl

/-! ## Operations on values -/

theorem writes_readFneg : WritesInstr readFneg := by
  intro c l
  rw [readFneg]
  exact .skip (neutral_skipWords _) fun _ _ => writes_typedOperand fun _ _ _ => writes_pure rfl

/-- Two operands of one type. -/
theorem writes_operands {α : Type} {c : Cursor} {l : Ledger Operand} {ty : Ty}
    {Q : α → Ledger Operand → Prop} {f : Operand → Operand → Reader α}
    (h : ∀ a b c₁, Writes Spells c₁ (l.note [a, b]) (f a b) Q) :
    Writes Spells c l (do
      let lhs ← readOperand ty
      expectComma
      let rhs ← readOperand ty
      f lhs rhs) Q := by
  refine writes_operand fun lhs _ _ => .skip neutral_expectComma fun _ _ => ?_
  refine writes_operand fun rhs _ _ => ?_
  rw [Ledger.note_note]
  exact h lhs rhs _

theorem writes_readBinary (op : BinaryOp) : WritesInstr (readBinary op) := by
  intro c l
  rw [readBinary]
  refine .skip (neutral_skipWords _) fun _ _ => .skip Ty.neutral_read fun ty _ => ?_
  exact writes_operands fun _ _ _ => writes_pure rfl

theorem writes_readCast (op : CastOp) : WritesInstr (readCast op) := by
  intro c l
  rw [readCast]
  refine .skip (neutral_skipWords _) fun _ _ => writes_typedOperand fun _ _ _ => ?_
  exact .skip (neutral_expectWord _) fun _ _ => .skip Ty.neutral_read fun _ _ => writes_pure rfl

theorem writes_readCompare (opcode : Opcode) (predicate? : String → Option Predicate)
    (hopcode : opcode = .icmp ∨ opcode = .fcmp) : WritesInstr (readCompare opcode predicate?) := by
  intro c l
  rw [readCompare]
  refine .skip (neutral_skipWords _) fun _ c => .kind ?_
  dsimp only
  split
  · exact .unexpected
  · next p hp =>
    -- There is a predicate only where a word is ahead.
    have hk : c.current.kind.isLoose = true := by
      split at hp
      · next w hc => rw [hc]; rfl
      · cases hp
    refine .advance rfl hk fun _ _ => .skip Ty.neutral_read fun ty _ => ?_
    refine writes_operands fun _ _ _ => writes_pure ?_
    rcases hopcode with rfl | rfl <;> rfl

theorem writes_readSelect : WritesInstr readSelect := by
  intro c l
  rw [readSelect]
  refine .skip (neutral_skipWords _) fun _ _ => writes_typedOperand fun _ _ _ => ?_
  refine .skip neutral_expectComma fun _ _ => writes_typedOperand fun _ _ _ => ?_
  refine .skip neutral_expectComma fun _ _ => writes_typedOperand fun _ _ _ => ?_
  rw [Ledger.note_note, Ledger.note_note]
  exact writes_pure rfl

theorem writes_readVaArg : WritesInstr readVaArg := by
  intro c l
  rw [readVaArg]
  refine writes_typedOperand fun _ _ _ => .skip neutral_expectComma fun _ _ => ?_
  exact .skip Ty.neutral_read fun _ _ => writes_pure rfl

theorem writes_readFreeze : WritesInstr readFreeze := by
  intro c l
  rw [readFreeze]
  exact writes_typedOperand fun _ _ _ => writes_pure rfl

/-! ### Vectors -/

theorem writes_readExtractelement (position : Position) :
    WritesInstr (readExtractelement position) := by
  intro c l
  rw [readExtractelement]
  refine writes_typedOperand fun ty _ _ => .skip neutral_expectComma fun _ _ => ?_
  refine writes_typedOperand fun _ _ _ => ?_
  rw [Ledger.note_note]
  dsimp only
  split
  · exact writes_pure rfl
  · exact .failAt

theorem writes_readInsertelement : WritesInstr readInsertelement := by
  intro c l
  rw [readInsertelement]
  refine writes_typedOperand fun _ _ _ => .skip neutral_expectComma fun _ _ => ?_
  refine writes_typedOperand fun _ _ _ => .skip neutral_expectComma fun _ _ => ?_
  refine writes_typedOperand fun _ _ _ => ?_
  rw [Ledger.note_note, Ledger.note_note]
  exact writes_pure rfl

/-- The mask stands in the text but is no operand. -/
theorem writes_readShufflevector (position : Position) :
    WritesInstr (readShufflevector position) := by
  intro c l
  rw [readShufflevector]
  refine writes_typedOperand fun ty _ _ => .skip neutral_expectComma fun _ _ => ?_
  refine writes_typedOperand fun _ _ _ => .skip neutral_expectComma fun _ _ => ?_
  rw [Ledger.note_note]
  refine .skip neutral_readTypedOperand fun mask _ => ?_
  dsimp only
  split
  · exact writes_pure rfl
  · exact .failAt

/-! ### Aggregates -/

theorem neutral_readAggregateIndices : Neutral readAggregateIndices := by
  rw [readAggregateIndices]
  refine (Neutral.iterate (fun indices => .intro fun c l => .isAt (.nextKind ?_)) #[]).bind
    fun indices => ?_
  · by_cases hmore : ((c.current.kind == .comma) && isNumeral (c.lookahead 1).kind) = true
    · rw [if_pos hmore]
      rw [Bool.and_eq_true, beq_iff_eq] at hmore
      exact .advance hmore.1 rfl fun _ _ => .skip (neutral_expectNumber _ _) fun _ _ => .pure rfl
    · rw [if_neg hmore]
      exact .pure rfl
  · split
    · exact .unexpected _
    · exact .pure _

theorem writes_readExtractvalue (ctx : Context) (position : Position) :
    WritesInstr (readExtractvalue ctx position) := by
  intro c l
  rw [readExtractvalue]
  refine writes_typedOperand fun ty _ _ => .skip neutral_readAggregateIndices fun indices _ => ?_
  split
  · exact writes_pure rfl
  · exact .failAt

theorem writes_readInsertvalue : WritesInstr readInsertvalue := by
  intro c l
  rw [readInsertvalue]
  refine writes_typedOperand fun _ _ _ => .skip neutral_expectComma fun _ _ => ?_
  refine writes_typedOperand fun _ _ _ => .skip neutral_readAggregateIndices fun _ _ => ?_
  rw [Ledger.note_note]
  exact writes_pure rfl

/-! ## All instructions -/

theorem writes_readOperation (ctx : Context) (position : Position) (opcode : Opcode) :
    WritesInstr (readOperation ctx position opcode) := by
  have hbare : ∀ opcode : Opcode, opcode.textOrder ([] : List Operand) = [] →
      WritesInstr (pure (.plain opcode .void [])) := by
    intro opcode hnil c l
    refine .pure ⟨[], l.note_nil.symm, ?_⟩
    have hinOrder : (Instr.plain opcode .void []).NotedAs (opcode.textOrder []) := .inOrder
    rwa [hnil] at hinOrder
  cases opcode with
  | ret => exact writes_readRet
  | br => exact writes_readBr
  | switch => exact writes_readSwitch
  | indirectbr => exact writes_readIndirectbr
  | unreachable => exact hbare .unreachable rfl
  | fneg => exact writes_readFneg
  | binary op => exact writes_readBinary op
  | alloca => exact writes_readAlloca ctx
  | load => exact writes_readLoad
  | store => exact writes_readStore
  | getelementptr => exact writes_readGetelementptr ctx
  | fence => exact hbare .fence rfl
  | cmpxchg => exact writes_readCmpxchg
  | atomicrmw => exact writes_readAtomicrmw
  | cast op => exact writes_readCast op
  | icmp => exact writes_readCompare .icmp _ (.inl rfl)
  | fcmp => exact writes_readCompare .fcmp _ (.inr rfl)
  | phi => exact writes_readPhi
  | call => exact writes_readCall ctx
  | select => exact writes_readSelect
  | vaArg => exact writes_readVaArg
  | extractelement => exact writes_readExtractelement position
  | insertelement => exact writes_readInsertelement
  | shufflevector => exact writes_readShufflevector position
  | extractvalue => exact writes_readExtractvalue ctx position
  | insertvalue => exact writes_readInsertvalue
  | freeze => exact writes_readFreeze

/-- **Every instruction that is read is noted with its operands.** -/
theorem writes_readInstr (ctx : Context) : WritesInstr (readInstr ctx) := by
  intro c l
  rw [readInstr]
  refine .skip (neutral_skipWords _) fun _ c => .kind ?_
  split
  · next w hc =>
    split
    · next opcode _ =>
      exact .position (.advance hc rfl fun c₁ _ => writes_readOperation ctx _ opcode c₁ l)
    · exact .unexpected
  · exact .unexpected

/-- The row `ts` is the text of the instruction. Its brackets are balanced, labels and equals signs
stand inside of them, and the operands are spelled in it in the order of the text. Only the count of
an allocation may be missing. -/
structure Instr.WrittenIn (i : Instr) (ts : List Token) : Prop where
  ne_nil : ts ≠ []
  quiet : Token.Quiet [] ts []
  operands : (∃ slices, Token.Slices ts slices
      ∧ List.Forall₂ Spells slices (i.opcode.textOrder i.operands))
    ∨ i.opcode = .alloca ∧ i.operands = [impliedCount]

/-- Notes of an instruction are its operands, up to the type of what is called. -/
theorem Instr.NotedAs.exists_spelling {i : Instr} {os : List Operand} {slices : List (List Token)}
    (h : i.NotedAs os) (hos : List.Forall₂ Spells slices os) :
    List.Forall₂ Spells slices (i.opcode.textOrder i.operands)
      ∨ i.opcode = .alloca ∧ i.operands = [impliedCount] := by
  cases h with
  | inOrder => exact .inl hos
  | @call ret ty arguments callee hcallee hty =>
    -- What is called moves to the front and is spelled the same at its own type.
    have horder : Opcode.call.textOrder (arguments ++ [callee.withTy ty])
        = callee.withTy ty :: arguments := by
      simp [Opcode.textOrder]
    cases hos with
    | cons hfirst hrest =>
      have hcalled : Spells _ (callee.withTy ty) := hfirst.withTy hcallee hty
      have hspells := List.Forall₂.cons hcalled hrest
      rw [← horder] at hspells
      exact .inl hspells
  | uncounted hopcode hoperands => exact .inr ⟨hopcode, hoperands⟩

theorem readInstr_ne_nil (ctx : Context) : (readInstr ctx).Passes fun _ ts => ts ≠ [] := by
  intro c
  rw [readInstr]
  refine ((neutral_skipWords _).passes c).bind fun _ us c₁ _ => .kind ?_
  split
  · next w hc =>
    split
    · next opcode _ =>
      refine .position (.advance (by simp [hc]) fun c₂ _ => ?_)
      have hrest := (writes_readOperation ctx c₁.current.start opcode c₂ ⟨[], []⟩).passes
      exact hrest.mono fun _ vs _ => List.append_ne_nil_of_right_ne_nil us (List.cons_ne_nil _ vs)
    · exact .unexpected
  · exact .unexpected

/-- **An instruction that is read is written in the tokens that are passed.** -/
theorem readInstr_passes (ctx : Context) : (readInstr ctx).Passes fun i ts => i.WrittenIn ts := by
  intro c
  have hnotes := writes_readInstr ctx c ⟨[], []⟩
  refine (PassesFrom.and (readInstr_ne_nil ctx c) hnotes).mono fun i ts hts => ?_
  obtain ⟨hne, l', hleads, os, rfl, hnoted⟩ := hts
  obtain ⟨slices, new, hslices, hspells, hnew⟩ := hleads.notes
  have hos : new = os := hnew.symm
  subst hos
  refine ⟨hne, hleads.quiet, ?_⟩
  exact (hnoted.exists_spelling hspells).imp_left fun h => ⟨slices, hslices, h⟩

end Draft

end IrRecords
