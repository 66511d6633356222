import IrRecords.Function.Reader
import IrRecords.Proofs.Draft.Building
import IrRecords.Proofs.Draft.Settling

/-!
# How the readers of functions end

A draft keeps the positions of its parameters, labels and statements, and numbering, naming and
resolving fail at them, long after the tokens have been passed. So the invariant of a draft is that
all of them are marked (`Draft.Marked`); each operation keeps it, and what fails at a position of a
draft fails at a position of the text.
-/

namespace IrRecords

variable {S : Scene} {n : Nat} {d : Draft}

namespace Draft

/-! ## Positions in drafts -/

/-- A statement stands at a marked position, and so does what its instruction refers to. -/
structure Statement.Marked (M : Position → Prop) (s : Statement) : Prop where
  position : M s.position
  instr : s.instr.Marked M

/-- A block stands at a marked position, and so does what is in it. -/
structure Block.Marked (M : Position → Prop) (b : Block) : Prop where
  position : M b.position
  statements : ∀ s ∈ b.statements, s.Marked M

/-- All positions that a draft keeps are marked. -/
structure Marked (M : Position → Prop) (d : Draft) : Prop where
  params : ∀ p ∈ d.params, M p.position
  blocks : ∀ b ∈ d.blocks, b.Marked M

/-! ## Operations -/

theorem allows_number {p : Position} (hp : S.Marked p) (next : Nat) (what : IrRecords.Numbered)
    (id? : Option Ident) : S.Allows (fun _ => True) (number next what p id?) := by
  rw [number.eq_def]
  split
  · exact trivial
  · split
    · exact trivial
    · exact ⟨hp, trivial⟩
  · exact trivial

theorem Marked.pushParam (hd : d.Marked S.Marked) {p : Ty × Option Ident × Position}
    (hp : S.Marked p.2.2) : S.Allows (Marked S.Marked) (d.pushParam p) := by
  rw [Draft.pushParam]
  refine (allows_number hp _ _ _).bind fun r _ => ?_
  exact ⟨Array.forall_mem_push.mpr ⟨hp, hd.params⟩, hd.blocks⟩

theorem allows_ofHeader {h : Header} (hh : ∀ p ∈ h.params, S.Marked p.2.2) :
    S.Allows (Marked S.Marked) (ofHeader h) := by
  have hfold : ∀ (ps : List (Ty × Option Ident × Position)) (d : Draft), d.Marked S.Marked →
      (∀ p ∈ ps, S.Marked p.2.2) → S.Allows (Marked S.Marked) (ps.foldlM Draft.pushParam d) := by
    intro ps
    induction ps with
    | nil => exact fun d hd _ => hd
    | cons p ps ih =>
      intro d hd hps
      rw [List.forall_mem_cons] at hps
      rw [List.foldlM_cons]
      exact (hd.pushParam hps.1).bind fun d₁ hd₁ => ih d₁ hd₁ hps.2
  exact hfold h.params _ ⟨by simp, by simp⟩ hh

theorem Marked.startBlock (hd : d.Marked S.Marked) {p : Position} (hp : S.Marked p)
    (id? : Option Ident) : S.Allows (Marked S.Marked) (d.startBlock id? p) := by
  rw [Draft.startBlock]
  refine (allows_number hp _ _ _).bind fun r _ => ?_
  exact ⟨hd.params, Array.forall_mem_push.mpr ⟨⟨hp, by simp⟩, hd.blocks⟩⟩

theorem Marked.appendStatement (hd : d.Marked S.Marked) {s : Statement}
    (hs : s.Marked S.Marked) : (d.appendStatement s).Marked S.Marked := by
  rw [Draft.appendStatement]
  split
  · exact hd
  · next block hblock =>
    have hmem : block ∈ d.blocks := Array.mem_of_back? hblock
    have hb := hd.blocks block hmem
    refine ⟨hd.params, Array.forall_mem_push.mpr ⟨⟨hb.position, ?_⟩, fun b hmem => ?_⟩⟩
    · exact Array.forall_mem_push.mpr ⟨hs, hb.statements⟩
    · rw [← Array.mem_toList_iff, Array.toList_pop] at hmem
      exact hd.blocks b (Array.mem_toList_iff.mp ((List.dropLast_sublist _).subset hmem))

theorem Marked.placeInstr (hd : d.Marked S.Marked) {instr : Instr} {p : Position}
    (hinstr : instr.Marked S.Marked) (hp : S.Marked p) (id? : Option Ident) :
    S.Allows (Marked S.Marked) (d.placeInstr id? instr p) := by
  rw [Draft.placeInstr.eq_def]
  split
  · split
    · exact ⟨hp, trivial⟩
    · exact hd.appendStatement ⟨hp, hinstr⟩
  · refine (allows_number hp _ _ _).bind fun r _ => ?_
    have happended := hd.appendStatement (s := ⟨some r.1, instr, p⟩) ⟨hp, hinstr⟩
    exact ⟨happended.params, happended.blocks⟩

theorem Marked.pushInstr (hd : d.Marked S.Marked) {instr : Instr} {p : Position}
    (hinstr : instr.Marked S.Marked) (hp : S.Marked p) (id? : Option Ident) :
    S.Allows (Marked S.Marked) (d.pushInstr id? instr p) := by
  rw [pushInstr_eq]
  refine Scene.Allows.bind (P := Marked S.Marked) ?_ fun d₁ hd₁ => hd₁.placeInstr hinstr hp id?
  split
  · exact hd.startBlock hp none
  · exact hd

/-! ## Laying out -/

theorem allows_checkDistinct {defs : List Definition} (h : ∀ x ∈ defs, S.Marked x.position)
    (seen : List Ident) : S.Allows (fun _ => True) (checkDistinct seen defs) := by
  induction defs generalizing seen with
  | nil => exact trivial
  | cons x rest ih =>
    rw [List.forall_mem_cons] at h
    rw [checkDistinct]
    split
    · exact ih h.2 seen
    · split
      · exact ⟨h.1, trivial⟩
      · exact ih h.2 _

/-- An operand that has another type than its definition tells both of them. -/
theorem allows_resolveOperand (defs : List Definition) (values : Array Value) {o : Operand}
    (ho : o.Marked S.Marked) : S.Allows (fun _ => True) (resolveOperand defs values o) := by
  rw [resolveOperand.eq_def]
  split
  · exact trivial
  · split
    · exact ⟨ho, trivial⟩
    · split
      · exact ⟨ho, trivial⟩
      · split
        · exact trivial
        · next hne => exact ⟨ho, hne⟩

theorem allows_resolveOperands (defs : List Definition) (values : Array Value) {os : List Operand}
    (hos : ∀ o ∈ os, o.Marked S.Marked) :
    S.Allows (fun _ => True) (resolveOperands defs values os) := by
  induction os generalizing values with
  | nil => exact trivial
  | cons o rest ih =>
    rw [List.forall_mem_cons] at hos
    rw [resolveOperands]
    refine (allows_resolveOperand defs values hos.1).bind fun r _ => ?_
    exact (ih r.2 hos.2).bind fun _ _ => trivial

theorem allows_resolveLabel (defs : List Definition) {label : Ident × Position}
    (h : S.Marked label.2) : S.Allows (fun _ => True) (resolveLabel defs label) := by
  rw [resolveLabel]
  split
  · exact trivial
  · exact ⟨h, trivial⟩

theorem allows_resolveDetail (defs : List Definition) {detail : Detail}
    (h : detail.Marked S.Marked) : S.Allows (fun _ => True) (resolveDetail defs detail) := by
  cases detail with
  | plain => exact trivial
  | compare p => exact trivial
  | alloca allocated => exact trivial
  | phi incoming =>
    rw [resolveDetail]
    refine Scene.Allows.bind (P := fun _ => True) ?_ fun _ _ => trivial
    replace h : ∀ label ∈ incoming, S.Marked label.2 := h
    induction incoming with
    | nil => exact trivial
    | cons label rest ih =>
      rw [List.forall_mem_cons] at h
      rw [List.mapM_cons]
      refine (allows_resolveLabel defs h.1).bind fun _ _ => ?_
      exact (ih h.2).bind fun _ _ => trivial

theorem allows_resolveStatements (defs : List Definition) (result : ValueId) (values : Array Value)
    {ss : List Statement} (hss : ∀ s ∈ ss, s.Marked S.Marked) :
    S.Allows (fun _ => True) (resolveStatements defs result values ss) := by
  induction ss generalizing result values with
  | nil => exact trivial
  | cons s rest ih =>
    rw [List.forall_mem_cons] at hss
    rw [resolveStatements]
    refine (allows_resolveOperands defs values hss.1.instr.operands).bind fun r _ => ?_
    refine (allows_resolveDetail defs hss.1.instr.detail).bind fun _ _ => ?_
    exact (ih (result + 1) r.2 hss.2).bind fun _ _ => trivial

theorem Marked.statements (hd : d.Marked S.Marked) : ∀ s ∈ d.statements, s.Marked S.Marked := by
  intro s hs
  obtain ⟨b, hb, hs⟩ := List.mem_flatMap.mp hs
  exact (hd.blocks b (Array.mem_toList_iff.mp hb)).statements s (Array.mem_toList_iff.mp hs)

/-- Definitions stand where their parameters, labels and statements do. -/
theorem Marked.definitions (hd : d.Marked S.Marked) :
    ∀ x ∈ d.definitions, S.Marked x.position := by
  intro x hx
  rw [Draft.definitions, List.mem_append, List.mem_append] at hx
  rcases hx with (hx | hx) | hx
  · obtain ⟨i, hi, rfl⟩ := List.mem_mapIdx.mp hx
    exact hd.params _ (Array.mem_toList_iff.mp (List.getElem_mem hi))
  · obtain ⟨i, hi, rfl⟩ := List.mem_mapIdx.mp hx
    exact (hd.blocks _ (Array.mem_toList_iff.mp (List.getElem_mem hi))).position
  · obtain ⟨i, hi, rfl⟩ := List.mem_mapIdx.mp hx
    exact (hd.statements _ (List.getElem_mem hi)).position

/-- What is wrong with a draft is wrong at a position that it keeps. -/
theorem Marked.finish (hd : d.Marked S.Marked) : S.Allows (fun _ => True) d.finish := by
  rw [Draft.finish]
  refine (allows_checkDistinct hd.definitions []).bind fun _ _ => ?_
  exact (allows_resolveStatements _ _ _ hd.statements).bind fun _ _ => trivial

end Draft

namespace Function

open Reader Draft

/-! ## Headers -/

theorem goes_skipHeaderAttributes : Goes S skipHeaderAttributes fun _ => True := by
  rw [skipHeaderAttributes]
  exact (goes_skipAttributes _ _).skip fun _ => goes_skipWhile _

theorem goes_readName : Goes S readName fun _ => True := by
  rw [readName]
  refine goes_kind.skip fun k => ?_
  split
  · exact goes_advance.skip fun _ => .pure trivial
  · exact .unexpected

theorem goes_readParam : Goes S readParam fun p => S.Marked p.2.2 := by
  rw [readParam]
  refine goes_position.bind fun position hposition => Ty.goes_read.skip fun ty => ?_
  refine goes_skipHeaderAttributes.skip fun _ => goes_kind.skip fun k => ?_
  split
  · exact goes_advance.skip fun _ => .pure hposition
  · exact .pure hposition

theorem goes_readParams : Goes S readParams fun r => ∀ p ∈ r.1, S.Marked p.2.2 :=
  fun _ => (settles_paramList goes_readParam.below).mono fun _ _ h => ⟨Nat.le_of_lt h.1, h.2⟩

theorem goes_readHeader : Goes S readHeader fun h => ∀ p ∈ h.params, S.Marked p.2.2 := by
  rw [readHeader]
  refine goes_skipHeaderAttributes.skip fun _ => Ty.goes_read.skip fun ret => ?_
  exact goes_readName.skip fun name => goes_readParams.bind fun _ h => .pure h

/-! ## Bodies -/

theorem goes_readResult? : Goes S readResult? fun _ => True := by
  rw [readResult?]
  refine goes_kind.skip fun k => goes_nextKind.skip fun k' => ?_
  split
  · exact goes_advance.skip fun _ => goes_advance.skip fun _ => .pure trivial
  · exact .pure trivial

/-- A statement has a token at least. -/
theorem settles_readStatement (ctx : Context) (hd : d.Marked S.Marked) :
    Settles S n (readStatement ctx d) fun d' m => m < n ∧ d'.Marked S.Marked := by
  rw [readStatement]
  refine (goes_position n).bind fun position m hm => (goes_readResult? m).bind fun _ m₁ h₁ => ?_
  refine (settles_readInstr ctx).bind fun instr m₂ h₂ => ?_
  refine (goes_skipRestOfLine m₂).bind fun _ m₃ h₃ => ?_
  refine ((Goes.lift (hd.pushInstr h₂.2 hm.2 _)) m₃).mono fun d' m₄ h₄ => ⟨?_, h₄.2⟩
  have := hm.1
  have := h₁.1
  have := h₃.1
  have := h₄.1
  omega

/-- Whatever is ahead in a body has a token at least, or ends the body. -/
theorem settles_readBodyItem (ctx : Context) (hd : d.Marked S.Marked) :
    Settles S n (readBodyItem ctx d)
      (RoundWithin n (Draft.Marked S.Marked) (Draft.Marked S.Marked)) := by
  rw [readBodyItem]
  refine settles_kind.bind fun k m h => ?_
  obtain ⟨rfl, hpos⟩ := h
  split
  · exact (goes_advance _).bind fun _ _ h => .pure ⟨h.1, hd⟩
  · exact .unexpected
  · have hm := hpos (by simp)
    refine (goes_position _).bind fun position m₁ h₁ => settles_advance.bind fun _ m₂ h₂ => ?_
    refine (Goes.lift (hd.startBlock h₁.2 _) m₂).bind fun d' m₃ h₃ => .pure ⟨?_, h₃.2⟩
    have := h₁.1
    have := h₃.1
    omega
  · exact (settles_skipLine (hpos (by simp))).bind fun _ m₁ h₁ => .pure ⟨h₁, hd⟩
  · exact (settles_readStatement ctx hd).bind fun _ _ h => .pure h

theorem goes_readBody (ctx : Context) {h : Header} (hh : ∀ p ∈ h.params, S.Marked p.2.2) :
    Goes S (readBody ctx h) fun _ => True := by
  rw [readBody]
  refine (goes_skipWhile _).skip fun _ => (goes_expect _ _).skip fun _ => ?_
  refine (Goes.lift (allows_ofHeader hh)).bind fun d hd => ?_
  refine Goes.bind (.iterate (fun _ _ hd' => settles_readBodyItem ctx hd') hd) fun d' hd' => ?_
  exact .lift hd'.finish

end Function

end IrRecords
