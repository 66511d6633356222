import IrRecords.Draft.Layout
import IrRecords.Proofs.Draft.Building
import IrRecords.Proofs.Draft.SameInstructions

/-!
# Functions are laid out alike

The drafts of a function that is read in two texts with the same tokens differ in positions and in
the texts of constants (`SameDraft`). Neither of them counts when statements are numbered and
operands are resolved: what is refused is refused at the same place in both, and what is laid out is
the same function, up to the texts of constants (`Function.SameBut`).
-/

namespace IrRecords

/-- The function `f'` is the function `f`, but the texts of constants that satisfy `X` may be
others. -/
structure Function.SameBut (X : String → Prop) (f f' : Function) : Prop where
  name : f'.name = f.name
  ret : f'.ret = f.ret
  vararg : f'.vararg = f.vararg
  args : f'.args = f.args
  blocks : f'.blocks = f.blocks
  instrs : f'.instrs = f.instrs
  values : List.Forall₂ (Value.SameBut X) f.values.toList f'.values.toList

namespace Draft

open Reader Twins

variable {T : Twins} {p p' : Position} {d d' : Draft}

/-! ## Drafts -/

structure SameParam (T : Twins) (x x' : Param) : Prop where
  id : x'.id = x.id
  ty : x'.ty = x.ty
  position : T.At x.position x'.position

structure SameStatement (T : Twins) (s s' : Statement) : Prop where
  result? : s'.result? = s.result?
  instr : SameInstr T s.instr s'.instr
  position : T.At s.position s'.position

structure SameBlock (T : Twins) (b b' : Block) : Prop where
  id : b'.id = b.id
  position : T.At b.position b'.position
  statements : SameItems (SameStatement T) b.statements b'.statements

/-- The drafts of the same part of a function. -/
structure SameDraft (T : Twins) (d d' : Draft) : Prop where
  name : d'.name = d.name
  ret : d'.ret = d.ret
  vararg : d'.vararg = d.vararg
  params : SameItems (SameParam T) d.params d'.params
  blocks : SameItems (SameBlock T) d.blocks d'.blocks
  nextSlot : d'.nextSlot = d.nextSlot

/-- The same parameter, as a header gives it. -/
structure SameGiven (T : Twins) (x x' : Ty × Option Ident × Position) : Prop where
  ty : x'.1 = x.1
  id? : x'.2.1 = x.2.1
  position : T.At x.2.2 x'.2.2

structure SameHeader (T : Twins) (h h' : Header) : Prop where
  name : h'.name = h.name
  ret : h'.ret = h.ret
  params : List.Forall₂ (SameGiven T) h.params h'.params
  vararg : h'.vararg = h.vararg

/-! ## Building -/

theorem same_number (next : Nat) (what : Numbered) (hp : T.At p p') (id? : Option Ident) :
    T.SameResult Eq (number next what p id?) (number next what p' id?) := by
  unfold number
  split
  · exact .ok rfl
  · split
    · exact .ok rfl
    · exact .failed hp (.refl _)
  · exact .ok rfl

theorem same_pushParam {x x' : Ty × Option Ident × Position} (h : SameDraft T d d')
    (hx : SameGiven T x x') : T.SameResult (SameDraft T) (d.pushParam x) (d'.pushParam x') := by
  obtain ⟨ty, id?, p⟩ := x
  obtain ⟨ty', id?', p'⟩ := x'
  obtain ⟨rfl, rfl, hp⟩ := hx
  rw [pushParam, pushParam, h.nextSlot]
  refine (same_number _ _ hp _).bind fun r r' hr => ?_
  obtain rfl := hr
  exact .pure ⟨h.name, h.ret, h.vararg, h.params.push ⟨rfl, rfl, hp⟩, h.blocks, rfl⟩

theorem same_ofHeader {h h' : Header} (hh : SameHeader T h h') :
    T.SameResult (SameDraft T) (ofHeader h) (ofHeader h') := by
  rw [ofHeader, ofHeader, hh.name, hh.ret, hh.vararg]
  exact .foldlM (fun _ _ _ _ => same_pushParam) ⟨rfl, rfl, rfl, .nil, .nil, rfl⟩ hh.params

theorem same_startBlock (h : SameDraft T d d') (id? : Option Ident) (hp : T.At p p') :
    T.SameResult (SameDraft T) (d.startBlock id? p) (d'.startBlock id? p') := by
  rw [startBlock, startBlock, h.nextSlot]
  refine (same_number _ _ hp _).bind fun r r' hr => ?_
  obtain rfl := hr
  exact .pure ⟨h.name, h.ret, h.vararg, h.params, h.blocks.push ⟨rfl, hp, .nil⟩, rfl⟩

theorem SameDraft.needsBlock (h : SameDraft T d d') : d'.needsBlock = d.needsBlock := by
  have hblock := h.blocks.back?
  rw [Draft.needsBlock, Draft.needsBlock]
  generalize d.blocks.back? = b? at hblock ⊢
  generalize d'.blocks.back? = b?' at hblock ⊢
  cases hblock with
  | none => rfl
  | @some b b' hb =>
    have hlast := hb.statements.back?
    dsimp only
    generalize b.statements.back? = s? at hlast ⊢
    generalize b'.statements.back? = s?' at hlast ⊢
    cases hlast with
    | none => rfl
    | some hs => exact congrArg Opcode.isTerminator hs.instr.opcode

theorem SameDraft.appendStatement {s s' : Statement} (h : SameDraft T d d')
    (hs : SameStatement T s s') : SameDraft T (d.appendStatement s) (d'.appendStatement s') := by
  have hblock := h.blocks.back?
  rw [Draft.appendStatement, Draft.appendStatement]
  generalize d.blocks.back? = b? at hblock ⊢
  generalize d'.blocks.back? = b?' at hblock ⊢
  cases hblock with
  | none => exact h
  | some hb =>
    refine ⟨h.name, h.ret, h.vararg, h.params, h.blocks.pop.push ?_, h.nextSlot⟩
    exact ⟨hb.id, hb.position, hb.statements.push hs⟩

theorem same_placeInstr {i i' : Instr} (h : SameDraft T d d') (id? : Option Ident)
    (hi : SameInstr T i i') (hp : T.At p p') :
    T.SameResult (SameDraft T) (d.placeInstr id? i p) (d'.placeInstr id? i' p') := by
  rw [placeInstr.eq_def, placeInstr.eq_def, hi.ty, h.nextSlot]
  split
  · split
    · exact .failed hp (.refl _)
    · exact .pure (h.appendStatement ⟨rfl, hi, hp⟩)
  · refine (same_number _ _ hp _).bind fun r r' hr => ?_
    obtain rfl := hr
    have hs : SameStatement T ⟨some r.1, i, p⟩ ⟨some r.1, i', p'⟩ := ⟨rfl, hi, hp⟩
    have happend := h.appendStatement hs
    exact .pure { happend with nextSlot := rfl }

theorem same_pushInstr {i i' : Instr} (h : SameDraft T d d') (id? : Option Ident)
    (hi : SameInstr T i i') (hp : T.At p p') :
    T.SameResult (SameDraft T) (d.pushInstr id? i p) (d'.pushInstr id? i' p') := by
  rw [pushInstr_eq, pushInstr_eq, h.needsBlock]
  refine SameResult.bind (A := SameDraft T) ?_ fun _ _ h => same_placeInstr h id? hi hp
  split
  · exact same_startBlock h none hp
  · exact .ok h

/-! ## Definitions -/

structure SameDefinition (T : Twins) (x x' : Definition) : Prop where
  id? : x'.id? = x.id?
  ty : x'.ty = x.ty
  origin : x'.origin = x.origin
  position : T.At x.position x'.position

theorem forall₂_mapIdx {α α' β β' : Type} {R : α → α' → Prop} {S : β → β' → Prop}
    {f : Nat → α → β} {f' : Nat → α' → β'} {xs : List α} {xs' : List α'}
    (h : List.Forall₂ R xs xs') (hf : ∀ i x x', R x x' → S (f i x) (f' i x')) :
    List.Forall₂ S (xs.mapIdx f) (xs'.mapIdx f') := by
  induction h generalizing f f' with
  | nil => exact .nil
  | cons hx _ ih =>
    rw [List.mapIdx_cons, List.mapIdx_cons]
    exact .cons (hf 0 _ _ hx) (ih fun i => hf (i + 1))

theorem SameDraft.statements (h : SameDraft T d d') :
    List.Forall₂ (SameStatement T) d.statements d'.statements :=
  List.rel_flatMap h.blocks fun _ _ hb => hb.statements

theorem SameDraft.definitions (h : SameDraft T d d') :
    List.Forall₂ (SameDefinition T) d.definitions d'.definitions := by
  refine List.rel_append (List.rel_append ?_ ?_) ?_
  · exact forall₂_mapIdx h.params fun i _ _ hx => ⟨congrArg some hx.id, hx.ty, rfl, hx.position⟩
  · exact forall₂_mapIdx h.blocks fun i _ _ hb => ⟨congrArg some hb.id, rfl, rfl, hb.position⟩
  · exact forall₂_mapIdx h.statements fun i _ _ hs => ⟨hs.result?, hs.instr.ty, rfl, hs.position⟩

variable {defs defs' : List Definition}

theorem SameDefinition.value {x x' : Definition} (h : SameDefinition T x x') :
    x'.value = x.value := by
  rw [Definition.value, Definition.value, h.id?, h.ty, h.origin]

theorem map_value_eq (h : List.Forall₂ (SameDefinition T) defs defs') :
    defs'.map (·.value) = defs.map (·.value) := by
  induction h with
  | nil => rfl
  | cons hx _ ih => rw [List.map_cons, List.map_cons, hx.value, ih]

theorem locate_eq (h : List.Forall₂ (SameDefinition T) defs defs') (id : Ident) :
    locate defs' id = locate defs id := by
  induction h with
  | nil => rfl
  | cons hx _ ih =>
    rw [locate, locate] at ih ⊢
    rw [List.findIdx?_cons, List.findIdx?_cons, hx.id?, ih]

theorem same_getElem? (h : List.Forall₂ (SameDefinition T) defs defs') (place : Nat) :
    Option.Rel (SameDefinition T) defs[place]? defs'[place]? := by
  induction h generalizing place with
  | nil => exact .none
  | cons hx _ ih =>
    cases place with
    | zero => exact .some hx
    | succ place => exact ih place

theorem same_checkDistinct (h : List.Forall₂ (SameDefinition T) defs defs') (seen : List Ident) :
    T.SameResult Eq (checkDistinct seen defs) (checkDistinct seen defs') := by
  induction h generalizing seen with
  | nil => exact .ok rfl
  | cons hx _ ih =>
    rw [checkDistinct, checkDistinct, hx.id?]
    split
    · exact ih seen
    · split
      · exact .failed hx.position (.refl _)
      · exact ih _

/-! ## Operands -/

/-- The same places, and values that are the same up to the texts of constants. -/
structure SamePlaced {α : Type} (T : Twins) (x x' : α × Array Value) : Prop where
  place : x'.1 = x.1
  values : SameItems (Value.SameBut T.Loose) x.2 x'.2

variable {values values' : Array Value}

theorem same_resolveOperand {o o' : Operand} (h : List.Forall₂ (SameDefinition T) defs defs')
    (hvalues : SameItems (Value.SameBut T.Loose) values values') (ho : SameOperand T o o') :
    T.SameResult (SamePlaced T) (resolveOperand defs values o) (resolveOperand defs' values' o') := by
  cases ho with
  | known hv _ =>
    have hsize : values'.size = values.size := hvalues.length_eq.symm
    exact .ok ⟨hsize, hvalues.push hv⟩
  | reference id ty hp =>
    rw [resolveOperand, resolveOperand, locate_eq h]
    split
    · exact .failed hp (.refl _)
    · next place _ =>
      have hdefinition := same_getElem? h place
      generalize defs[place]? = x? at hdefinition ⊢
      generalize defs'[place]? = x?' at hdefinition ⊢
      cases hdefinition with
      | none => exact .failed hp (.refl _)
      | some hx =>
        dsimp only
        rw [hx.ty]
        split
        · exact .ok ⟨rfl, hvalues⟩
        · exact .failed hp (.refl _)

theorem same_resolveOperands {os os' : List Operand}
    (h : List.Forall₂ (SameDefinition T) defs defs')
    (hvalues : SameItems (Value.SameBut T.Loose) values values')
    (hos : List.Forall₂ (SameOperand T) os os') :
    T.SameResult (SamePlaced T) (resolveOperands defs values os)
      (resolveOperands defs' values' os') := by
  induction hos generalizing values values' with
  | nil => exact .ok ⟨rfl, hvalues⟩
  | cons ho _ ih =>
    rw [resolveOperands, resolveOperands]
    refine (same_resolveOperand h hvalues ho).bind fun x x' hx => (ih hx.values).bind fun y y' hy => ?_
    exact .pure ⟨congrArg₂ List.cons hx.place hy.place, hy.values⟩

theorem same_resolveLabel {x x' : Ident × Position} (h : List.Forall₂ (SameDefinition T) defs defs')
    (hx : SameLabel T x x') : T.SameResult Eq (resolveLabel defs x) (resolveLabel defs' x') := by
  obtain ⟨id, p⟩ := x
  obtain ⟨id', p'⟩ := x'
  obtain ⟨rfl, hp⟩ := hx
  rw [resolveLabel, resolveLabel, locate_eq h]
  cases locate defs id' with
  | none => exact .failed hp (.refl _)
  | some place =>
    have hdefinition := same_getElem? h place
    dsimp only [Option.bind_some]
    generalize defs[place]? = x? at hdefinition ⊢
    generalize defs'[place]? = x?' at hdefinition ⊢
    cases hdefinition with
    | none => exact .failed hp (.refl _)
    | @some x x' hx =>
      obtain ⟨_, _, origin, _⟩ := x
      obtain ⟨_, _, origin', _⟩ := x'
      obtain rfl : origin' = origin := hx.origin
      cases origin' <;> first | exact .ok rfl | exact .failed hp (.refl _)

theorem same_resolveDetail {x x' : Detail} (h : List.Forall₂ (SameDefinition T) defs defs')
    (hx : SameDetail T x x') : T.SameResult Eq (resolveDetail defs x) (resolveDetail defs' x') := by
  cases hx with
  | plain => exact .ok rfl
  | compare => exact .ok rfl
  | alloca => exact .ok rfl
  | phi hlabels =>
    rw [resolveDetail, resolveDetail]
    have hblocks := SameResult.mapM (fun _ _ hx => same_resolveLabel h hx) hlabels
    refine hblocks.bind fun bs bs' hbs => ?_
    rw [List.forall₂_eq_eq_eq] at hbs
    exact .pure (congrArg _ hbs)

theorem same_resolveStatements {ss ss' : List Statement}
    (h : List.Forall₂ (SameDefinition T) defs defs') (result : ValueId)
    (hvalues : SameItems (Value.SameBut T.Loose) values values')
    (hss : List.Forall₂ (SameStatement T) ss ss') :
    T.SameResult (SamePlaced T) (resolveStatements defs result values ss)
      (resolveStatements defs' result values' ss') := by
  induction hss generalizing values values' result with
  | nil => exact .ok ⟨rfl, hvalues⟩
  | cons hs _ ih =>
    rw [resolveStatements, resolveStatements]
    refine (same_resolveOperands h hvalues hs.instr.operands).bind fun x x' hx => ?_
    refine (same_resolveDetail h hs.instr.detail).bind fun detail detail' hdetail => ?_
    refine (ih (result + 1) hx.values).bind fun y y' hy => ?_
    refine .pure ⟨?_, hy.values⟩
    rw [hx.place, hy.place, hs.instr.opcode, hdetail]

/-! ## Functions -/

theorem layBlocks_eq {bs bs' : List Block} (h : List.Forall₂ (SameBlock T) bs bs')
    (label : ValueId) (instr : InstrId) : layBlocks label instr bs' = layBlocks label instr bs := by
  induction h generalizing label instr with
  | nil => rfl
  | cons hb _ ih =>
    have hsize := hb.statements.length_eq
    rw [Array.length_toList, Array.length_toList] at hsize
    rw [layBlocks, layBlocks, ih, hb.id, hsize]

theorem forall₂_sameBut_refl (X : String → Prop) (vs : List Value) :
    List.Forall₂ (Value.SameBut X) vs vs := by
  induction vs with
  | nil => exact .nil
  | cons v vs ih => exact .cons (.inl rfl) ih

/-- **The same draft is laid out as the same function.** -/
theorem same_finish (h : SameDraft T d d') :
    T.SameResult (Function.SameBut T.Loose) d.finish d'.finish := by
  have hparams := h.params.length_eq
  have hblocks := h.blocks.length_eq
  rw [Array.length_toList, Array.length_toList] at hparams hblocks
  have hvalues : SameItems (Value.SameBut T.Loose) (d.definitions.map (·.value)).toArray
      (d'.definitions.map (·.value)).toArray := by
    rw [map_value_eq h.definitions]
    exact forall₂_sameBut_refl _ _
  rw [finish, finish, ← hparams, ← hblocks]
  refine (same_checkDistinct h.definitions []).bind fun _ _ _ => ?_
  refine (same_resolveStatements h.definitions _ hvalues h.statements).bind fun x x' hx => ?_
  refine .pure ⟨h.name, h.ret, h.vararg, rfl, ?_, ?_, hx.values⟩
  · exact congrArg List.toArray (layBlocks_eq h.blocks _ _)
  · exact congrArg List.toArray hx.place

end Draft

end IrRecords
