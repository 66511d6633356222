import IrRecords.Draft.Layout
import IrRecords.Proofs.Draft.Typing
import Mathlib.Data.List.Forall2

/-!
# What laying out a draft comes to

`Draft.finish` numbers everything in a draft by counting: arguments, labels and results first, then
the constants and globals as the operands are resolved. `LaidOut` says in one place what the
function then looks like, seen from the draft, and `finish_spec` that every function that `finish`
answers is of this form. Nothing behind this module unfolds `finish` again.

Resolving threads the growing array of values through the operands. What it does to the array is
simple, though: the operands that are no references are put behind it, in their order. With that
as the invariant (`resolveOperands_values`) the place of each operand is known in the final array,
and not only in the array at the time.
-/

namespace IrRecords

/-- In two rows that are related element by element, what stands at a place of the second is related
to what stands there in the first. -/
theorem exists_getElem?_of_forall₂ {α β : Type} {R : α → β → Prop} {xs : List α} {ys : List β}
    {n : Nat} {y : β} (h : List.Forall₂ R xs ys) (hy : ys[n]? = some y) :
    ∃ x, xs[n]? = some x ∧ R x y := by
  induction h generalizing n with
  | nil => cases hy
  | cons hxy _ ih =>
    cases n with
    | zero => cases hy; exact ⟨_, rfl, hxy⟩
    | succ n => exact ih hy

/-- So what stands in the second has a partner in the first. -/
theorem exists_left_of_forall₂ {α β : Type} {R : α → β → Prop} {xs : List α} {ys : List β} {y : β}
    (h : List.Forall₂ R xs ys) (hy : y ∈ ys) : ∃ x ∈ xs, R x y := by
  obtain ⟨n, hn⟩ := List.mem_iff_getElem?.mp hy
  obtain ⟨x, hx, hR⟩ := exists_getElem?_of_forall₂ h hn
  exact ⟨x, List.mem_of_getElem? hx, hR⟩

theorem exists_right_of_forall₂ {α β : Type} {R : α → β → Prop} {xs : List α} {ys : List β} {x : α}
    (h : List.Forall₂ R xs ys) (hx : x ∈ xs) : ∃ y ∈ ys, R x y :=
  exists_left_of_forall₂ h.flip hx

/-- Rows that are related element by element to one in the middle are related to each other. -/
theorem forall₂_of_forall₂ {α β γ : Type} {R : α → β → Prop} {S : β → γ → Prop} {T : α → γ → Prop}
    {xs : List α} {ys : List β} {zs : List γ} (hxy : List.Forall₂ R xs ys)
    (hyz : List.Forall₂ S ys zs) (hT : ∀ x ∈ xs, ∀ y z, R x y → S y z → T x z) :
    List.Forall₂ T xs zs := by
  induction hxy generalizing zs with
  | nil => cases hyz; exact .nil
  | cons hx _ ih =>
    cases hyz with
    | cons hy hyz =>
      obtain ⟨hfirst, hrest⟩ := List.forall_mem_cons.mp hT
      exact .cons (hfirst _ _ hx hy) (ih hyz hrest)

/-- Rows that are related element by element look the same to functions that do not tell related
elements apart. -/
theorem filterMap_eq_of_forall₂ {α β γ : Type} {R : α → β → Prop} {f : α → Option γ}
    {g : β → Option γ} {xs : List α} {ys : List β} (h : List.Forall₂ R xs ys)
    (hfg : ∀ x y, R x y → g y = f x) : ys.filterMap g = xs.filterMap f := by
  induction h with
  | nil => rfl
  | cons hxy _ ih => rw [List.filterMap_cons, List.filterMap_cons, hfg _ _ hxy, ih]

theorem map_eq_of_forall₂ {α β γ : Type} {R : α → β → Prop} {f : α → γ} {g : β → γ} {xs : List α}
    {ys : List β} (h : List.Forall₂ R xs ys) (hfg : ∀ x y, R x y → g y = f x) :
    ys.map g = xs.map f := by
  induction h with
  | nil => rfl
  | cons hxy _ ih => rw [List.map_cons, List.map_cons, hfg _ _ hxy, ih]

theorem flatMap_eq_of_forall₂ {α β γ : Type} {R : α → β → Prop} {f : α → List γ} {g : β → List γ}
    {xs : List α} {ys : List β} (h : List.Forall₂ R xs ys) (hfg : ∀ x y, R x y → g y = f x) :
    ys.flatMap g = xs.flatMap f := by
  rw [List.flatMap, List.flatMap, map_eq_of_forall₂ h hfg]

/-- What a walk along a row comes to, element by element. -/
theorem forall₂_of_mapM {α β : Type} {g : α → Option β} {xs : List α} {ys : List β}
    (h : xs.mapM g = some ys) : List.Forall₂ (fun x y => g x = some y) xs ys := by
  induction xs generalizing ys with
  | nil => cases h; exact .nil
  | cons x xs ih =>
    rw [List.mapM_cons] at h
    obtain ⟨y, hx, h⟩ := Option.bind_eq_some_iff.mp h
    obtain ⟨ys', hxs, h⟩ := Option.bind_eq_some_iff.mp h
    cases h
    exact .cons hx (ih hxs)

namespace Draft

/-- The value that an operand brings along, if it is no reference. -/
def Operand.known? : Operand → Option Value
  | reference .. => none
  | known value => some value

/-! ## Resolved operands -/

/-- The place `id` in `values` is where the operand `o` leads. A reference leads to its definition,
which has the type that the reference is used at; anything else lies behind all definitions. -/
inductive Resolves (defs : List Definition) (values : Array Value) : Operand → ValueId → Prop
  | reference {id : Ident} {ty : Ty} {position : Position} {place : Nat} {definition : Definition}
      (hplace : defs[place]? = some definition) (hid : definition.id? = some id)
      (hty : definition.ty = ty) : Resolves defs values (.reference id ty position) place
  | known {value : Value} {place : Nat} (hbehind : defs.length ≤ place)
      (hplace : values[place]? = some value) : Resolves defs values (.known value) place

/-- Values that are added at the end do not move those that are there. -/
theorem Resolves.extend {defs : List Definition} {values values' : Array Value} {o : Operand}
    {place : ValueId} {more : List Value} (h : Resolves defs values o place)
    (hmore : values'.toList = values.toList ++ more) : Resolves defs values' o place := by
  cases h with
  | reference hplace hid hty => exact .reference hplace hid hty
  | known hbehind hplace =>
    refine .known hbehind ?_
    rw [← Array.getElem?_toList] at hplace ⊢
    rw [hmore, List.getElem?_append_left (List.getElem?_eq_some_iff.mp hplace).1]
    exact hplace

/-- The place that `locate` answers holds a definition of the identifier. -/
theorem id?_of_locate {defs : List Definition} {id : Ident} {place : Nat} {definition : Definition}
    (h : locate defs id = some place) (hplace : defs[place]? = some definition) :
    definition.id? = some id := by
  rw [locate, List.findIdx?_eq_some_iff_getElem] at h
  obtain ⟨hlt, hid, _⟩ := h
  rw [List.getElem?_eq_getElem hlt, Option.some.injEq] at hplace
  rw [← hplace]
  exact eq_of_beq hid

section Operands

variable {defs : List Definition} {values values' : Array Value} {o : Operand} {place : ValueId}

/-- One operand: a known value is put at the end, a reference leaves the values alone. -/
theorem resolveOperand_spec (hdefs : defs.length ≤ values.size)
    (h : resolveOperand defs values o = .ok (place, values')) :
    values'.toList = values.toList ++ o.known?.toList ∧ Resolves defs values' o place
      ∧ [place].filter (defs.length ≤ ·) = List.range' values.size o.known?.toList.length := by
  cases o with
  | known value =>
    cases h
    refine ⟨by simp [Operand.known?], .known hdefs (by simp), ?_⟩
    simp [Operand.known?, hdefs]
  | reference id ty position =>
    simp only [resolveOperand] at h
    cases hlocate : locate defs id with
    | none => rw [hlocate] at h; cases h
    | some n =>
      rw [hlocate] at h
      cases hn : defs[n]? with
      | none => simp only [hn] at h; cases h
      | some definition =>
        simp only [hn] at h
        by_cases hty : definition.ty = ty
        · rw [if_pos hty] at h
          cases h
          -- A reference leads to a definition, which is in front of all that is counted.
          have hlt : place < defs.length := (List.getElem?_eq_some_iff.mp hn).1
          refine ⟨by simp [Operand.known?], .reference hn (id?_of_locate hlocate hn) hty, ?_⟩
          simp [Operand.known?, hlt]
        · rw [if_neg hty] at h
          cases h

/-- A row of operands. The third part says that the operands that lie behind the definitions take
the free places one after the other. -/
theorem resolveOperands_spec {os : List Operand} {places : List ValueId}
    (hdefs : defs.length ≤ values.size)
    (h : resolveOperands defs values os = .ok (places, values')) :
    values'.toList = values.toList ++ os.filterMap Operand.known?
      ∧ List.Forall₂ (Resolves defs values') os places
      ∧ places.filter (defs.length ≤ ·)
        = List.range' values.size (os.filterMap Operand.known?).length := by
  induction os generalizing values places with
  | nil =>
    cases h
    exact ⟨by simp, .nil, by simp⟩
  | cons o os ih =>
    unfold resolveOperands at h
    cases ho : resolveOperand defs values o with
    | error e => rw [ho] at h; cases h
    | ok r =>
      obtain ⟨place, values₁⟩ := r
      rw [ho] at h
      cases hos : resolveOperands defs values₁ os with
      | error e => simp only [Bind.bind, Except.bind, hos] at h; cases h
      | ok r' =>
        obtain ⟨places', values₂⟩ := r'
        simp only [Bind.bind, Except.bind, hos] at h
        cases h
        -- The places behind the definitions go on where the first operand has left off.
        obtain ⟨hvalues₁, hplace, hfresh⟩ := resolveOperand_spec hdefs ho
        have hsize : values₁.size = values.size + o.known?.toList.length := by
          rw [← Array.length_toList, hvalues₁, List.length_append, Array.length_toList]
        obtain ⟨hvalues₂, hplaces, hfresh'⟩ := ih (by omega) hos
        have hknown : (o :: os).filterMap Operand.known?
            = o.known?.toList ++ os.filterMap Operand.known? := by
          cases hk : o.known? <;> simp [hk]
        refine ⟨?_, .cons (hplace.extend hvalues₂) hplaces, ?_⟩
        · rw [hvalues₂, hvalues₁, hknown, List.append_assoc]
        · rw [← List.singleton_append, List.filter_append, hfresh, hfresh', hknown,
            List.length_append, hsize, List.range'_append_1]

end Operands

/-! ## Resolved statements -/

/-- What the instruction `i` has from the statement `s`: all but its result. -/
structure Describes (defs : List Definition) (values : Array Value) (s : Statement)
    (i : IrRecords.Instr) : Prop where
  opcode : i.opcode = s.instr.opcode
  operands : List.Forall₂ (Resolves defs values) s.instr.operands i.operands
  detail : resolveDetail defs s.instr.detail = .ok i.detail

/-- The operands of a row of statements. -/
def operandsOf (ss : List Statement) : List Operand := ss.flatMap (·.instr.operands)

theorem resolveStatements_spec {defs : List Definition} {values values' : Array Value}
    {result : ValueId} {ss : List Statement} {is : List IrRecords.Instr}
    (hdefs : defs.length ≤ values.size)
    (h : resolveStatements defs result values ss = .ok (is, values')) :
    values'.toList = values.toList ++ (operandsOf ss).filterMap Operand.known?
      ∧ List.Forall₂ (Describes defs values') ss is
      ∧ is.map (·.result) = List.range' result ss.length
      ∧ (is.flatMap (·.operands)).filter (defs.length ≤ ·)
        = List.range' values.size ((operandsOf ss).filterMap Operand.known?).length := by
  induction ss generalizing values result is with
  | nil =>
    cases h
    exact ⟨by simp [operandsOf], .nil, by simp, by simp [operandsOf]⟩
  | cons s ss ih =>
    unfold resolveStatements at h
    cases ho : resolveOperands defs values s.instr.operands with
    | error e => rw [ho] at h; cases h
    | ok r =>
      obtain ⟨places, values₁⟩ := r
      cases hd : resolveDetail defs s.instr.detail with
      | error e => simp only [Bind.bind, Except.bind, ho, hd] at h; cases h
      | ok detail =>
        cases hss : resolveStatements defs (result + 1) values₁ ss with
        | error e => simp only [Bind.bind, Except.bind, ho, hd, hss] at h; cases h
        | ok r' =>
          obtain ⟨is', values₂⟩ := r'
          simp only [Bind.bind, Except.bind, ho, hd, hss] at h
          cases h
          -- As above, with the operands of a statement in the place of one operand.
          obtain ⟨hvalues₁, hplaces, hfresh⟩ := resolveOperands_spec hdefs ho
          have hsize : values₁.size = values.size
              + (s.instr.operands.filterMap Operand.known?).length := by
            rw [← Array.length_toList, hvalues₁, List.length_append, Array.length_toList]
          obtain ⟨hvalues₂, his, hresults, hfresh'⟩ := ih (by omega) hss
          have hoperands : operandsOf (s :: ss) = s.instr.operands ++ operandsOf ss := rfl
          refine ⟨?_, .cons ⟨rfl, ?_, hd⟩ his, ?_, ?_⟩
          · rw [hvalues₂, hvalues₁, hoperands, List.filterMap_append, List.append_assoc]
          · exact hplaces.imp fun o place hplace => hplace.extend hvalues₂
          · rw [List.map_cons, hresults, List.length_cons, List.range'_succ]
          · rw [List.flatMap_cons, List.filter_append, hfresh, hfresh', hoperands,
              List.filterMap_append, List.length_append, hsize, List.range'_append_1]

/-! ## Blocks -/

theorem layBlocks_label (label instr : Nat) (bs : List Block) :
    (layBlocks label instr bs).map (·.label) = List.range' label bs.length := by
  induction bs generalizing label instr with
  | nil => rfl
  | cons b bs ih => rw [layBlocks, List.map_cons, ih, List.length_cons, List.range'_succ]

theorem layBlocks_name (label instr : Nat) (bs : List Block) :
    (layBlocks label instr bs).map (·.name) = bs.map (·.id.name) := by
  induction bs generalizing label instr with
  | nil => rfl
  | cons b bs ih => rw [layBlocks, List.map_cons, List.map_cons, ih]

/-- The blocks share out the instructions in one row. -/
theorem layBlocks_instrs (label instr : Nat) (bs : List Block) :
    (layBlocks label instr bs).flatMap (·.instrs)
      = List.range' instr (bs.flatMap (·.statements.toList)).length := by
  induction bs generalizing label instr with
  | nil => rfl
  | cons b bs ih =>
    rw [layBlocks, List.flatMap_cons, ih, List.flatMap_cons, List.length_append,
      List.range'_append_1]
    rfl

/-! ## Functions -/

/-- The function `f`, seen from the draft `d` that it was laid out from. -/
structure LaidOut (d : Draft) (f : Function) : Prop where
  name : f.name = d.name
  ret : f.ret = d.ret
  vararg : f.vararg = d.vararg
  distinct : checkDistinct [] d.definitions = .ok ()
  args : f.args = List.range d.params.size
  blocks : f.blocks.toList = layBlocks d.params.size 0 d.blocks.toList
  values : f.values.toList = d.definitions.map (·.value)
    ++ (operandsOf d.statements).filterMap Operand.known?
  instrs : List.Forall₂ (Describes d.definitions f.values) d.statements f.instrs.toList
  results : f.instrs.toList.map (·.result)
    = List.range' (d.params.size + d.blocks.size) d.statements.length
  fresh : (f.instrs.toList.flatMap (·.operands)).filter (d.definitions.length ≤ ·)
    = List.range' d.definitions.length
      ((operandsOf d.statements).filterMap Operand.known?).length

/-- **What `finish` answers.** -/
theorem finish_spec {d : Draft} {f : Function} (h : d.finish = .ok f) : LaidOut d f := by
  unfold finish at h
  cases hdistinct : checkDistinct [] d.definitions with
  | error e => simp only [Bind.bind, Except.bind, hdistinct] at h; cases h
  | ok u =>
    cases hss : resolveStatements d.definitions (d.params.size + d.blocks.size)
        (d.definitions.map (·.value)).toArray d.statements with
    | error e => simp only [Bind.bind, Except.bind, hdistinct, hss] at h; cases h
    | ok r =>
      obtain ⟨is, values⟩ := r
      simp only [Bind.bind, Except.bind, hdistinct, hss] at h
      cases h
      have hsize : (d.definitions.map (·.value)).toArray.size = d.definitions.length := by simp
      obtain ⟨hvalues, his, hresults, hfresh⟩ := resolveStatements_spec (Nat.le_of_eq hsize.symm) hss
      rw [hsize] at hfresh
      exact ⟨rfl, rfl, rfl, hdistinct, rfl, rfl, hvalues, his, hresults, hfresh⟩

end Draft

end IrRecords
