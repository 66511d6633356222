import IrRecords.Proofs.Module.Functions

/-!
# Typed functions

When an instruction is read its result type is computed from the types that its operands are
written at. Here the rule of its opcode (`Opcode.Typing`) is carried over to the finished function,
where an operand is a place and its type is the type of the value at this place. The two agree
because laying out compares each reference with its definition, wherever in the function that is,
and puts each constant and global down at the type it is written at.
-/

namespace IrRecords

/-- What is allocated, if anything is. -/
def Detail.allocated? : Detail → Option Ty
  | alloca allocated => some allocated
  | _ => none

namespace Function

/-- The types that the operands of an instruction have in the function. -/
def operandTypes? (f : Function) (i : Instr) : Option (List Ty) :=
  i.operands.mapM fun id => (f.values[id]?).map (·.ty)

/-- The instruction obeys the rule of its opcode, with the types that its operands and its result
have in the function, and a void result can not be referred to. -/
structure Types (f : Function) (i : Instr) (ts : List Ty) (result : Value) : Prop where
  operand_types : f.operandTypes? i = some ts
  result_value : f.values[i.result]? = some result
  rule : i.opcode.Typing i.detail.allocated? ts result.ty
  unnamed : result.ty = .void → result.name = "" ∧ result.slot? = none

end Function

/-! ## From the draft to the function -/

namespace Draft

variable {d : Draft} {f : Function}

/-- What is allocated is not touched by resolving. -/
theorem allocated?_of_resolveDetail {defs : List Definition} {detail : Detail}
    {detail' : IrRecords.Detail} (h : resolveDetail defs detail = .ok detail') :
    detail'.allocated? = detail.allocated? := by
  cases detail with
  | plain => cases h; rfl
  | compare p => cases h; rfl
  | alloca allocated => cases h; rfl
  | phi labels =>
    unfold resolveDetail at h
    cases hls : labels.mapM (resolveLabel defs) with
    | error e => simp only [Bind.bind, Except.bind, hls] at h; cases h
    | ok blocks =>
      simp only [Bind.bind, Except.bind, hls] at h
      cases h
      rfl

/-- What a definition stands for lies at its own place. -/
theorem LaidOut.value_of_definition (h : LaidOut d f) {place : Nat} {definition : Definition}
    (hplace : d.definitions[place]? = some definition) :
    f.values[place]? = some definition.value := by
  have hlt : place < (d.definitions.map (·.value)).length := by
    rw [List.length_map]
    exact (List.getElem?_eq_some_iff.mp hplace).1
  rw [← Array.getElem?_toList, h.values, List.getElem?_append_left hlt, List.getElem?_map, hplace]
  rfl

/-- An operand has the type in the function that it is written at. -/
theorem LaidOut.ty_of_resolves (h : LaidOut d f) {o : Operand} {place : ValueId}
    (ho : Resolves d.definitions f.values o place) :
    (f.values[place]?).map (·.ty) = some o.ty := by
  cases ho with
  | known _ hplace => rw [hplace]; rfl
  | reference hplace _ hty =>
    rw [h.value_of_definition hplace]
    exact congrArg some hty

/-- So have all operands of an instruction. -/
theorem LaidOut.operandTypes?_eq (h : LaidOut d f) {s : Statement} {i : IrRecords.Instr}
    (hi : Describes d.definitions f.values s i) :
    f.operandTypes? i = some (s.instr.operands.map Operand.ty) := by
  have hall : ∀ {os : List Operand} {places : List ValueId},
      List.Forall₂ (Resolves d.definitions f.values) os places →
      places.mapM (fun id => (f.values[id]?).map (·.ty)) = some (os.map Operand.ty) := by
    intro os places hplaces
    induction hplaces with
    | nil => rfl
    | cons ho _ ih => simp [List.mapM_cons, h.ty_of_resolves ho, ih]
  exact hall hi.operands

/-- The result of an instruction lies behind the arguments and the labels. -/
theorem definitions_getElem?_result {n : Nat} {s : Statement} (hs : d.statements[n]? = some s) :
    d.definitions[d.params.size + d.blocks.size + n]?
      = some ⟨s.result?, s.instr.ty, .instruction n, s.position⟩ := by
  rw [definitions, List.getElem?_append_right (by simp), resultDefinitions, List.getElem?_mapIdx]
  simp [hs]

/-- Results are numbered behind the arguments and the labels. -/
theorem LaidOut.result_eq (h : LaidOut d f) {n : Nat} {i : IrRecords.Instr}
    (hi : f.instrs[n]? = some i) : i.result = d.params.size + d.blocks.size + n := by
  have hn : n < d.statements.length := by
    rw [← h.size_instrs]
    exact (Array.getElem?_eq_some_iff.mp hi).1
  have hrow : (f.instrs.toList.map (·.result))[n]? = some i.result := by
    rw [List.getElem?_map, Array.getElem?_toList, hi]
    rfl
  rw [h.results, List.getElem?_range' hn, Option.some.injEq, Nat.one_mul] at hrow
  exact hrow.symm

/-- The statement that an instruction comes from gives the value that it defines. -/
theorem LaidOut.value_of_result (h : LaidOut d f) {n : Nat} {i : IrRecords.Instr}
    (hi : f.instrs[n]? = some i) :
    ∃ s, d.statements[n]? = some s ∧ Describes d.definitions f.values s i
      ∧ f.values[i.result]?
        = some (Definition.value ⟨s.result?, s.instr.ty, .instruction n, s.position⟩) := by
  have hn : n < d.statements.length := by
    rw [← h.size_instrs]
    exact (Array.getElem?_eq_some_iff.mp hi).1
  have hs : d.statements[n]? = some d.statements[n] := List.getElem?_eq_getElem hn
  have hdescribes : Describes d.definitions f.values d.statements[n] i := by
    have hlist : f.instrs.toList[n]? = some i := by rw [Array.getElem?_toList, hi]
    obtain ⟨hn', hlist⟩ := List.getElem?_eq_some_iff.mp hlist
    rw [← hlist]
    exact h.instrs.get hn hn'
  refine ⟨d.statements[n], hs, hdescribes, ?_⟩
  rw [h.result_eq hi]
  exact h.value_of_definition (definitions_getElem?_result hs)

/-- **The instructions of a function that was laid out from a well-formed draft are typed.** -/
theorem LaidOut.types (h : LaidOut d f) (hd : d.WellFormed) {i : IrRecords.Instr}
    (hi : i ∈ f.instrs) : ∃ ts result, f.Types i ts result := by
  obtain ⟨n, hn⟩ := Array.mem_iff_getElem?.mp hi
  obtain ⟨s, hs, hdescribes, hresult⟩ := h.value_of_result hn
  have hwf := hd s (List.mem_of_getElem? hs)
  refine ⟨_, _, h.operandTypes?_eq hdescribes, hresult, ?_, fun hvoid => ?_⟩
  · rw [hdescribes.opcode, allocated?_of_resolveDetail hdescribes.detail]
    exact hwf.instr.typing
  · rw [Definition.value, hwf.result.mpr hvoid]
    exact ⟨rfl, rfl⟩

end Draft

/-! ## Modules -/

namespace Module

/-- **Every instruction of every function that has been read is typed** by the rule of its opcode,
with the types of its operands and of its result in the function. -/
theorem typed_of_read {source : String} {m : Module} {f : Function} {i : Instr}
    (h : (Module.read source).result = .ok m) (hf : f ∈ m.functions) (hi : i ∈ f.instrs) :
    ∃ ts result, f.Types i ts result := by
  obtain ⟨d, hd, hfinish⟩ := (read_spec h).1 f hf
  exact (Draft.finish_spec hfinish).types hd hi

/-- The addition in the loop, whose operands are a phi and a constant, is typed. -/
theorem typed_of_read_loop : ∃ m f i, (Module.read loopSource).result = .ok m
    ∧ m.functions = [f] ∧ f.instrs[3]? = some i ∧ i.opcode = .binary .add
    ∧ ∃ ts result, f.Types i ts result := by
  have hread : ((Module.read loopSource).result.toOption.map
      fun m => m.functions.map fun f => (f.instrs[3]?).map (·.opcode))
        = some [some (.binary .add)] := by decide +kernel
  cases hm : (Module.read loopSource).result with
  | error e => rw [hm] at hread; cases hread
  | ok m =>
    rw [hm, Except.toOption, Option.map_some, Option.some.injEq] at hread
    obtain ⟨f, hf, hinstr⟩ := List.map_eq_singleton_iff.mp hread
    obtain ⟨i, hi, hopcode⟩ := Option.map_eq_some_iff.mp hinstr
    have hmem : f ∈ m.functions := by rw [hf]; exact List.mem_singleton_self f
    exact ⟨m, f, i, rfl, hf, hi, hopcode, typed_of_read hm hmem (Array.mem_of_getElem? hi)⟩

end Module

end IrRecords
