import IrRecords.Proofs.Draft.Addresses
import IrRecords.Proofs.Module.Segments

/-!
# The addresses that functions compute

An address computation of a function has a text (`Draft.Address.WrittenIn`), operands that are those of
the text, and a result of the type that the source type, the base and the indices make
(`Draft.Address.HasType`). `addresses_of_read` says so of all functions that are read; it also says what
happens where there is no such type. Then the instruction is not read, and the diagnostic is about the
first index that leads nowhere.
-/

namespace IrRecords

/-- The instruction of the function computes this address. -/
structure Function.HasAddress (f : Function) (types : TypeTable) (i : Instr) (a : Draft.Address) :
    Prop where
  operands : List.Forall₂ f.Refers a.operands i.operands
  result : ∃ v, f.values[i.result]? = some v ∧ a.HasType types v.ty

namespace Module

/-- A statement of a definition is a part of its body. -/
theorem Definition.statement_mem {D : Definition} {w : WrittenStatement} (hw : w ∈ D.statements) :
    .statement w ∈ D.parts := by
  obtain ⟨part, hpart, hsome⟩ := List.mem_filterMap.mp hw
  cases part with
  | statement w' => cases hsome; exact hpart
  | label t => cases hsome
  | remark ts => cases hsome

/-- **The statements of a definition are the instructions of its function**, in a row. -/
theorem Definition.Valid.forall₂_makes {D : Definition} (h : D.Valid) :
    List.Forall₂ (·.Makes D.function) D.statements D.function.instrs.toList := by
  obtain ⟨header, d, d', _, hheader, hadds, hfinish⟩ := h.body
  have hlaid := Draft.finish_spec hfinish
  obtain ⟨_, statements, hstatements, htold⟩ := hadds.contents
  rw [Draft.statements_ofHeader hheader, List.nil_append] at hstatements
  rw [← hstatements] at htold
  refine forall₂_of_getElem? (htold.length_eq.trans hlaid.instrs.length_eq) fun n w i hw hi => ?_
  obtain ⟨st, hst, hsaid⟩ := exists_getElem?_of_forall₂ htold.flip hw
  obtain ⟨i', hi', hmakes⟩ := hlaid.makes hst hsaid
    (hadds.valid_of_mem (Definition.statement_mem (List.mem_of_getElem? hw)))
  rw [Array.getElem?_toList, hi', Option.some.injEq] at hi
  exact hi ▸ hmakes

/-- What a statement computes, the instruction that it makes computes. -/
theorem hasAddress_of_makes {w : WrittenStatement} {f : Function} {i : Instr} {types : TypeTable}
    {a : Draft.Address} (h : w.Makes f i) (ha : Draft.Computes types a w.instr w.tokens) :
    f.HasAddress types i a := by
  obtain ⟨v, hv, hty, _⟩ := h.result
  have hoperands := h.operands
  cases w with
  | mk result? marks instr tokens trailer =>
    cases ha with
    | intro _ _ _ htype => exact ⟨hoperands, v, hv, hty ▸ htype⟩

/-- **Addresses have the types that their indices lead to.** -/
theorem addresses_of_read {source : String} {m : Module} (h : (Module.read source).result = .ok m) :
    (∃ parts, FallsInto source m parts ∧ ∀ D, .definition D ∈ parts →
      List.Forall₂ (fun w i => w.Makes D.function i ∧ (i.opcode = .getelementptr →
        ∃ a, Draft.Computes m.types a w.instr w.tokens ∧ D.function.HasAddress m.types i a))
        D.statements D.function.instrs.toList)
    ∧ ∀ ctx c a later d, Draft.AtAddress c →
      Draft.readAddress (Draft.behindOpcode c) = .ok (a, later) →
      (Draft.readInstr ctx c = .error d ↔
        ∃ fault, (∃ pointee space, a.baseTy.scalar = .pointer pointee space)
          ∧ a.StuckAt ctx.types fault
          ∧ d = ⟨(Draft.behindOpcode c).current.start, .index fault⟩) := by
  refine ⟨?_, fun ctx c a later d hc ha => Draft.readInstr_getelementptr hc ha d⟩
  obtain ⟨parts, hparts, hreads⟩ := exists_parts_readIn_of_read h
  refine ⟨parts, hparts, fun D hD => ?_⟩
  cases hparts.valid _ hD with
  | definition hvalid =>
    have hwritten : ∀ w ∈ D.statements, w.instr.opcode = .getelementptr →
        ∃ a, Draft.Computes m.types a w.instr w.tokens := by
      intro w hw
      exact (hreads _ hD _ (Definition.statement_mem hw)).of_passes
        (Draft.passes_getelementptr m.context)
    refine ((List.forall₂_and_left _ _).mpr ⟨hwritten, hvalid.forall₂_makes⟩).imp ?_
    rintro w i ⟨hw, hmakes⟩
    refine ⟨hmakes, fun hi => ?_⟩
    obtain ⟨a, ha⟩ := hw (hmakes.opcode.symm.trans hi)
    exact ⟨a, ha, hasAddress_of_makes hmakes ha⟩

/-- Addresses of a field, of fields of many structs, of an element of the field of a struct at many
bases, and of a plain pointer. -/
def fieldSource : String :=
  "%T = type \x7b i32, [2 x i8] \x7d
define void @f(%T addrspace(3)* %p, <2 x i64> %i, <2 x %T*> %q, ptr %r) \x7b
  %a = getelementptr %T, %T addrspace(3)* %p, i64 0, i32 1
  %b = getelementptr %T, %T addrspace(3)* %p, <2 x i64> %i, i32 0
  %c = getelementptr %T, <2 x %T*> %q, i64 0, i32 1, i64 7
  %d = getelementptr %T, ptr %r, i64 0, i32 9
  ret void
\x7d
"

/-- In front of the address of a field that the struct does not have. -/
def strayCursor? : Option Cursor :=
  (Token.scan "getelementptr %T, %T* %p, i64 0, i32 2").toOption.map
    fun stream => ⟨none, stream.tokens, stream.stop⟩

/-- The addresses of `fieldSource`, and one that is not among them. -/
theorem addresses_of_read_fields : ∃ m parts, (Module.read fieldSource).result = .ok m
    ∧ FallsInto fieldSource m parts
    ∧ (∀ D, .definition D ∈ parts →
      List.Forall₂ (fun w i => w.Makes D.function i ∧ (i.opcode = .getelementptr →
        ∃ a, Draft.Computes m.types a w.instr w.tokens ∧ D.function.HasAddress m.types i a))
        D.statements D.function.instrs.toList)
    ∧ m.functions.map (fun f => f.instrs.toList.map fun i => (f.values[i.result]?).map (·.ty.text))
      = [[some "[2 x i8] addrspace(3)*", some "<2 x i32 addrspace(3)*>", some "<2 x i8*>", some "ptr",
        some "void"]]
    ∧ ∃ c a later d, Draft.AtAddress c
      ∧ Draft.readAddress (Draft.behindOpcode c) = .ok (a, later)
      ∧ Draft.readInstr m.context c = .error d
      ∧ d.fault = .index (.outOfRange 2 (.named "T"))
      ∧ ∃ fault, a.StuckAt m.types fault := by
  have hread : ((Module.read fieldSource).result.toOption.map fun m =>
      (m.functions.map fun f => f.instrs.toList.map fun i => (f.values[i.result]?).map (·.ty.text),
        strayCursor?.map fun c => ((c.advanceWhile (Reader.isWordOf Draft.callMarkers)).current.kind,
          (Draft.readAddress (Draft.behindOpcode c)).toOption.isSome,
          match Draft.readInstr m.context c with
          | .ok _ => none
          | .error d => some d.fault)))
      = some ([[some "[2 x i8] addrspace(3)*", some "<2 x i32 addrspace(3)*>", some "<2 x i8*>",
          some "ptr", some "void"]],
        some (.word "getelementptr", true, some (.index (.outOfRange 2 (.named "T"))))) := by
    decide +kernel
  obtain ⟨m, hm, hread⟩ := exists_ok_of_toOption hread
  obtain ⟨htypes, hstray⟩ := Prod.mk.inj hread
  obtain ⟨⟨parts, hparts, haddresses⟩, hfails⟩ := addresses_of_read hm
  refine ⟨m, parts, hm, hparts, haddresses, htypes, ?_⟩
  obtain ⟨c, _, hc⟩ := Option.map_eq_some_iff.mp hstray
  simp only [Prod.mk.injEq] at hc
  obtain ⟨hat, hsome, hfault⟩ := hc
  cases ha : Draft.readAddress (Draft.behindOpcode c) with
  | error d => rw [ha] at hsome; cases hsome
  | ok r =>
    cases hinstr : Draft.readInstr m.context c with
    | ok r => rw [hinstr] at hfault; cases hfault
    | error d =>
      rw [hinstr] at hfault
      obtain ⟨fault, _, hstuck, _⟩ := (hfails m.context c r.1 r.2 d hat ha).mp hinstr
      exact ⟨c, r.1, r.2, d, hat, ha, hinstr, Option.some.inj hfault, fault, hstuck⟩

end Module

end IrRecords
