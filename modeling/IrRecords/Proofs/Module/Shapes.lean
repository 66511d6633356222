import IrRecords.Proofs.Module.Addresses

/-!
# The shapes of operands

Three opcodes are about vectors, and an address computation is about pointers or vectors of them. What the
reader asks of the first operand is less than that (`Opcode.Shape`). An element is taken out of anything that
has elements, so out of an array as well; an element is put into a value of any type, and what comes out has
that type; and from a base that is no pointer no pointer comes out. `shapes_of_read` says so of all functions
that are read. It also says that, once the operands of `extractelement` or `shufflevector` have been read, a
first operand without elements is the only thing that can be wrong.
-/

namespace IrRecords

namespace Ty

/-- Whether the type is one of pointers, typed or not. -/
def isPointer : Ty → Bool
  | pointer .. | bare _ => true
  | _ => false

/-- Whether the type is an array type. -/
def isArray : Ty → Bool
  | array .. => true
  | _ => false

/-- Arrays and vectors have elements, and nothing else has. -/
theorem element?_eq_none_iff {ty : Ty} : ty.element? = none ↔ ¬ (ty.isVector = true ∨ ty.isArray = true) := by
  cases ty <;> simp [element?, isVector, isArray]

end Ty

/-- What an opcode that is about vectors or pointers makes of its first operand. The types of the operands are
`ts`, and `r` is the type of the result. -/
def Opcode.Shape (ts : List Ty) (r : Ty) : Opcode → Prop
  | .extractelement => ∃ first, ts.head? = some first ∧ (first.isVector = true ∨ first.isArray = true)
      ∧ first.element? = some r
  | .insertelement => ts.head? = some r
  | .shufflevector => ∃ first, ts.head? = some first ∧ (first.isVector = true ∨ first.isArray = true)
      ∧ ∃ mask elem : Ty, first.element? = some elem ∧ r = mask.reshape elem
  | .getelementptr => ∃ first, ts.head? = some first
      ∧ (r.scalar.isPointer = true ↔ first.scalar.isPointer = true)
  | _ => True

namespace Draft

open Reader

/-! ## What is read -/

theorem hasElements {ty elem : Ty} (h : ty.element? = some elem) :
    ty.isVector = true ∨ ty.isArray = true := by
  by_contra hnone
  rw [Ty.element?_eq_none_iff.mpr hnone] at h
  cases h

theorem readShufflevector_shape (position : Position) : (readShufflevector position).Yields fun i =>
    Opcode.shufflevector.Shape (i.operands.map Operand.ty) i.ty := by
  rw [readShufflevector]
  refine readTypedOperand_spec.bind fun first hlhs => .skip fun _ => .skip fun rhs => ?_
  refine .skip fun _ => .skip fun mask => ?_
  cases helem : first.1.element? with
  | none => exact .failAt
  | some elem =>
    refine .pure ⟨first.1, ?_, hasElements helem, mask.1, elem, helem, rfl⟩
    exact congrArg some hlhs.ty_eq

/-- The base of an address computation is used at the type that it is read at. -/
theorem readAddress_spec : readAddress.Yields fun a => a.base.ty = a.baseTy := by
  rw [readAddress]
  refine .skip fun _ => .skip fun _ => .skip fun source => .skip fun _ => ?_
  exact readTypedOperand_spec.bind fun base hbase => .skip fun indices => .pure hbase.ty_eq

/-- Pointers come out of pointers, and of nothing else. -/
theorem Address.HasType.isPointer_iff {types : TypeTable} {a : Address} {r : Ty} (h : a.HasType types r) :
    r.scalar.isPointer = true ↔ a.baseTy.scalar.isPointer = true := by
  by_cases htyped : ∃ pointee space, a.baseTy.scalar = .pointer pointee space
  · obtain ⟨pointee, space, hbase⟩ := htyped
    obtain ⟨reached, _, hr⟩ := h.typed pointee space hbase
    rw [hr, hbase]
    exact Iff.rfl
  · rw [h.untyped fun pointee space hbase => htyped ⟨pointee, space, hbase⟩]

theorem readGetelementptr_shape (ctx : Context) : (readGetelementptr ctx).Yields fun i =>
    Opcode.getelementptr.Shape (i.operands.map Operand.ty) i.ty := by
  intro c i later h
  obtain ⟨a, ha⟩ := exists_readAddress h
  rcases readGetelementptr_cases ctx ha with ⟨r, htype, hread⟩ | ⟨fault, _, _, hread⟩
  · rw [hread] at h
    cases h
    exact ⟨a.baseTy, congrArg some (readAddress_spec c a later ha), htype.isPointer_iff⟩
  · rw [hread] at h
    cases h

/-- **What is read has the shape that its opcode asks for.** -/
theorem readInstr_shape (ctx : Context) : (readInstr ctx).Yields fun i =>
    i.opcode.Shape (i.operands.map Operand.ty) i.ty := by
  intro c i later h
  have htyping := (readInstr_spec ctx c i later h).typing
  have hread := h
  rw [readInstr_of_opcode (opcode_of_readInstr h)] at hread
  generalize i.opcode = op at htyping hread ⊢
  cases op with
  | extractelement =>
    obtain ⟨vector, index, hts, helem⟩ := htyping
    exact ⟨vector, by rw [hts]; rfl, hasElements helem, helem⟩
  | insertelement =>
    obtain ⟨elem, index, hts⟩ := htyping
    exact congrArg List.head? hts
  | shufflevector => exact readShufflevector_shape _ _ i later hread
  | getelementptr => exact readGetelementptr_shape ctx _ i later hread
  | _ => exact trivial

/-! ## What is refused -/

/-- Passes `n` operands with their types, each behind a comma. -/
def readFurther : Nat → Reader Unit
  | 0 => return
  | n + 1 => do
    expectComma
    let _ ← readTypedOperand
    readFurther n

/-- The type of the first operand, with `n` operands behind it. -/
def readFirstTy (n : Nat) : Reader Ty := do
  let (ty, _) ← readTypedOperand
  readFurther n
  return ty

variable {c later : Cursor} {ty : Ty} {p : Position} {d : Diagnostic} {n : Nat}

theorem exists_of_readFirstTy (h : readFirstTy n c = .ok (ty, later)) :
    ∃ first c₁, readTypedOperand c = .ok ((ty, first), c₁) ∧ readFurther n c₁ = .ok ((), later) := by
  rw [readFirstTy] at h
  obtain ⟨⟨ty', first⟩, c₁, hfirst, h⟩ := bind_eq_ok_iff.mp h
  obtain ⟨_, c₂, hfurther, h⟩ := bind_eq_ok_iff.mp h
  cases h
  exact ⟨first, c₁, hfirst, hfurther⟩

theorem exists_of_readFurther (h : readFurther (n + 1) c = .ok ((), later)) :
    ∃ c₁ x c₂, expectComma c = .ok ((), c₁) ∧ readTypedOperand c₁ = .ok (x, c₂)
      ∧ readFurther n c₂ = .ok ((), later) := by
  rw [readFurther] at h
  obtain ⟨_, c₁, hcomma, h⟩ := bind_eq_ok_iff.mp h
  obtain ⟨x, c₂, hx, h⟩ := bind_eq_ok_iff.mp h
  exact ⟨c₁, x, c₂, hcomma, hx, h⟩

theorem failAt_eq_error_iff {α : Type} {fault : Fault} :
    (failAt p fault : Reader α) c = .error d ↔ d = ⟨p, fault⟩ :=
  ⟨fun h => (Except.error.inj h).symm, fun h => by rw [h]; rfl⟩

/-- Behind the operands the only question is whether the first one has elements. -/
theorem readExtractelement_error_iff (h : readFirstTy 1 c = .ok (ty, later)) :
    readExtractelement p c = .error d ↔ ty.element? = none ∧ d = ⟨p, .notVector ty⟩ := by
  obtain ⟨first, c₁, hfirst, hfurther⟩ := exists_of_readFirstTy h
  obtain ⟨c₂, x, c₃, hcomma, hx, _⟩ := exists_of_readFurther hfurther
  rw [readExtractelement, bind_of_ok hfirst]
  dsimp only
  rw [bind_of_ok hcomma, bind_of_ok hx]
  cases ty.element? with
  | none => exact failAt_eq_error_iff.trans (and_iff_right rfl).symm
  | some elem => exact iff_of_false (by intro h; cases h) (by rintro ⟨h, _⟩; cases h)

theorem readShufflevector_error_iff (h : readFirstTy 2 c = .ok (ty, later)) :
    readShufflevector p c = .error d ↔ ty.element? = none ∧ d = ⟨p, .notVector ty⟩ := by
  obtain ⟨first, c₁, hfirst, hfurther⟩ := exists_of_readFirstTy h
  obtain ⟨c₂, x, c₃, hcomma, hx, hfurther⟩ := exists_of_readFurther hfurther
  obtain ⟨c₄, mask, c₅, hcomma', hmask, _⟩ := exists_of_readFurther hfurther
  rw [readShufflevector, bind_of_ok hfirst]
  dsimp only
  rw [bind_of_ok hcomma, bind_of_ok hx, bind_of_ok hcomma', bind_of_ok hmask]
  cases ty.element? with
  | none => exact failAt_eq_error_iff.trans (and_iff_right rfl).symm
  | some elem => exact iff_of_false (by intro h; cases h) (by rintro ⟨h, _⟩; cases h)

/-- The opcodes that refuse a first operand without elements, with the number of operands behind it. -/
inductive TakesElements : Opcode → Nat → Prop
  | extractelement : TakesElements .extractelement 1
  | shufflevector : TakesElements .shufflevector 2

/-- **A first operand without elements is refused**, at the place of the opcode. -/
theorem readInstr_error_iff {ctx : Context} {op : Opcode} (hop : TakesElements op n)
    (hc : (atOpcode c).current.kind = .word op.mnemonic)
    (h : readFirstTy n (behindOpcode c) = .ok (ty, later)) : readInstr ctx c = .error d ↔
      ty.element? = none ∧ d = ⟨(atOpcode c).current.start, .notVector ty⟩ := by
  rw [readInstr_of_opcode hc]
  cases hop with
  | extractelement => exact readExtractelement_error_iff h
  | shufflevector => exact readShufflevector_error_iff h

end Draft

/-! ## Functions -/

/-- Operands that are those of the text have the types that they are written at. -/
theorem Function.operandTypes?_of_refers {f : Function} {os : List Draft.Operand} {ids : List ValueId}
    (h : List.Forall₂ f.Refers os ids) :
    ids.mapM (fun id => (f.values[id]?).map (·.ty)) = some (os.map Draft.Operand.ty) := by
  induction h with
  | nil => rfl
  | cons ho _ ih =>
    obtain ⟨v, hv, hty, _⟩ := ho
    simp [List.mapM_cons, hv, hty, ih]

namespace Module

/-- A declaration has no instructions. -/
theorem Declaration.Valid.instrs_eq {D : Declaration} (h : D.Valid) : D.function.instrs = #[] := by
  obtain ⟨header, d, _, hheader, hfinish⟩ := h.function
  exact (Draft.finish_spec hfinish).instrs_eq_empty hheader

/-- **Each instruction is read from a statement of the text.** -/
theorem exists_statement_of_read {source : String} {m : Module} {f : Function} {i : Instr}
    (h : (Module.read source).result = .ok m) (hf : f ∈ m.functions) (hi : i ∈ f.instrs) :
    ∃ w : WrittenStatement, w.Makes f i ∧ (Draft.readInstr m.context).Reads w.tokens w.instr := by
  obtain ⟨parts, hparts, hreads⟩ := exists_parts_readIn_of_read h
  rw [hparts.functions, List.mem_filterMap] at hf
  obtain ⟨part, hpart, hfunction⟩ := hf
  cases hparts.valid part hpart with
  | @definition D hD =>
    cases hfunction
    obtain ⟨n, hn⟩ := List.mem_iff_getElem?.mp (Array.mem_toList_iff.mpr hi)
    obtain ⟨w, hw, hmakes⟩ := exists_getElem?_of_forall₂ hD.forall₂_makes hn
    exact ⟨w, hmakes, hreads _ hpart _ (Definition.statement_mem (List.mem_of_getElem? hw))⟩
  | @declaration D hD =>
    cases hfunction
    rw [hD.instrs_eq] at hi
    exact absurd hi (Array.not_mem_empty i)
  | attributes => cases hfunction
  | line => cases hfunction

/-- **The operands of the opcodes for vectors and addresses have these shapes.** -/
theorem shapes_of_read {source : String} {m : Module} (h : (Module.read source).result = .ok m) :
    (∀ f ∈ m.functions, ∀ i ∈ f.instrs, ∃ ts result, f.operandTypes? i = some ts
      ∧ f.values[i.result]? = some result ∧ i.opcode.Shape ts result.ty)
    ∧ ∀ ctx c op n ty later d, Draft.TakesElements op n →
      (Draft.atOpcode c).current.kind = .word op.mnemonic →
      Draft.readFirstTy n (Draft.behindOpcode c) = .ok (ty, later) →
      (Draft.readInstr ctx c = .error d ↔ ¬ (ty.isVector = true ∨ ty.isArray = true)
        ∧ d = ⟨(Draft.atOpcode c).current.start, .notVector ty⟩) := by
  refine ⟨fun f hf i hi => ?_, fun ctx c op n ty later d hop hc hfirst => ?_⟩
  · obtain ⟨w, hmakes, _, _, _, hread, _⟩ := exists_statement_of_read h hf hi
    obtain ⟨result, hresult, hty, _⟩ := hmakes.result
    refine ⟨_, result, Function.operandTypes?_of_refers hmakes.operands, hresult, ?_⟩
    rw [hmakes.opcode, hty]
    exact Draft.readInstr_shape m.context _ _ _ hread
  · rw [Draft.readInstr_error_iff hop hc hfirst, Ty.element?_eq_none_iff]

/-- An element of an array, an integer with an element put in, and the address that is computed from it. -/
def looseSource : String :=
  "define i32 @f([2 x i32] %a, i32 %b) \x7b
entry:
  %x = extractelement [2 x i32] %a, i32 0
  %y = insertelement i32 %b, i32 %x, i32 0
  %z = getelementptr i8, i32 %y, <2 x i64> zeroinitializer
  ret i32 %x
\x7d
"

/-- In front of an instruction that takes an element of an integer. -/
def elementlessCursor? : Option Cursor :=
  (Token.scan "extractelement i32 %a, i32 0").toOption.map
    fun stream => ⟨none, stream.tokens, stream.stop⟩

/-- All instructions of `looseSource` are read, with operands and results of the types that the text gives them;
an element of an integer is refused. -/
theorem shapes_of_read_loose : ∃ m f, (Module.read looseSource).result = .ok m ∧ m.functions = [f]
    ∧ f.instrs.toList.map (fun i => (f.operandTypes? i).map fun ts => ts.map (·.text))
      = [some ["[2 x i32]", "i32"], some ["i32", "i32", "i32"], some ["i32", "<2 x i64>"], some ["i32"]]
    ∧ f.instrs.toList.map (fun i => (f.values[i.result]?).map (·.ty.text))
      = [some "i32", some "i32", some "<2 x i32>", some "void"]
    ∧ (∀ i ∈ f.instrs, ∃ ts result, f.operandTypes? i = some ts ∧ f.values[i.result]? = some result
      ∧ i.opcode.Shape ts result.ty)
    ∧ ∃ c ty later d, Draft.TakesElements .extractelement 1
      ∧ (Draft.atOpcode c).current.kind = .word Opcode.extractelement.mnemonic
      ∧ Draft.readFirstTy 1 (Draft.behindOpcode c) = .ok (ty, later)
      ∧ Draft.readInstr m.context c = .error d
      ∧ ¬ (ty.isVector = true ∨ ty.isArray = true)
      ∧ d.message = "1:1: i32 is not a vector" := by
  have hread : ((Module.read looseSource).result.toOption.map fun m => m.functions.map fun f =>
      (f.instrs.toList.map fun i => (f.operandTypes? i).map fun ts => ts.map (·.text),
        f.instrs.toList.map fun i => (f.values[i.result]?).map (·.ty.text)))
      = some [([some ["[2 x i32]", "i32"], some ["i32", "i32", "i32"], some ["i32", "<2 x i64>"], some ["i32"]],
        [some "i32", some "i32", some "<2 x i32>", some "void"])] := by
    decide +kernel
  have hstray : (elementlessCursor?.map fun c => ((Draft.atOpcode c).current.kind,
      (Draft.atOpcode c).current.start, (Draft.readFirstTy 1 (Draft.behindOpcode c)).toOption.map (·.1)))
      = some (.word "extractelement", Position.start, some (.int 32)) := by
    decide +kernel
  obtain ⟨m, hm, hfunctions⟩ := exists_ok_of_toOption hread
  obtain ⟨f, hf, hrows⟩ := List.map_eq_singleton_iff.mp hfunctions
  obtain ⟨hoperands, hresults⟩ := Prod.mk.inj hrows
  obtain ⟨hshapes, hrefuses⟩ := shapes_of_read hm
  refine ⟨m, f, hm, hf, hoperands, hresults, hshapes f (by rw [hf]; exact List.mem_singleton_self f), ?_⟩
  obtain ⟨c, _, hc⟩ := Option.map_eq_some_iff.mp hstray
  simp only [Prod.mk.injEq] at hc
  obtain ⟨hat, hstart, hfirst⟩ := hc
  obtain ⟨⟨ty, later⟩, hfirst, hty⟩ := exists_ok_of_toOption hfirst
  obtain rfl : ty = .int 32 := hty
  have hnone : ¬ ((Ty.int 32).isVector = true ∨ (Ty.int 32).isArray = true) := by decide
  refine ⟨c, .int 32, later, ⟨Position.start, .notVector (.int 32)⟩, .extractelement, hat, hfirst, ?_, hnone, rfl⟩
  refine (hrefuses m.context c _ _ _ later _ .extractelement hat hfirst).mpr ⟨hnone, ?_⟩
  rw [hstart]

end Module

end IrRecords
