import IrRecords.Proofs.Draft.Writing
import IrRecords.Proofs.Text.Decimal
import IrRecords.Proofs.Ty.Walks

/-!
# Address computations

What an address computation says (`Address`) is a source type, a base and a row of indices, each at its
type. The reader takes that from the text (`readAddress`) before it asks for the type of the result,
which is the only thing about a text of this form that can be wrong (`readInstr_getelementptr`): where
the base is a typed pointer, or a vector of them, the indices behind the first have to lead somewhere
from the source type. `Address.HasType` says what the result is then, and `Address.Leads` and
`Address.StuckAt` say where the indices lead.
-/

namespace IrRecords

/-- The types are vector types of one shape. -/
inductive Ty.HasShapeOf : Ty → Ty → Prop
  | intro (scalable : Bool) (length : Nat) (elem elem' : Ty) :
      HasShapeOf (.vector scalable length elem) (.vector scalable length elem')

theorem Ty.hasShapeOf_reshape {shape : Ty} (h : shape.isVector = true) (elem : Ty) :
    (shape.reshape elem).HasShapeOf shape := by
  cases shape with
  | vector scalable length elem' => exact .intro scalable length elem elem'
  | _ => cases h

theorem Ty.isVector_of_hasShapeOf {ty shape : Ty} (h : ty.HasShapeOf shape) : ty.isVector = true := by
  cases h
  rfl

theorem Ty.scalar_reshape {shape : Ty} (h : shape.isVector = true) (elem : Ty) :
    (shape.reshape elem).scalar = elem := by
  cases shape with
  | vector => rfl
  | _ => cases h

theorem Ty.reshape_of_not_isVector {shape : Ty} (h : shape.isVector = false) (elem : Ty) :
    shape.reshape elem = elem := by
  cases shape with
  | vector => cases h
  | _ => rfl

theorem Ty.scalar_of_not_isVector {ty : Ty} (h : ty.isVector = false) : ty.scalar = ty := by
  cases ty with
  | vector => cases h
  | _ => rfl

namespace Draft

open Reader

/-! ## Indices -/

/-- The operand is the decimal numeral of the number. -/
def Operand.IsNumber (o : Operand) (n : Nat) : Prop :=
  ∃ ty name slot? text, o = .known ⟨ty, name, slot?, .constant text⟩
    ∧ Text.IsNumeral text.toList ∧ Nat.ofDigitChars 10 text.toList 0 = n ∧ n < Text.bound64

/-- The index that the operand selects, if it is a number. -/
def Operand.Selects (o : Operand) : Option Nat → Prop
  | some n => o.IsNumber n
  | none => ∀ n, ¬ o.IsNumber n

theorem Operand.constantIndex?_eq_some_iff {o : Operand} {n : Nat} :
    o.constantIndex? = some n ↔ o.IsNumber n := by
  refine ⟨fun h => ?_, fun ⟨ty, name, slot?, text, ho, hn⟩ => ?_⟩
  · match o, h with
    | .known ⟨ty, name, slot?, .constant text⟩, h =>
      exact ⟨ty, name, slot?, text, rfl, Text.decimal?_eq_some_iff.mp h⟩
  · rw [ho]
    exact Text.decimal?_eq_some_iff.mpr hn

theorem Operand.selects_iff {o : Operand} {index : Option Nat} :
    o.Selects index ↔ o.constantIndex? = index := by
  cases index with
  | some n => exact constantIndex?_eq_some_iff.symm
  | none =>
    rw [Option.eq_none_iff_forall_ne_some]
    exact forall_congr' fun n => not_congr constantIndex?_eq_some_iff.symm

/-! ## What an address computation says -/

/-- An address computation. -/
structure Address where
  /-- The type that the indices lead through. -/
  source : Ty
  baseTy : Ty
  base : Operand
  /-- The indices with their types. -/
  indices : List (Ty × Operand)

namespace Address

/-- The base and the indices. -/
def operands (a : Address) : List Operand := a.base :: a.indices.map (·.2)

/-- What the indices behind the first select, in a row. -/
def Selects (a : Address) (steps : List (Option Nat)) : Prop :=
  List.Forall₂ Operand.Selects (a.indices.tail.map (·.2)) steps

/-- The indices behind the first lead from the source type to `reached`. -/
def Leads (types : TypeTable) (a : Address) (reached : Ty) : Prop :=
  ∃ steps, a.Selects steps ∧ types.Walks a.source steps reached

/-- One of the indices behind the first leads nowhere. -/
def StuckAt (types : TypeTable) (a : Address) (fault : IndexFault) : Prop :=
  ∃ steps, a.Selects steps ∧ types.StuckAlong a.source steps fault

/-- What type the result has. -/
structure HasType (types : TypeTable) (a : Address) (r : Ty) : Prop where
  isVector_iff : r.isVector = true ↔ a.baseTy.isVector = true ∨ ∃ i ∈ a.indices, i.1.isVector = true
  shape_of_base : a.baseTy.isVector = true → r.HasShapeOf a.baseTy
  /-- The first vector among the indices gives the shape where the base is none. -/
  shape_of_index : ∀ front i back, a.baseTy.isVector = false → a.indices = front ++ i :: back →
    (∀ j ∈ front, j.1.isVector = false) → i.1.isVector = true → r.HasShapeOf i.1
  untyped : (∀ pointee space, a.baseTy.scalar ≠ .pointer pointee space) → r.scalar = a.baseTy.scalar
  typed : ∀ pointee space, a.baseTy.scalar = .pointer pointee space →
    ∃ reached, a.Leads types reached ∧ r.scalar = .pointer reached space

variable {types : TypeTable} {a : Address} {r ty reached : Ty} {fault : IndexFault}

theorem selects_iff {steps : List (Option Nat)} :
    a.Selects steps ↔ (a.indices.map (·.2)).tail.map (·.constantIndex?) = steps := by
  rw [Selects, List.map_tail, List.forall₂_iff_get, List.ext_getElem_iff]
  simp [Operand.selects_iff]

theorem leads_iff : a.Leads types reached ↔
    types.indexed a.source ((a.indices.map (·.2)).tail.map (·.constantIndex?)) = .ok reached := by
  rw [TypeTable.indexed_eq_ok_iff]
  refine ⟨fun ⟨steps, hsteps, h⟩ => ?_, fun h => ⟨_, selects_iff.mpr rfl, h⟩⟩
  rwa [selects_iff.mp hsteps]

theorem stuckAt_iff : a.StuckAt types fault ↔
    types.indexed a.source ((a.indices.map (·.2)).tail.map (·.constantIndex?)) = .error fault := by
  rw [TypeTable.indexed_eq_error_iff]
  refine ⟨fun ⟨steps, hsteps, h⟩ => ?_, fun h => ⟨_, selects_iff.mpr rfl, h⟩⟩
  rwa [selects_iff.mp hsteps]

/-- The type of one address, with the faults of a walk. -/
theorem addressType_cases (types : TypeTable) (a : Address) :
    (∃ ty, addressType types a.source a.baseTy.scalar (a.indices.map (·.2)) = .ok ty
      ∧ ((∀ pointee space, a.baseTy.scalar ≠ .pointer pointee space) → ty = a.baseTy.scalar)
      ∧ (∀ pointee space, a.baseTy.scalar = .pointer pointee space →
        ∃ reached, a.Leads types reached ∧ ty = .pointer reached space))
    ∨ ∃ fault, addressType types a.source a.baseTy.scalar (a.indices.map (·.2)) = .error fault
      ∧ (∃ pointee space, a.baseTy.scalar = .pointer pointee space) ∧ a.StuckAt types fault := by
  cases hbase : a.baseTy.scalar with
  | pointer pointee space =>
    rw [addressType]
    cases hindexed : types.indexed a.source ((a.indices.map (·.2)).tail.map (·.constantIndex?)) with
    | ok reached =>
      refine .inl ⟨_, rfl, fun h => absurd rfl (h pointee space), fun pointee' space' h => ?_⟩
      cases h
      exact ⟨reached, leads_iff.mpr hindexed, rfl⟩
    | error fault => exact .inr ⟨fault, rfl, ⟨pointee, space, rfl⟩, stuckAt_iff.mpr hindexed⟩
  | _ => exact .inl ⟨_, rfl, fun _ => rfl, fun pointee space h => nomatch h⟩

/-! ### Shapes -/

/-- The first vector type, or no vector type. -/
def shape (a : Address) : Ty := addressShape (a.baseTy :: a.indices.map (·.1))

theorem shape_of_base (h : a.baseTy.isVector = true) : a.shape = a.baseTy := by
  rw [shape, addressShape, List.find?_cons_of_pos h, Option.getD_some]

theorem shape_of_index {front back : List (Ty × Operand)} {i : Ty × Operand}
    (hbase : a.baseTy.isVector = false) (hindices : a.indices = front ++ i :: back)
    (hfront : ∀ j ∈ front, j.1.isVector = false) (hi : i.1.isVector = true) : a.shape = i.1 := by
  have hnone : (front.map (·.1)).find? Ty.isVector = none := by
    simpa using hfront
  rw [shape, addressShape, List.find?_cons_of_neg (by rw [hbase]; exact Bool.false_ne_true),
    hindices, List.map_append, List.find?_append, hnone, Option.none_or, List.map_cons,
    List.find?_cons_of_pos hi, Option.getD_some]

theorem isVector_shape_iff : a.shape.isVector = true
    ↔ a.baseTy.isVector = true ∨ ∃ i ∈ a.indices, i.1.isVector = true := by
  have hmem : (∃ ty ∈ a.baseTy :: a.indices.map (·.1), ty.isVector = true)
      ↔ a.baseTy.isVector = true ∨ ∃ i ∈ a.indices, i.1.isVector = true := by simp
  rw [← hmem, shape, addressShape]
  cases hfind : (a.baseTy :: a.indices.map (·.1)).find? Ty.isVector with
  | some ty => exact iff_of_true (List.find?_some hfind) ⟨ty, List.mem_of_find?_eq_some hfind,
      List.find?_some hfind⟩
  | none =>
    rw [List.find?_eq_none] at hfind
    exact iff_of_false Bool.false_ne_true fun ⟨ty, hty, hvector⟩ => hfind ty hty hvector

/-- The result at the shape of the first vector has the type that it should have. -/
theorem hasType_reshape
    (huntyped : (∀ pointee space, a.baseTy.scalar ≠ .pointer pointee space) → ty = a.baseTy.scalar)
    (htyped : ∀ pointee space, a.baseTy.scalar = .pointer pointee space →
      ∃ reached, a.Leads types reached ∧ ty = .pointer reached space) :
    a.HasType types (a.shape.reshape ty) := by
  have hvector : (a.shape.reshape ty).isVector = a.shape.isVector
      ∧ (a.shape.reshape ty).scalar = ty := by
    cases hshape : a.shape.isVector with
    | true => exact ⟨Ty.isVector_of_hasShapeOf (Ty.hasShapeOf_reshape hshape ty), Ty.scalar_reshape hshape ty⟩
    | false =>
      -- Nothing is a vector then, and neither is the type of one address.
      have hbase : a.baseTy.isVector = false := by
        rw [← Bool.not_eq_true]
        exact fun h => Bool.false_ne_true (hshape.symm.trans (isVector_shape_iff.mpr (.inl h)))
      have hty : ty.isVector = false := by
        by_cases hpointer : ∃ pointee space, a.baseTy.scalar = .pointer pointee space
        · obtain ⟨pointee, space, hpointer⟩ := hpointer
          obtain ⟨reached, _, rfl⟩ := htyped pointee space hpointer
          rfl
        · rw [huntyped fun pointee space h => hpointer ⟨pointee, space, h⟩,
            Ty.scalar_of_not_isVector hbase]
          exact hbase
      rw [Ty.reshape_of_not_isVector hshape]
      exact ⟨hty, Ty.scalar_of_not_isVector hty⟩
  refine ⟨hvector.1 ▸ isVector_shape_iff, fun h => ?_, fun front i back hbase hindices hfront hi => ?_,
    fun h => hvector.2.trans (huntyped h), fun pointee space h => ?_⟩
  · rw [shape_of_base h]
    exact Ty.hasShapeOf_reshape h ty
  · rw [shape_of_index hbase hindices hfront hi]
    exact Ty.hasShapeOf_reshape hi ty
  · obtain ⟨reached, hleads, hty⟩ := htyped pointee space h
    exact ⟨reached, hleads, hvector.2.trans hty⟩

/-! ### Texts -/

/-- The text of an index: its comma, what marks it, and the operand. -/
inductive IndexIn : Ty × Operand → List Token → Prop
  | intro {i : Ty × Operand} {comma : Token} {marks ts : List Token} (hcomma : comma.kind = .comma)
      (hmarks : skipInrange.Reads marks ()) (h : readTypedOperand.Reads ts i) :
      IndexIn i (comma :: (marks ++ ts))

/-- The text of an address computation behind its opcode. -/
inductive WrittenIn : Address → List Token → Prop
  | intro {a : Address} {flags marks source base : List Token} {comma : Token}
      {indices : List (List Token)} (hflags : (skipWords ["inbounds", "nuw", "nusw"]).Reads flags ())
      (hmarks : skipInrange.Reads marks ()) (hsource : Ty.read.Reads source a.source)
      (hcomma : comma.kind = .comma) (hbase : readTypedOperand.Reads base (a.baseTy, a.base))
      (hindices : List.Forall₂ IndexIn a.indices indices) :
      WrittenIn a (flags ++ (marks ++ (source ++ (comma :: (base ++ indices.flatten)))))

end Address

/-! ## Reading -/

/-- What an address computation says, without the type of its result. -/
def readAddress : Reader Address := do
  skipWords ["inbounds", "nuw", "nusw"]
  skipInrange
  let source ← Ty.read
  expectComma
  let (baseTy, base) ← readTypedOperand
  let indices ← readIndices
  return ⟨source, baseTy, base, indices⟩

theorem passes_readIndices : readIndices.Passes fun indices ts =>
    ∃ rows, ts = rows.flatten ∧ List.Forall₂ Address.IndexIn indices rows := by
  intro c
  rw [readIndices]
  -- The invariant of the loop: the indices so far are written in the rows that have been passed.
  refine PassesFrom.bind (P := fun indices ts => ∃ rows, ts = rows.flatten
    ∧ List.Forall₂ Address.IndexIn indices.toList rows) (.iterate (I := fun indices ts => ∃ rows,
      ts = rows.flatten ∧ List.Forall₂ Address.IndexIn indices.toList rows) ?_ ⟨[], rfl, .nil⟩) ?_
  · rintro indices _ c ⟨rows, rfl, hrows⟩
    refine .isAt (.nextKind ?_)
    by_cases hmore : ((c.current.kind == .comma) && startsIndex (c.lookahead 1).kind) = true
    · rw [if_pos hmore]
      rw [Bool.and_eq_true, beq_iff_eq] at hmore
      refine .advance (by simp [hmore.1]) fun c₁ _ => ?_
      refine (neutral_skipInrange.passes c₁).and_reads.bind fun _ marks c₂ hmarks => ?_
      refine (neutral_readTypedOperand.passes c₂).and_reads.bind fun i ts c₃ hi => .pure ?_
      refine ⟨rows ++ [c.current :: (marks ++ ts)], by simp, ?_⟩
      rw [Array.toList_push]
      exact List.rel_append hrows (.cons (.intro hmore.1 hmarks.2 hi.2) .nil)
    · rw [if_neg hmore]
      exact .pure ⟨rows, List.append_nil _, hrows⟩
  · rintro indices _ c ⟨rows, rfl, hrows⟩
    exact .pure ⟨rows, List.append_nil _, hrows⟩

/-- What is read is what is written. -/
theorem passes_readAddress : readAddress.Passes Address.WrittenIn := by
  intro c
  rw [readAddress]
  refine ((neutral_skipWords _).passes c).and_reads.bind fun _ flags c₁ hflags => ?_
  refine (neutral_skipInrange.passes c₁).and_reads.bind fun _ marks c₂ hmarks => ?_
  refine (Ty.neutral_read.passes c₂).and_reads.bind fun S source c₃ hsource => ?_
  refine (passesFrom_expect TokenKind.noConfusion _).bind fun _ _ c₄ ⟨hcomma, hk⟩ => ?_
  refine (neutral_readTypedOperand.passes c₄).and_reads.bind fun B base c₅ hbase => ?_
  refine (passes_readIndices c₅).bind fun indices _ c₆ ⟨rows, hrows, hindices⟩ => .pure ?_
  rw [hcomma, hrows, List.append_nil]
  exact .intro hflags.2 hmarks.2 hsource.2 hk hbase.2 hindices

/-- The type of the result is all that is left to do. -/
theorem readGetelementptr_eq (ctx : Context) : readGetelementptr ctx = (do
    let position ← position
    let a ← readAddress
    match addressType ctx.types a.source a.baseTy.scalar (a.indices.map (·.2)) with
    | .error fault => failAt position (.index fault)
    | .ok ty => return .plain .getelementptr (a.shape.reshape ty) a.operands) := by
  simp only [readGetelementptr, readAddress, bind_assoc, pure_bind]
  rfl

/-- An address computation that has been read is one whose text has been read. -/
theorem exists_readAddress {ctx : Context} {c later : Cursor} {i : Instr}
    (h : readGetelementptr ctx c = .ok (i, later)) : ∃ a, readAddress c = .ok (a, later) := by
  rw [readGetelementptr_eq] at h
  obtain ⟨_, c₁, hposition, h⟩ := bind_eq_ok_iff.mp h
  cases hposition
  obtain ⟨a, c₂, ha, h⟩ := bind_eq_ok_iff.mp h
  cases haddress : addressType ctx.types a.source a.baseTy.scalar (a.indices.map (·.2)) with
  | error fault =>
    rw [haddress] at h
    cases h
  | ok ty =>
    rw [haddress] at h
    cases h
    exact ⟨a, ha⟩

/-- **An address computation fails where its indices lead nowhere**, and only there. -/
theorem readGetelementptr_cases (ctx : Context) {c later : Cursor} {a : Address}
    (h : readAddress c = .ok (a, later)) :
    (∃ r, a.HasType ctx.types r
      ∧ readGetelementptr ctx c = .ok (.plain .getelementptr r a.operands, later))
    ∨ ∃ fault, (∃ pointee space, a.baseTy.scalar = .pointer pointee space)
      ∧ a.StuckAt ctx.types fault
      ∧ readGetelementptr ctx c = .error ⟨c.current.start, .index fault⟩ := by
  have hposition : position c = .ok (c.current.start, c) := rfl
  rw [readGetelementptr_eq, bind_of_ok hposition, bind_of_ok h]
  rcases Address.addressType_cases ctx.types a with ⟨ty, hty, huntyped, htyped⟩ | ⟨fault, hty, hstuck⟩
  · rw [hty]
    exact .inl ⟨_, Address.hasType_reshape huntyped htyped, rfl⟩
  · rw [hty]
    exact .inr ⟨fault, hstuck.1, hstuck.2, rfl⟩

/-! ## Instructions -/

/-- An instruction has the opcode that it is read for. -/
theorem readOperation_opcode (ctx : Context) (position : Position) (opcode : Opcode) :
    (readOperation ctx position opcode).Yields fun i => i.opcode = opcode := by
  cases opcode
  all_goals
    simp only [readOperation, readRet, readBr, readSwitch, readIndirectbr, readFneg, readBinary,
      readAlloca, readLoad, readStore, readGetelementptr, readCmpxchg, readAtomicrmw, readCast,
      readCompare, readPhi, readCall, readSelect, readVaArg, readExtractelement, readInsertelement,
      readShufflevector, readExtractvalue, readInsertvalue, readFreeze]
    repeat' first
      | exact .pure rfl
      | exact .unexpected
      | exact .failAt
      | refine .skip fun _ => ?_
      | split

variable {ctx : Context} {c later : Cursor} {i : Instr} {a : Address}

/-- The cursor in front of the opcode, which may have call markers in front of it. -/
def atOpcode (c : Cursor) : Cursor := c.advanceWhile (isWordOf callMarkers)

/-- The cursor behind the opcode. -/
def behindOpcode (c : Cursor) : Cursor := (c.advanceWhile (isWordOf callMarkers)).advance

theorem readInstr_of_opcode {op : Opcode} (h : (atOpcode c).current.kind = .word op.mnemonic) :
    readInstr ctx c = readOperation ctx (atOpcode c).current.start op (behindOpcode c) := by
  have hskip : skipWords callMarkers c = .ok ((), atOpcode c) := rfl
  have hkind : kind (atOpcode c) = .ok (.word op.mnemonic, atOpcode c) := by rw [kind, h]
  rw [readInstr, bind_of_ok hskip, bind_of_ok hkind]
  simp only [Opcode.ofMnemonic?_mnemonic]
  rfl

/-- The cursor from which an instruction is read is in front of its opcode. -/
theorem opcode_of_readInstr (h : readInstr ctx c = .ok (i, later)) :
    (atOpcode c).current.kind = .word i.opcode.mnemonic := by
  rw [readInstr] at h
  obtain ⟨_, c₁, hskip, h⟩ := bind_eq_ok_iff.mp h
  cases hskip
  obtain ⟨k, c₂, hkind, h⟩ := bind_eq_ok_iff.mp h
  have hw : k = (atOpcode c).current.kind := by cases hkind; rfl
  cases k with
  | word w =>
    cases hopcode : Opcode.ofMnemonic? w with
    | none => simp only [hopcode] at h; cases h
    | some opcode =>
      simp only [hopcode] at h
      obtain ⟨position, c₃, _, h⟩ := bind_eq_ok_iff.mp h
      obtain ⟨_, c₄, _, h⟩ := bind_eq_ok_iff.mp h
      rw [← hw, readOperation_opcode ctx position opcode _ _ _ h,
        Opcode.eq_mnemonic_of_ofMnemonic? hopcode]
  | _ => cases h

/-- The cursor is in front of an address computation. -/
def AtAddress (c : Cursor) : Prop :=
  (c.advanceWhile (isWordOf callMarkers)).current.kind = .word "getelementptr"

theorem readInstr_of_atAddress (h : AtAddress c) :
    readInstr ctx c = readGetelementptr ctx (behindOpcode c) :=
  @readInstr_of_opcode ctx c .getelementptr h

theorem atAddress_of_opcode (h : readInstr ctx c = .ok (i, later)) (hi : i.opcode = .getelementptr) :
    AtAddress c := by
  have hopcode := opcode_of_readInstr h
  rw [hi] at hopcode
  exact hopcode

/-- **A text of this form is read, or an index leads nowhere.** -/
theorem readInstr_getelementptr (hc : AtAddress c) (ha : readAddress (behindOpcode c) = .ok (a, later))
    (d : Diagnostic) : readInstr ctx c = .error d ↔
      ∃ fault, (∃ pointee space, a.baseTy.scalar = .pointer pointee space)
        ∧ a.StuckAt ctx.types fault ∧ d = ⟨(behindOpcode c).current.start, .index fault⟩ := by
  rw [readInstr_of_atAddress hc]
  rcases readGetelementptr_cases ctx ha with ⟨r, htype, hread⟩ | ⟨fault, htyped, hstuck, hread⟩
  · rw [hread]
    refine iff_of_false (fun h => nomatch h) fun ⟨fault, ⟨pointee, space, hpointer⟩, hstuck, _⟩ => ?_
    -- What leads somewhere is not stuck.
    obtain ⟨reached, hleads, _⟩ := htype.typed pointee space hpointer
    have hok := Address.leads_iff.mp hleads
    rw [Address.stuckAt_iff.mp hstuck] at hok
    cases hok
  · rw [hread]
    refine ⟨fun h => ⟨fault, htyped, hstuck, (Except.error.inj h).symm⟩, ?_⟩
    rintro ⟨fault', _, hstuck', rfl⟩
    have hsame := Address.stuckAt_iff.mp hstuck
    rw [Address.stuckAt_iff.mp hstuck', Except.error.injEq] at hsame
    rw [hsame]

/-- The instruction computes the address, and this is its text. -/
inductive Computes (types : TypeTable) (a : Address) : Instr → List Token → Prop
  | intro {markers rest : List Token} {word : Token} {r : Ty}
      (hmarkers : ∀ t ∈ markers, isWordOf callMarkers t = true)
      (hword : word.kind = .word "getelementptr") (hrest : a.WrittenIn rest)
      (htype : a.HasType types r) :
      Computes types a (.plain .getelementptr r a.operands) (markers ++ word :: rest)

/-- **What is read with this opcode is an address computation.** -/
theorem passes_getelementptr (ctx : Context) : (readInstr ctx).Passes fun i ts =>
    i.opcode = .getelementptr → ∃ a, Computes ctx.types a i ts := by
  intro c hstop i later h
  obtain ⟨ts, hts, _⟩ := readInstr_passes ctx c hstop i later h
  refine ⟨ts, hts, fun hi => ?_⟩
  have hc := atAddress_of_opcode h hi
  have hmarkers := c.reaches_advanceWhile (isWordOf callMarkers)
  have hstop₁ : (c.advanceWhile (isWordOf callMarkers)).stop.kind = .eof := by
    rw [hmarkers.stop, hstop]
  have hword := Cursor.reaches_advance hstop₁ (by rw [hc]; exact TokenKind.noConfusion)
  rw [readInstr_of_atAddress hc] at h
  obtain ⟨a, ha⟩ := exists_readAddress h
  obtain ⟨rest, hrest, hwritten⟩ := passes_readAddress (behindOpcode c)
    (by rw [behindOpcode, hword.stop, hstop₁]) a later ha
  -- Two rows between the same cursors are one row.
  have hrow := (hmarkers.trans (hword.trans hrest)).tokensUpTo_eq
  rw [hts.tokensUpTo_eq] at hrow
  rcases readGetelementptr_cases ctx ha with ⟨r, htype, hread⟩ | ⟨fault, _, _, hread⟩
  · rw [hread] at h
    cases h
    rw [hrow]
    exact ⟨a, .intro (fun t ht => List.mem_takeWhile_imp ht) hc hwritten htype⟩
  · rw [hread] at h
    cases h

end Draft

end IrRecords
