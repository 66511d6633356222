import IrRecords.Proofs.Record.Contents
import IrRecords.Proofs.Record.References
import IrRecords.Proofs.Record.Stream

/-!
# Where the fields of records belong

Most fields of a record are always there. The exceptions are the predicate, the size and the type of
an allocation, and the block that an operand flows in from, and what has them is told by the opcode.
The encoder does not look at the opcode: it looks at the detail of the instruction and, for a phi, at
the place of the operand among the edges. So an instruction that was put together by hand can have
a predicate without being a comparison, or operands without an edge.

No instruction of a function that has been read is of that kind, because its detail is the one that
its opcode asks for (`Detail.Suits`). This is known of drafts, and laying out keeps it
(`LaidOut.suits`). The record of such an instruction has its fields where they belong
(`recordedAs_of_instrRecord?`), and hence so have the documents of a module (`fields_of_read`).
-/

namespace IrRecords

/-! ## Details -/

/-- Whether an instruction with this opcode and `n` operands can have this detail. -/
def Detail.Suits (opcode : Opcode) (n : Nat) : Detail → Prop
  | plain => opcode.hasDetail = false
  | compare (.int _) => opcode = .icmp
  | compare (.float _) => opcode = .fcmp
  | alloca _ => opcode = .alloca ∧ n = 1
  | phi incoming => opcode = .phi ∧ incoming.length = n

namespace Detail.Suits

variable {opcode : Opcode} {n : Nat} {detail : Detail}

theorem exists_int (h : detail.Suits .icmp n) : ∃ p, detail = .compare (.int p) := by
  cases detail with
  | compare p =>
    cases p with
    | int p => exact ⟨p, rfl⟩
    | float p => cases h
  | alloca allocated => cases h.1
  | phi blocks => cases h.1
  | plain => cases h

theorem exists_float (h : detail.Suits .fcmp n) : ∃ p, detail = .compare (.float p) := by
  cases detail with
  | compare p =>
    cases p with
    | int p => cases h
    | float p => exact ⟨p, rfl⟩
  | alloca allocated => cases h.1
  | phi blocks => cases h.1
  | plain => cases h

theorem exists_alloca (h : detail.Suits .alloca n) :
    n = 1 ∧ ∃ allocated, detail = .alloca allocated := by
  cases detail with
  | alloca allocated => exact ⟨h.2, allocated, rfl⟩
  | compare p => cases p <;> cases h
  | phi blocks => cases h.1
  | plain => cases h

theorem exists_phi (h : detail.Suits .phi n) :
    ∃ blocks, detail = .phi blocks ∧ blocks.length = n := by
  cases detail with
  | phi blocks => exact ⟨blocks, rfl, h.2⟩
  | compare p => cases p <;> cases h
  | alloca allocated => cases h.1
  | plain => cases h

/-- Only comparisons have a predicate. -/
theorem opcode_of_compare {p : Predicate} (h : (compare p).Suits opcode n) :
    opcode = .icmp ∨ opcode = .fcmp := by
  cases p with
  | int p => exact .inl h
  | float p => exact .inr h

end Detail.Suits

namespace Draft

variable {d : Draft} {f : Function} {i : IrRecords.Instr}

/-- An allocation has one operand, the count. -/
theorem Instr.WellFormed.length_of_alloca {instr : Instr} (h : instr.WellFormed)
    (halloca : instr.opcode = .alloca) : instr.operands.length = 1 := by
  have htyping := h.typing
  rw [halloca] at htyping
  obtain ⟨count, _, hts, _⟩ := htyping
  rw [← List.length_map (f := Operand.ty), hts]
  rfl

/-- **The instructions of a function have the details that their opcodes ask for.** -/
theorem LaidOut.suits (h : LaidOut d f) (hd : d.WellFormed) (hi : i ∈ f.instrs) :
    i.detail.Suits i.opcode i.operands.length := by
  obtain ⟨s, hs, hdescribes⟩ := exists_left_of_forall₂ h.instrs (Array.mem_toList_iff.mpr hi)
  have hsuits := (hd s hs).instr.suits
  have hcount := (hd s hs).instr.length_of_alloca
  have hdetail := becomes_of_resolveDetail hdescribes.detail
  rw [hdescribes.opcode, ← hdescribes.operands.length_eq]
  generalize s.instr.detail = detail at hsuits hdetail
  generalize i.detail = detail' at hdetail ⊢
  cases hdetail with
  | plain => exact hsuits
  | compare p => cases p <;> exact hsuits
  | alloca allocated => exact ⟨hsuits, hcount hsuits⟩
  | phi hrows => exact ⟨hsuits.1, hrows.length_eq.symm.trans hsuits.2.1⟩

end Draft

/-! ## Renderings -/

/-- A reference starts with its sigil, if there is something to refer to the value by. -/
theorem Value.reference_cases (v : Value) (sigil : Char) :
    v.reference sigil = badReference ∨ ∃ rest, (v.reference sigil).toList = sigil :: rest := by
  have hfront : ∀ text : String, (sigil.toString ++ text).toList = sigil :: text.toList :=
    fun text => by simp [Char.toString]
  rw [reference.eq_def]
  by_cases hname : v.name = ""
  · rw [if_neg (not_not_intro hname)]
    cases v.slot? with
    | none => exact .inl rfl
    | some number => exact .inr ⟨_, hfront _⟩
  · rw [if_pos hname]
    exact .inr ⟨_, hfront _⟩

/-- Taking off the sigil leaves what is behind it. -/
theorem toList_eq_of_sigil {text : String} {rest : List Char} {sigil : Char}
    (hsigil : sigil = '%' ∨ sigil = '@') (htext : text.toList = sigil :: rest) :
    text.toList = sigil :: (stripSigil text).toList := by
  have hstrip : stripSigil text = String.ofList rest := by
    unfold stripSigil
    rcases hsigil with rfl | rfl
    all_goals
      rw [htext]
      rfl
  rw [hstrip, String.toList_ofList, htext]

/-- What is no constant is shown as a reference, so there is a sigil to take off. -/
theorem Value.rendering_cases {v : Value} (hv : ∀ text, v.origin ≠ .constant text) :
    v.rendering = badReference
      ∨ ∃ sigil, (sigil = '%' ∨ sigil = '@')
        ∧ v.rendering.toList = sigil :: (stripSigil v.rendering).toList := by
  have hsigil : ∃ sigil, (sigil = '%' ∨ sigil = '@') ∧ v.rendering = v.reference sigil := by
    unfold rendering
    cases horigin : v.origin with
    | constant text => exact absurd horigin (hv text)
    | global => exact ⟨'@', .inr rfl, rfl⟩
    | _ => exact ⟨'%', .inl rfl, rfl⟩
  obtain ⟨sigil, hsigil, hrendering⟩ := hsigil
  rw [hrendering]
  rcases v.reference_cases sigil with hbad | ⟨rest, hrest⟩
  · exact .inl hbad
  · exact .inr ⟨sigil, hsigil, toList_eq_of_sigil hsigil hrest⟩

/-! ## Records of instructions -/

namespace Function

variable {f : Function} {i : Instr} {r : Record.Instr}

/-- `o` is the record of the value at the place `id`. -/
def RecordedOperand (f : Function) (id : ValueId) (o : Record.Operand) : Prop :=
  ∃ v, f.values[id]? = some v ∧ o.name = v.name ∧ o.ty = v.ty.canonicalName
    ∧ o.value = stripSigil v.rendering

/-- The size of an allocation and its operand in a record: the size is the rendering of a value and
the operand shows it without its sigil. The sigil is there if the value is no constant. -/
def RecordedSize (f : Function) (id : ValueId) (size : String) (o : Record.Operand) : Prop :=
  ∃ v, f.values[id]? = some v ∧ size = v.rendering ∧ o.value = stripSigil size
    ∧ ((∀ text, v.origin ≠ .constant text) → size = Value.badReference
      ∨ ∃ sigil, (sigil = '%' ∨ sigil = '@') ∧ size.toList = sigil :: o.value.toList)

/-- `r` is a record of `i` with the fields that the opcode of `i` asks for. -/
structure RecordedAs (f : Function) (i : Instr) (r : Record.Instr) : Prop where
  opcode : r.opcode = i.opcode.mnemonic
  /-- Comparisons have a predicate, and nothing else has. -/
  predicate : r.predicate?.isSome ↔ i.opcode = .icmp ∨ i.opcode = .fcmp
  /-- The predicate of a comparison of integers is read back as what it is. -/
  intPredicate : i.opcode = .icmp → ∃ p name, i.detail = .compare (.int p)
    ∧ r.predicate? = some name ∧ IntPredicate.ofName? name = some p
  floatPredicate : i.opcode = .fcmp → ∃ p name, i.detail = .compare (.float p)
    ∧ r.predicate? = some name ∧ FloatPredicate.ofName? name = some p
  /-- Allocations have a size and a type, and nothing else has either. -/
  allocaSize : r.allocaSize?.isSome ↔ i.opcode = .alloca
  allocaType : r.allocaType?.isSome ↔ i.opcode = .alloca
  /-- The size is that of the one operand. -/
  size : ∀ size, r.allocaSize? = some size →
    ∃ id o, i.operands = [id] ∧ r.operands = [o] ∧ f.RecordedSize id size o
  /-- All operands of a phi have a block that they flow in from, and no others have. -/
  prevBlock : ∀ o ∈ r.operands, o.prevBlock?.isSome ↔ i.opcode = .phi
  /-- The operands are those of the instruction, in their order. -/
  operands : List.Forall₂ f.RecordedOperand i.operands r.operands

/-- The operands of a record are made from the operands of the instruction one by one. -/
theorem forall₂_of_operandRecords? {start : Nat} {ids : List ValueId} {os : List Record.Operand}
    (h : f.operandRecords? i start ids = some os) :
    List.Forall₂ f.RecordedOperand ids os := by
  induction ids generalizing start os with
  | nil => cases h; exact .nil
  | cons id ids ih =>
    obtain ⟨first, hfirst, h⟩ := Option.bind_eq_some_iff.mp h
    obtain ⟨rest, hrest, h⟩ := Option.bind_eq_some_iff.mp h
    cases h
    exact .cons (of_operandRecord? hfirst) (ih hrest)

/-- An operand has a block that it flows in from if there is an edge for it. -/
theorem isSome_prevBlock? {index : Nat} {id : ValueId} {o : Record.Operand}
    (h : f.operandRecord? i index id = some o) :
    o.prevBlock?.isSome ↔ (i.incoming? index).isSome := by
  obtain ⟨v, _, h⟩ := Option.bind_eq_some_iff.mp h
  obtain ⟨prev, hprev, h⟩ := Option.bind_eq_some_iff.mp h
  cases h
  unfold prevBlock? at hprev
  cases hincoming : i.incoming? index with
  | none => rw [hincoming] at hprev; cases hprev; rfl
  | some b =>
    rw [hincoming] at hprev
    obtain ⟨block, _, rfl⟩ := Option.map_eq_some_iff.mp hprev
    exact iff_of_true rfl rfl

/-- There is an edge for each operand of a phi, and for no other operand. -/
theorem isSome_incoming? (hsuits : i.detail.Suits i.opcode i.operands.length) {index : Nat}
    (hindex : index < i.operands.length) : (i.incoming? index).isSome ↔ i.opcode = .phi := by
  constructor
  · intro hsome
    rw [Instr.incoming?] at hsome
    generalize i.detail = detail at hsuits hsome
    cases detail with
    | phi blocks => exact hsuits.1
    | _ => cases hsome
  · intro hphi
    rw [hphi] at hsuits
    obtain ⟨blocks, hdetail, hlength⟩ := hsuits.exists_phi
    rw [Instr.incoming?, hdetail]
    exact Option.isSome_iff_exists.mpr ⟨_, List.getElem?_eq_getElem (hlength ▸ hindex)⟩

/-- Only allocations allocate something. -/
theorem isSome_allocated? (hsuits : i.detail.Suits i.opcode i.operands.length) :
    i.detail.allocated?.isSome ↔ i.opcode = .alloca := by
  constructor
  · intro hsome
    generalize i.detail = detail at hsuits hsome
    cases detail with
    | alloca allocated => exact hsuits.1
    | _ => cases hsome
  · intro halloca
    rw [halloca] at hsuits
    obtain ⟨_, allocated, hdetail⟩ := hsuits.exists_alloca
    rw [hdetail]
    rfl

/-- There is a size where something is allocated, because there is an operand to tell it. -/
theorem isSome_allocaSize? (hsuits : i.detail.Suits i.opcode i.operands.length)
    {size? : Option String} (h : f.allocaSize? i = some size?) :
    size?.isSome ↔ i.detail.allocated?.isSome := by
  rw [allocaSize?, Instr.count?] at h
  generalize i.detail = detail at hsuits h ⊢
  cases detail with
  | alloca allocated =>
    obtain ⟨id, hid⟩ := List.length_eq_one_iff.mp hsuits.2
    rw [hid] at h
    obtain ⟨v, _, rfl⟩ := Option.map_eq_some_iff.mp h
    exact iff_of_true rfl rfl
  | _ =>
    cases h
    exact Iff.rfl

/-- What the encoder makes of an instruction, field by field. -/
theorem fields_of_instrRecord? (h : f.instrRecord? i = some r) :
    r.opcode = i.opcode.mnemonic
      ∧ r.predicate? = (match i.detail with
        | .compare p => some p.name
        | _ => none)
      ∧ r.allocaType? = i.detail.allocated?.map Ty.canonicalName
      ∧ f.allocaSize? i = some r.allocaSize? ∧ f.operandRecords? i 0 i.operands = some r.operands := by
  obtain ⟨v, _, h⟩ := Option.bind_eq_some_iff.mp h
  obtain ⟨count, hcount, h⟩ := Option.bind_eq_some_iff.mp h
  obtain ⟨os, hos, h⟩ := Option.bind_eq_some_iff.mp h
  cases h
  refine ⟨rfl, rfl, ?_, hcount, hos⟩
  dsimp only
  cases i.detail <;> rfl

/-- The size of an allocation is that of its operand. -/
theorem recordedSize_of_allocaSize? {id : ValueId} {allocated : Ty} {size : String}
    {o : Record.Operand} (hdetail : i.detail = .alloca allocated) (hid : i.operands = [id])
    (h : f.allocaSize? i = some (some size)) (ho : f.RecordedOperand id o) :
    f.RecordedSize id size o := by
  obtain ⟨v, hv, _, _, hvalue⟩ := ho
  rw [allocaSize?, Instr.count?, hdetail, hid] at h
  dsimp only [List.head?_cons] at h
  rw [hv, Option.map_some, Option.some.injEq, Option.some.injEq] at h
  subst h
  refine ⟨v, hv, rfl, hvalue, fun hconstant => ?_⟩
  rw [hvalue]
  exact Value.rendering_cases hconstant

/-- **A record has its fields where they belong** if the detail of the instruction is the one that its
opcode asks for. -/
theorem recordedAs_of_instrRecord? (h : f.instrRecord? i = some r)
    (hsuits : i.detail.Suits i.opcode i.operands.length) : f.RecordedAs i r := by
  obtain ⟨hopcode, hpredicate, htype, hsize, hos⟩ := fields_of_instrRecord? h
  have hoperands := forall₂_of_operandRecords? hos
  have halloca := isSome_allocated? hsuits
  -- Each field is told by the detail, and `hsuits` ties the detail to the opcode.
  refine
    { opcode := hopcode, operands := hoperands, predicate := ?_, intPredicate := fun hint => ?_,
      floatPredicate := fun hfloat => ?_, allocaSize := ?_, allocaType := ?_,
      size := fun size hsome => ?_, prevBlock := fun o ho => ?_ }
  · rw [hpredicate]
    constructor
    · intro hsome
      generalize i.detail = detail at hsuits hsome
      cases detail with
      | compare p => exact hsuits.opcode_of_compare
      | _ => cases hsome
    · rintro (hint | hfloat)
      · obtain ⟨p, hp⟩ := Detail.Suits.exists_int (hint ▸ hsuits)
        rw [hp]
        rfl
      · obtain ⟨p, hp⟩ := Detail.Suits.exists_float (hfloat ▸ hsuits)
        rw [hp]
        rfl
  · obtain ⟨p, hp⟩ := Detail.Suits.exists_int (hint ▸ hsuits)
    rw [hp] at hpredicate
    exact ⟨p, p.name, hp, hpredicate, IntPredicate.ofName?_name p⟩
  · obtain ⟨p, hp⟩ := Detail.Suits.exists_float (hfloat ▸ hsuits)
    rw [hp] at hpredicate
    exact ⟨p, p.name, hp, hpredicate, FloatPredicate.ofName?_name p⟩
  · exact (isSome_allocaSize? hsuits hsize).trans halloca
  · rw [htype, Option.isSome_map]
    exact halloca
  · have hopcode : i.opcode = .alloca :=
      halloca.mp ((isSome_allocaSize? hsuits hsize).mp (hsome ▸ rfl))
    obtain ⟨hone, allocated, hdetail⟩ := Detail.Suits.exists_alloca (hopcode ▸ hsuits)
    obtain ⟨id, hid⟩ := List.length_eq_one_iff.mp hone
    rw [hid] at hoperands
    obtain ⟨o, rest, ho, hrest, hrecords⟩ := List.forall₂_cons_left_iff.mp hoperands
    obtain rfl := List.forall₂_nil_left_iff.mp hrest
    exact ⟨id, o, hid, hrecords, recordedSize_of_allocaSize? hdetail hid (hsome ▸ hsize) ho⟩
  · obtain ⟨index, hindex⟩ := List.mem_iff_getElem?.mp ho
    obtain ⟨id, hid, hrecord⟩ := exists_of_operandRecords? hos hindex
    rw [Nat.zero_add] at hrecord
    exact (isSome_prevBlock? hrecord).trans
      (isSome_incoming? hsuits (List.getElem?_eq_some_iff.mp hid).1)

/-- Block by block, the instructions of `f` are recorded with the fields that their opcodes ask
for. -/
def RecordsFields (f : Function) (r : Record.Function) : Prop :=
  List.Forall₂ (fun b b' => List.Forall₂ (fun id i' => ∃ i, f.instrs[id]? = some i ∧ f.RecordedAs i i')
    b.instrs b'.instrs) f.blocks.toList r.blocks

theorem recordsFields_of_record? {r : Record.Function} (h : f.record? = some r)
    (hsuits : ∀ i ∈ f.instrs, i.detail.Suits i.opcode i.operands.length) : f.RecordsFields r := by
  refine (of_record? h).2.imp fun b b' hb => (of_blockRecord? hb).2.imp fun id i' hi' => ?_
  obtain ⟨i, hi, hrecord⟩ := hi'
  exact ⟨i, hi, recordedAs_of_instrRecord? hrecord (hsuits i (Array.mem_of_getElem? hi))⟩

end Function

/-! ## Documents -/

namespace Record

/-- The keys of the document of an instruction. -/
def Instr.keys (opcode : Opcode) : List String :=
  (if opcode = .alloca then ["alloca_size", "alloca_type"] else []) ++ ["name", "opcode", "operands"]
    ++ (if opcode = .icmp ∨ opcode = .fcmp then ["predicate"] else []) ++ ["type"]

/-- The keys of the document of an operand. -/
def Operand.keys (opcode : Opcode) : List String :=
  ["name"] ++ (if opcode = .phi then ["prev_block"] else []) ++ ["type", "value"]

/-- A field is in a document exactly if there is a value for it. -/
theorem map_optionalField {key : String} {value? : Option String} {p : Prop} [Decidable p]
    (h : value?.isSome ↔ p) :
    (optionalField key value?).map Prod.fst = if p then [key] else [] := by
  cases value? with
  | none => rw [if_neg (fun hp => Bool.noConfusion (h.mpr hp))]; rfl
  | some value => rw [if_pos (h.mp rfl)]; rfl

end Record

/-- **The opcode of an instruction tells the keys of its document**, and those of its operands. -/
theorem Function.RecordedAs.keys_eq {f : Function} {i : Instr} {r : Record.Instr}
    (h : f.RecordedAs i r) :
    (∃ fields, r.toJson = .obj fields ∧ fields.map Prod.fst = Record.Instr.keys i.opcode)
      ∧ ∀ o ∈ r.operands, ∃ fields, o.toJson = .obj fields
        ∧ fields.map Prod.fst = Record.Operand.keys i.opcode := by
  refine ⟨⟨_, rfl, ?_⟩, fun o ho => ⟨_, rfl, ?_⟩⟩
  · simp only [List.map_append, Record.map_optionalField h.predicate,
      Record.map_optionalField h.allocaSize, Record.map_optionalField h.allocaType,
      Record.Instr.keys]
    by_cases halloca : i.opcode = .alloca
    · simp only [if_pos halloca]
      rfl
    · simp only [if_neg halloca]
      rfl
  · simp only [List.map_append, Record.map_optionalField (h.prevBlock o ho)]
    rfl

/-! ## Modules -/

namespace Module

/-- **Records have their fields where they belong.** If a text is read then its definitions have
records, and so have those among them that are selected. Each instruction of such a record is the
record of an instruction of the function, and has the fields that the opcode of this instruction
asks for. -/
theorem fields_of_read {source : String} {m : Module} (h : (Module.read source).result = .ok m)
    (o : ExtractOptions) :
    ∃ rs, extract source o = .ok rs
      ∧ List.Forall₂ (fun f r => f.record? = some r ∧ f.RecordsFields r)
        (m.definitions.filter fun f => o.selects f.name) rs := by
  obtain ⟨rs, hrs⟩ := exists_records h
  refine ⟨_, extract_of_read h hrs o, ?_⟩
  refine ((List.forall₂_and_left _ _).mpr ⟨fun f hf => hf, hrs.filter o.selects⟩).imp ?_
  rintro f r ⟨hf, hr⟩
  obtain ⟨d, hd, hfinish⟩ := (read_spec h).1 f (List.mem_filter.mp (List.mem_filter.mp hf).1).1
  exact ⟨hr, Function.recordsFields_of_record? hr fun i hi => (Draft.finish_spec hfinish).suits hd hi⟩

/-- An allocation of as many elements as an argument says, a comparison and a phi. -/
def allocatingSource : String :=
  "define i8* @f(i32 %n) \x7b
entry:
  %room = alloca i8, i32 %n
  %none = icmp eq i32 %n, 0
  br i1 %none, label %done, label %done
done:
  %p = phi i8* [ %room, %entry ], [ null, %entry ]
  ret i8* %p
\x7d
"

/-- The fields of the records of `allocatingSource` that not every instruction has. -/
theorem fields_of_read_allocating : ∃ m rs, (Module.read allocatingSource).result = .ok m
    ∧ extract allocatingSource ⟨none, false⟩ = .ok rs
    ∧ List.Forall₂ (fun f r => f.record? = some r ∧ f.RecordsFields r) m.definitions rs
    ∧ rs.flatMap (fun r => (r.blocks.flatMap (·.instrs)).map fun i =>
        (i.opcode, [i.predicate?, i.allocaSize?, i.allocaType?], i.operands.map (·.prevBlock?)))
      = [("alloca", [none, some "%n", some "I8"], [none]),
        ("icmp", [some "eq", none, none], [none, none]),
        ("br", [none, none, none], [none, none, none]),
        ("phi", [none, none, none], [some "entry", some "entry"]),
        ("ret", [none, none, none], [none])] := by
  have hrecords : (extract allocatingSource ⟨none, false⟩).toOption.map (fun rs => rs.flatMap fun r =>
      (r.blocks.flatMap (·.instrs)).map fun i =>
        (i.opcode, [i.predicate?, i.allocaSize?, i.allocaType?], i.operands.map (·.prevBlock?)))
      = some [("alloca", [none, some "%n", some "I8"], [none]),
        ("icmp", [some "eq", none, none], [none, none]),
        ("br", [none, none, none], [none, none, none]),
        ("phi", [none, none, none], [some "entry", some "entry"]),
        ("ret", [none, none, none], [none])] := by
    decide +kernel
  obtain ⟨rs, hrs, hfields⟩ := exists_ok_of_toOption hrecords
  cases hm : (Module.read allocatingSource).result with
  | error e => rw [extract, hm] at hrs; cases hrs
  | ok m =>
    obtain ⟨rs', hrs', hrecorded⟩ := fields_of_read hm ⟨none, false⟩
    obtain rfl : rs = rs' := Except.ok.inj (hrs.symm.trans hrs')
    have hall : (m.definitions.filter fun _ => true) = m.definitions := List.filter_true m.definitions
    exact ⟨m, rs, rfl, hrs, hall ▸ hrecorded, hfields⟩

end Module

end IrRecords
