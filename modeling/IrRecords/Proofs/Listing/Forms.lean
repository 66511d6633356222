import IrRecords.Draft.Instr
import IrRecords.Proofs.Listing.Cutting
import IrRecords.Proofs.Ty.Reading

/-!
# Reading the instructions of a listing

The tokens of an instruction of a listing are read as this instruction (`takes_readOperation`), one
lemma for each form. Whatever is optional in the grammar is absent in a listing: flags would stand
where a type starts, and no flag is a type.

There is one exception, and it is the reason why listings can not be read back in general. A
return is read by looking for the word `void` before anything else, and a type such as `void ()*`
starts with this word. So the return of a value of such a type is read as a return without a value,
and the rest of its line is passed over (`Form.asRead`).
-/

namespace IrRecords

/-! ## Types that start with `void` -/

/-- Whether the first word of the spelling of a type is `void`. -/
def Ty.startsVoid : Ty → Bool
  | primitive p => p == .void
  | function ret _ _ => startsVoid ret
  | pointer pointee _ => startsVoid pointee
  | _ => false

theorem Ty.startsVoid_iff (ty : Ty) :
    ∃ k ks, ty.kinds = k :: ks ∧ (ty.startsVoid = true ↔ k = .word "void") := by
  -- Suffixes stand behind the type that they are put on, so the first token is that of the base.
  induction ty using Ty.spine_induction with
  | function ret params vararg ih =>
    obtain ⟨k, ks, hks, hk⟩ := ih
    exact ⟨k, _, by rw [kinds, hks]; rfl, hk⟩
  | pointer pointee space ih =>
    obtain ⟨k, ks, hks, hk⟩ := ih
    exact ⟨k, _, by rw [kinds, hks]; rfl, hk⟩
  | base ty hbase =>
    cases ty with
    | function ret params vararg => cases hbase
    | pointer pointee space => cases hbase
    | primitive p => exact ⟨_, _, rfl, by cases p <;> decide⟩
    | int bits =>
      refine ⟨_, _, rfl, by simp [startsVoid], fun h => ?_⟩
      exact absurd (TokenKind.word.inj h) (int_ne (by decide))
    | bare space => exact ⟨_, _, rfl, by simp [startsVoid]⟩
    | named name => exact ⟨_, _, rfl, by simp [startsVoid]⟩
    | literal fields packed => cases packed <;> exact ⟨_, _, rfl, by simp [startsVoid]⟩
    | array length elem => exact ⟨_, _, rfl, by simp [startsVoid]⟩
    | vector scalable length elem => exact ⟨_, _, rfl, by simp [startsVoid]⟩

namespace Listing

open Reader

/-! ## What is read -/

/-- A use, and the operand of a draft that it is read as. -/
inductive Use.ReadAs : Use → Draft.Operand → Prop
  | reference {name : String} {ty : Ty} {p : Position} :
    ReadAs ⟨ty, .reference name⟩ (.reference (.named name) ty p)
  | numeral {text : String} {ty : Ty} : ReadAs ⟨ty, .numeral text⟩ (.known (.constant ty text))

/-- What an instruction of this form holds beside its operands. -/
def Form.Holds : Form → Draft.Detail → Prop
  | compare p .., detail => detail = .compare p
  | phi _ edges, detail => ∃ incoming : List (Ident × Position), detail = .phi incoming
      ∧ incoming.map (·.1) = edges.map fun e => .named e.2
  | _, detail => detail = .plain

/-- A form, and the instruction of a draft that it is read as. -/
structure Form.ReadAs (form : Form) (i : Draft.Instr) : Prop where
  opcode : i.opcode = form.opcode
  ty : i.ty = form.ty
  operands : List.Forall₂ Use.ReadAs form.uses i.operands
  detail : form.Holds i.detail

/-- What a form is read as: a return may lose its value. -/
def Form.asRead : Form → Form
  | ret (some value) => if value.ty.startsVoid then ret none else ret (some value)
  | form => form

/-- Only the return of a value whose type starts with `void` is read as something else. -/
theorem Form.asRead_cases (form : Form) :
    form.asRead = form ∨ (∃ value, form = ret (some value) ∧ value.ty.startsVoid = true)
      ∧ form.asRead = ret none := by
  cases form with
  | ret value? =>
    cases value? with
    | none => exact .inl rfl
    | some value =>
      by_cases hvoid : value.ty.startsVoid = true
      · exact .inr ⟨⟨value, rfl, hvoid⟩, if_pos hvoid⟩
      · exact .inl (if_neg hvoid)
  | _ => exact .inl rfl

theorem Form.asRead_opcode (form : Form) : form.asRead.opcode = form.opcode := by
  rcases form.asRead_cases with h | ⟨⟨value, rfl, _⟩, h⟩
  · rw [h]
  · rw [h]
    rfl

theorem Form.asRead_ty (form : Form) : form.asRead.ty = form.ty := by
  rcases form.asRead_cases with h | ⟨⟨value, rfl, _⟩, h⟩
  · rw [h]
  · rw [h]
    rfl

def Statement.asRead (s : Statement) : Statement := { s with form := s.form.asRead }

def Block.asRead (b : Block) : Block := { b with statements := b.statements.map Statement.asRead }

/-- What a listing is read as: some returns may lose their value. -/
def asRead (l : Listing) : Listing := { l with blocks := l.blocks.map Block.asRead }

/-- A phi has an edge. -/
def Form.HasEdge : Form → Prop
  | phi _ edges => edges ≠ []
  | _ => True

/-! ## Operands -/

/-- A use that its tokens stand for. -/
structure Use.Sound (u : Use) : Prop where
  prints : u.ty.prints = true
  ty_ne : u.ty ≠ .metadata
  operand : (Piece.operand u.operand).Sound

/-- A text without blanks is shown as it is. -/
theorem collapse_eq_self {cs : List Char} (h : ∀ c ∈ cs, Text.isBlank c = false) :
    Text.collapse cs = cs := by
  have hall : ∀ quoted, Text.collapseFrom quoted false cs = cs := by
    induction cs with
    | nil => exact fun _ => rfl
    | cons c cs ih =>
      intro quoted
      rw [List.forall_mem_cons] at h
      rw [Text.collapseFrom, h.1, Bool.and_false, if_neg Bool.false_ne_true, ih h.2]
      rfl
  exact hall false

theorem isBlank_of_isDigit {c : Char} (h : c.isDigit = true) : Text.isBlank c = false := by
  have hrange : 48 ≤ c.toNat ∧ c.toNat ≤ 57 := by
    rw [Char.isDigit, Bool.and_eq_true, decide_eq_true_eq, decide_eq_true_eq] at h
    exact ⟨UInt32.le_iff_toNat_le.mp h.1, UInt32.le_iff_toNat_le.mp h.2⟩
  simp only [Text.isBlank, Text.blankRanges, List.any_cons, List.any_nil, Bool.or_false,
    Bool.or_eq_false_iff, Bool.and_eq_false_iff, decide_eq_false_iff_not]
  omega

theorem collapse_integer {text : String} (h : IsInteger text) :
    Text.collapse text.toList = text.toList := by
  refine collapse_eq_self fun c hc => ?_
  rcases h with h | ⟨w, hw, h⟩
  · exact isBlank_of_isDigit (h.2 c hc)
  · rw [hw] at hc
    rcases List.mem_cons.mp hc with rfl | hc
    · decide
    · exact isBlank_of_isDigit (h.2 c hc)

/-- The text of a numeral is the text of its token. -/
theorem takes_numeral {text : String} (h : IsInteger text) :
    (passedText Draft.passConstant).Takes [.int text] (· = text) fun _ => True := by
  intro c ms hms hc _
  have hpass : Draft.passConstant.Takes [.int text] (fun _ => True) fun _ => True := by
    unfold Draft.passConstant
    exact .kind fun _ _ => .advance
  obtain ⟨u, hu, _⟩ := hpass c ms hms hc trivial
  cases ms with
  | nil => cases hms
  | cons m ms =>
    obtain ⟨t, hrest, _, ht, _⟩ := hc.uncons
    have hkind : m.kind = .int text := (List.cons.inj hms).1
    -- The text is taken from the tokens that were passed, and this is the numeral alone.
    have hbetween : c.tokensUpTo c.advance = [t] := by
      rw [Cursor.tokensUpTo, Cursor.remaining, Cursor.remaining, hrest, List.length_cons,
        Nat.add_sub_cancel_left, List.take_succ_cons, List.take_zero]
    refine ⟨text, ?_, rfl⟩
    rw [passedText, hu]
    have htext : c.textUpTo c.advance = text := by
      rw [Cursor.textUpTo, hbetween, Token.spanText, List.flatMap_nil, List.append_nil,
        ht.numeral text hkind, collapse_integer h, String.ofList_toList]
    exact congrArg (fun s => Except.ok (s, c.advance)) htext

theorem takes_readOperand {u : Use} (h : u.Sound) :
    (Draft.readOperand u.ty).Takes [u.operand.kind] u.ReadAs fun _ => True := by
  obtain ⟨ty, o⟩ := u
  have hnumeral := h.operand
  rw [Draft.readOperand, if_neg h.ty_ne]
  refine .position fun p => .kind fun _ _ => ?_
  cases o with
  | reference name => exact Takes.cons .advance fun _ _ => .pure .reference
  | numeral text =>
    apply (takes_numeral hnumeral).last (fun _ _ => trivial)
    rintro _ rfl
    exact .pure .numeral

/-- The kinds of the tokens of a use. -/
def Use.kinds (u : Use) : List TokenKind := u.ty.kinds ++ [u.operand.kind]

theorem endsType_operand (o : Operand) : Ty.EndsType o.kind := by
  cases o <;> simp [Operand.kind, Ty.EndsType]

theorem takes_readTypedOperand {u : Use} (h : u.Sound) :
    Draft.readTypedOperand.Takes u.kinds (fun r => r.1 = u.ty ∧ u.ReadAs r.2) fun _ => True := by
  rw [Draft.readTypedOperand]
  refine Takes.bind (Ty.takes_read h.prints) (fun _ _ => endsType_operand _) ?_
  rintro _ rfl
  exact (takes_readOperand h).last (fun _ _ => trivial) fun o ho => .pure ⟨rfl, ho⟩

/-- Words that are not ahead are not passed. -/
theorem takes_skipWords {ws : List String} :
    (skipWords ws).Takes [] (fun _ => True) fun k => ∀ w ∈ ws, k ≠ .word w := by
  refine Takes.skipWhile fun t ht => ?_
  unfold isWordOf
  split
  · next w hw =>
    rw [List.contains_eq_mem, decide_eq_false_iff_not]
    exact fun hmem => ht w hmem hw
  · rfl

/-- No flag is a type, so nothing is passed in front of a type. -/
theorem Takes.skipWords_type {α : Type} {ws : List String} {f : Unit → Reader α} {ty : Ty}
    {ks : List TokenKind} {Q : α → Prop} {F : TokenKind → Prop}
    (hws : ∀ w ∈ ws, isTypeWord w = false) (hty : ty.prints = true)
    (hf : (f ()).Takes (ty.kinds ++ ks) Q F) : (skipWords ws >>= f).Takes (ty.kinds ++ ks) Q F := by
  obtain ⟨k, rest, hks, hk⟩ := Ty.exists_kinds_cons ty hty
  refine Takes.skip takes_skipWords (fun _ _ w hw hword => ?_) fun _ _ => hf
  rw [hks] at hword
  obtain rfl : k = .word w := hword
  rw [startsType, hws w hw] at hk
  cases hk

/-! ## One lemma for each form -/

/-- What does not continue a statement. -/
def EndsStatement (k : TokenKind) : Prop := Ty.EndsType k ∧ k ≠ .comma

theorem not_isTypeWord_arithmetic : ∀ w ∈ Draft.arithmeticFlags, isTypeWord w = false := by decide

theorem not_isTypeWord_fastMath : ∀ w ∈ Draft.fastMathFlags, isTypeWord w = false := by decide

theorem not_isTypeWord_memory : ∀ w ∈ Draft.memoryFlags, isTypeWord w = false := by decide

section Forms

variable {ty : Ty} {lhs rhs : Operand} {value address condition onTrue onFalse : Use}
  {F : TokenKind → Prop}

theorem takes_readBinary {op : BinaryOp} (hlhs : Use.Sound ⟨ty, lhs⟩) (hrhs : Use.Sound ⟨ty, rhs⟩) :
    (Draft.readBinary op).Takes (ty.kinds ++ [lhs.kind, .comma, rhs.kind])
      (Form.binary op ty lhs rhs).ReadAs F := by
  rw [Draft.readBinary]
  apply Takes.skipWords_type not_isTypeWord_arithmetic hlhs.prints
  refine Takes.bind (Ty.takes_read hlhs.prints) (fun _ _ => endsType_operand lhs) ?_
  rintro _ rfl
  refine Takes.cons (takes_readOperand hlhs) fun l hl => Takes.cons .expect fun _ _ => ?_
  refine Takes.last (takes_readOperand hrhs) (fun _ _ => trivial) fun r hr => .pure ?_
  exact ⟨rfl, rfl, .cons hl (.cons hr .nil), rfl⟩

theorem takes_readCompare {opcode : Opcode} {predicate? : String → Option Predicate} {p : Predicate}
    (hopcode : (Form.compare p ty lhs rhs).opcode = opcode) (hp : predicate? p.name = some p)
    (hlhs : Use.Sound ⟨ty, lhs⟩) (hrhs : Use.Sound ⟨ty, rhs⟩) :
    (Draft.readCompare opcode predicate?).Takes
      (.word p.name :: (ty.kinds ++ [lhs.kind, .comma, rhs.kind]))
      (Form.compare p ty lhs rhs).ReadAs F := by
  have hflags : ∀ w ∈ Draft.arithmeticFlags, p.name ≠ w := by
    cases p with
    | int p => cases p <;> decide
    | float p => cases p <;> decide
  rw [Draft.readCompare]
  refine Takes.skip takes_skipWords (fun _ _ w hw h => ?_) fun _ _ => ?_
  · exact hflags w hw (TokenKind.word.inj h)
  · refine .kind fun _ _ => ?_
    rw [List.headD_cons]
    dsimp only
    rw [hp]
    refine Takes.cons .advance fun _ _ => ?_
    refine Takes.bind (Ty.takes_read hlhs.prints) (fun _ _ => endsType_operand lhs) ?_
    rintro _ rfl
    refine Takes.cons (takes_readOperand hlhs) fun l hl => Takes.cons .expect fun _ _ => ?_
    refine Takes.last (takes_readOperand hrhs) (fun _ _ => trivial) fun r hr => .pure ?_
    exact ⟨hopcode.symm, rfl, .cons hl (.cons hr .nil), rfl⟩

theorem takes_readCast {op : CastOp} (hvalue : value.Sound) (hty : ty.prints = true) :
    (Draft.readCast op).Takes (value.kinds ++ .word "to" :: ty.kinds)
      (Form.cast op value ty).ReadAs Ty.EndsType := by
  rw [Draft.readCast, Use.kinds, List.append_assoc]
  apply Takes.skipWords_type not_isTypeWord_arithmetic hvalue.prints
  rw [← List.append_assoc]
  refine Takes.bind (takes_readTypedOperand hvalue) (fun _ _ => trivial) fun v hv => ?_
  refine Takes.cons .expect fun _ _ => ?_
  apply Takes.last (Ty.takes_read hty) (fun _ h => h)
  rintro _ rfl
  exact .pure ⟨rfl, rfl, .cons hv.2 .nil, rfl⟩

theorem takes_readSelect (hcondition : condition.Sound) (htrue : onTrue.Sound)
    (hfalse : onFalse.Sound) :
    Draft.readSelect.Takes (condition.kinds ++ .comma :: (onTrue.kinds ++ .comma :: onFalse.kinds))
      (Form.select condition onTrue onFalse).ReadAs F := by
  rw [Draft.readSelect, Use.kinds, List.append_assoc]
  apply Takes.skipWords_type not_isTypeWord_fastMath hcondition.prints
  rw [← List.append_assoc]
  refine Takes.bind (takes_readTypedOperand hcondition) (fun _ _ => trivial) fun c hc => ?_
  refine Takes.cons .expect fun _ _ => ?_
  refine Takes.bind (takes_readTypedOperand htrue) (fun _ _ => trivial) fun t ht => ?_
  refine Takes.cons .expect fun _ _ => ?_
  refine Takes.last (takes_readTypedOperand hfalse) (fun _ _ => trivial) fun f hf => .pure ?_
  exact ⟨rfl, ht.1, .cons hc.2 (.cons ht.2 (.cons hf.2 .nil)), rfl⟩

theorem takes_readFreeze (hvalue : value.Sound) :
    Draft.readFreeze.Takes value.kinds (Form.freeze value).ReadAs F := by
  rw [Draft.readFreeze]
  refine Takes.last (takes_readTypedOperand hvalue) (fun _ _ => trivial) fun v hv => .pure ?_
  exact ⟨rfl, hv.1, .cons hv.2 .nil, rfl⟩

theorem takes_readLoad (hty : ty.prints = true) (haddress : address.Sound) :
    Draft.readLoad.Takes (ty.kinds ++ .comma :: address.kinds) (Form.load ty address).ReadAs F := by
  rw [Draft.readLoad]
  apply Takes.skipWords_type not_isTypeWord_memory hty
  apply Takes.bind (Ty.takes_read hty) (fun _ _ => by simp [Ty.EndsType])
  rintro _ rfl
  refine Takes.cons .expect fun _ _ => ?_
  refine Takes.last (takes_readTypedOperand haddress) (fun _ _ => trivial) fun a ha => .pure ?_
  exact ⟨rfl, rfl, .cons ha.2 .nil, rfl⟩

theorem takes_readStore (hvalue : value.Sound) (haddress : address.Sound) :
    Draft.readStore.Takes (value.kinds ++ .comma :: address.kinds)
      (Form.store value address).ReadAs F := by
  rw [Draft.readStore, Use.kinds, List.append_assoc]
  apply Takes.skipWords_type not_isTypeWord_memory hvalue.prints
  rw [← List.append_assoc]
  refine Takes.bind (takes_readTypedOperand hvalue) (fun _ _ => trivial) fun v hv => ?_
  refine Takes.cons .expect fun _ _ => ?_
  refine Takes.last (takes_readTypedOperand haddress) (fun _ _ => trivial) fun a ha => .pure ?_
  exact ⟨rfl, rfl, .cons hv.2 (.cons ha.2 .nil), rfl⟩

/-! ### Phis -/

/-- The kinds of the tokens of an edge. -/
def edgeKinds (e : Operand × String) : List TokenKind :=
  [.opener .square, e.1.kind, .comma, .localRef (.named e.2), .closer .square]

theorem kindsOf_edgePieces (edges : List (Operand × String)) :
    kindsOf (edgePieces edges) = listedKinds (edges.map edgeKinds) false := by
  induction edges with
  | nil => rfl
  | cons e rest ih =>
    obtain ⟨o, block⟩ := e
    cases rest with
    | nil => rfl
    | cons e' rest =>
      rw [List.map_cons, List.map_cons, listedKinds_cons_cons, ← List.map_cons, ← ih]
      rfl

/-- An edge, and the operand and label that it is read as. -/
def EdgeReadAs (ty : Ty) (e : Operand × String) (r : Draft.Operand × Ident × Position) : Prop :=
  Use.ReadAs ⟨ty, e.1⟩ r.1 ∧ r.2.1 = .named e.2

theorem takes_readEdge {e : Operand × String} (h : Use.Sound ⟨ty, e.1⟩) :
    (Draft.readEdge ty).Takes (edgeKinds e) (EdgeReadAs ty e) F := by
  rw [Draft.readEdge, edgeKinds]
  refine Takes.cons .expect fun _ _ => Takes.cons (takes_readOperand h) fun o ho => ?_
  refine Takes.cons .expect fun _ _ => .position fun p => .kind fun _ _ => ?_
  rw [List.headD_cons]
  refine Takes.cons .advance fun _ _ => Takes.cons .expect fun _ _ => ?_
  exact .pure ⟨ho, rfl⟩

/-- One round of the edges of a phi: one more edge, and another round if a comma and a bracket are
behind it. -/
def edgeStep (ty : Ty) (edges : Array (Draft.Operand × Ident × Position)) :
    Reader (Round (Array (Draft.Operand × Ident × Position))
      (Array (Draft.Operand × Ident × Position))) := do
  let edges := edges.push (← Draft.readEdge ty)
  let more ← isAt .comma
  if more && (← nextKind) == .opener .square then
    advance
    return .again edges
  else return .done edges

theorem takes_edgeStep_done {e : Operand × String} (h : Use.Sound ⟨ty, e.1⟩)
    (edges : Array (Draft.Operand × Ident × Position)) :
    (edgeStep ty edges).Takes (edgeKinds e)
      (fun r => ∃ result, r = .done result ∧ ∃ a, EdgeReadAs ty e a ∧ result = edges.push a)
      (· ≠ .comma) := by
  unfold edgeStep
  refine Takes.last (F := fun _ => True) (takes_readEdge h) (fun _ _ => trivial) fun a ha => ?_
  refine .isAt fun k hk => .nextKind fun k' => ?_
  rw [List.headD_nil, beq_eq_false_iff_ne.mpr hk, Bool.false_and, if_neg Bool.false_ne_true]
  exact .pure ⟨_, rfl, a, ha, rfl⟩

theorem takes_edgeStep_again {e : Operand × String} (h : Use.Sound ⟨ty, e.1⟩)
    (edges : Array (Draft.Operand × Ident × Position)) :
    (edgeStep ty edges).Takes (edgeKinds e ++ [.comma])
      (fun r => ∃ s, r = .again s ∧ ∃ a, EdgeReadAs ty e a ∧ s = edges.push a)
      (· = .opener .square) := by
  unfold edgeStep
  refine Takes.bind (F := fun _ => True) (takes_readEdge h) (fun _ _ => trivial) fun a ha => ?_
  refine .isAt fun _ _ => .nextKind_cons fun k hk => ?_
  rw [List.headD_cons, List.headD_nil, hk, beq_self_eq_true, beq_self_eq_true, Bool.and_self,
    if_pos rfl]
  exact Takes.cons .advance fun _ _ => .pure ⟨_, rfl, a, ha, rfl⟩

theorem takes_iterate_edgeStep {edges : List (Operand × String)} (hne : edges ≠ [])
    (h : ∀ e ∈ edges, Use.Sound ⟨ty, e.1⟩) (acc : Array (Draft.Operand × Ident × Position)) :
    (iterate (edgeStep ty) acc).Takes (listedKinds (edges.map edgeKinds) false)
      (fun result => ∃ as, List.Forall₂ (EdgeReadAs ty) edges as
        ∧ result.toList = acc.toList ++ as) (· ≠ .comma) := by
  induction edges generalizing acc with
  | nil => exact absurd rfl hne
  | cons e rest ih =>
    have he := h e List.mem_cons_self
    cases rest with
    | nil =>
      refine (Takes.iterate_done (takes_edgeStep_done he acc)).mono ?_ fun _ h => h
      rintro result ⟨a, ha, rfl⟩
      exact ⟨[a], .cons ha .nil, Array.toList_push⟩
    | cons e' rest =>
      rw [List.map_cons, List.map_cons, listedKinds_cons_cons, ← List.map_cons,
        ← List.singleton_append, ← List.append_assoc]
      -- A round with a comma goes on only if a bracket opens the next edge.
      refine Takes.iterate_again (takes_edgeStep_again he acc) (by simp) (fun k _ => ?_) ?_
      · cases rest <;> rfl
      · rintro s ⟨a, ha, rfl⟩
        have hmore := ih (by simp) (fun e he => h e (List.mem_cons_of_mem _ he)) (acc.push a)
        refine hmore.mono ?_ fun _ h => h
        rintro result ⟨as, has, hresult⟩
        exact ⟨a :: as, .cons ha has, by rw [hresult, Array.toList_push, List.append_assoc]; rfl⟩

/-- The edges that have been read are the operands and the detail of the phi. -/
theorem readAs_phi {edges : List (Operand × String)}
    {as : List (Draft.Operand × Ident × Position)} (h : List.Forall₂ (EdgeReadAs ty) edges as) :
    (Form.phi ty edges).ReadAs ⟨.phi, ty, as.map (·.1), .phi (as.map (·.2))⟩ := by
  refine ⟨rfl, rfl, ?_, as.map (·.2), rfl, ?_⟩
  · rw [Form.uses, List.forall₂_map_left_iff, List.forall₂_map_right_iff]
    exact h.imp fun _ _ hedge => hedge.1
  · induction h with
    | nil => rfl
    | cons hedge _ ih => rw [List.map_cons, List.map_cons, List.map_cons, ih, hedge.2]

theorem takes_readPhi {edges : List (Operand × String)} (hne : edges ≠ []) (hty : ty.prints = true)
    (h : ∀ e ∈ edges, Use.Sound ⟨ty, e.1⟩) :
    Draft.readPhi.Takes (ty.kinds ++ listedKinds (edges.map edgeKinds) false)
      (Form.phi ty edges).ReadAs (· ≠ .comma) := by
  have hfirst : ∀ k, (listedKinds (edges.map edgeKinds) false).headD k = .opener .square := by
    intro k
    cases edges with
    | nil => exact absurd rfl hne
    | cons e rest => cases rest <;> rfl
  rw [Draft.readPhi]
  apply Takes.skipWords_type not_isTypeWord_fastMath hty
  refine Takes.bind (Ty.takes_read hty) (fun k _ => ?_) ?_
  · rw [hfirst]
    exact ⟨by simp, by decide, by simp⟩
  · rintro _ rfl
    apply Takes.last (takes_iterate_edgeStep hne h #[]) (fun _ h => h)
    rintro result ⟨as, has, hresult⟩
    refine .pure ?_
    rw [hresult]
    exact readAs_phi has

/-! ### Terminators -/

theorem target_sound (name : String) : (target name).Sound := ⟨rfl, by simp [target], trivial⟩

theorem takes_readBr {block : String} :
    Draft.readBr.Takes (target block).kinds (Form.br block).ReadAs F := by
  rw [Draft.readBr]
  apply Takes.last (takes_readTypedOperand (target_sound block)) (fun _ _ => trivial)
  rintro ⟨ty, o⟩ ⟨rfl, ho⟩
  exact .pure ⟨rfl, rfl, .cons ho .nil, rfl⟩

theorem takes_readBr_cond {yes no : String} (hcondition : condition.Sound)
    (hty : condition.ty ≠ .label) :
    Draft.readBr.Takes
      (condition.kinds ++ .comma :: ((target yes).kinds ++ .comma :: (target no).kinds))
      (Form.condBr condition yes no).ReadAs F := by
  rw [Draft.readBr]
  apply Takes.bind (takes_readTypedOperand hcondition) (fun _ _ => trivial)
  rintro ⟨ty, c⟩ ⟨rfl, hc⟩
  dsimp only
  rw [if_neg hty]
  refine Takes.cons .expect fun _ _ => ?_
  refine Takes.bind (takes_readTypedOperand (target_sound yes)) (fun _ _ => trivial) fun t ht => ?_
  refine Takes.cons .expect fun _ _ => ?_
  refine Takes.last (takes_readTypedOperand (target_sound no)) (fun _ _ => trivial) fun f hf => ?_
  -- The text has the target for true first, and the function has the one for false first.
  exact .pure ⟨rfl, rfl, .cons hc (.cons hf.2 (.cons ht.2 .nil)), rfl⟩

/-- The kinds of the tokens of a case. -/
def caseKinds (c : Use × String) : List TokenKind := c.1.kinds ++ .comma :: (target c.2).kinds

/-- The operands of a case. -/
def caseUses (c : Use × String) : List Use := [c.1, target c.2]

/-- One round of the cases of a switch: a bracket ends them. -/
def caseStep (cases : Array Draft.Operand) :
    Reader (Round (Array Draft.Operand) (Array Draft.Operand)) := do
  if ← accept (.closer .square) then return .done cases
  let (_, value) ← Draft.readTypedOperand
  expectComma
  let (_, target) ← Draft.readTypedOperand
  return .again ((cases.push value).push target)

theorem takes_caseStep_again {c : Use × String} (h : c.1.Sound) (acc : Array Draft.Operand) :
    (caseStep acc).Takes (caseKinds c)
      (fun r => ∃ s, r = .again s ∧ ∃ as, List.Forall₂ Use.ReadAs (caseUses c) as
        ∧ s.toList = acc.toList ++ as) fun _ => True := by
  rw [caseStep, caseKinds]
  refine Takes.accept_false (fun k _ => ?_) ?_
  · obtain ⟨k', ks, hks, hk'⟩ := Ty.exists_kinds_cons c.1.ty h.prints
    rw [Use.kinds, hks]
    exact Ty.ne_of_startsType hk' rfl
  · refine Takes.bind (takes_readTypedOperand h) (fun _ _ => trivial) fun v hv => ?_
    refine Takes.cons .expect fun _ _ => ?_
    apply Takes.last (takes_readTypedOperand (target_sound c.2)) (fun _ _ => trivial)
    exact fun t ht => .pure ⟨_, rfl, [v.2, t.2], .cons hv.2 (.cons ht.2 .nil), by simp⟩

theorem takes_iterate_caseStep {cases : List (Use × String)} (h : ∀ c ∈ cases, c.1.Sound)
    (acc : Array Draft.Operand) :
    (iterate caseStep acc).Takes (cases.flatMap caseKinds ++ [.closer .square])
      (fun result => ∃ as, List.Forall₂ Use.ReadAs (cases.flatMap caseUses) as
        ∧ result.toList = acc.toList ++ as) fun _ => True := by
  induction cases generalizing acc with
  | nil =>
    apply Takes.iterate_done
    unfold caseStep
    exact Takes.accept_true (.pure ⟨_, rfl, [], .nil, (List.append_nil _).symm⟩)
  | cons c rest ih =>
    rw [List.flatMap_cons, List.flatMap_cons, List.append_assoc]
    have hfirst := takes_caseStep_again (h c List.mem_cons_self) acc
    apply Takes.iterate_again hfirst (by simp [caseKinds]) (fun _ _ => trivial)
    rintro s ⟨as, has, hs⟩
    refine (ih (fun c hc => h c (List.mem_cons_of_mem _ hc)) s).mono ?_ fun _ h => h
    rintro result ⟨bs, hbs, hresult⟩
    exact ⟨as ++ bs, List.rel_append has hbs, by rw [hresult, hs, List.append_assoc]⟩

theorem takes_readSwitch {otherwise : String} {cases : List (Use × String)}
    (hcondition : condition.Sound) (h : ∀ c ∈ cases, c.1.Sound) :
    Draft.readSwitch.Takes
      (condition.kinds ++ .comma :: ((target otherwise).kinds
        ++ .opener .square :: (cases.flatMap caseKinds ++ [.closer .square])))
      (Form.switch condition otherwise cases).ReadAs F := by
  rw [Draft.readSwitch]
  refine Takes.bind (takes_readTypedOperand hcondition) (fun _ _ => trivial) fun c hc => ?_
  refine Takes.cons .expect fun _ _ => ?_
  apply Takes.bind (takes_readTypedOperand (target_sound otherwise)) (fun _ _ => trivial)
  intro o ho
  refine Takes.cons .expect fun _ _ => ?_
  apply Takes.last (takes_iterate_caseStep h #[]) (fun _ _ => trivial)
  rintro result ⟨as, has, hresult⟩
  refine .pure ⟨rfl, rfl, .cons hc.2 (.cons ho.2 ?_), rfl⟩
  rw [hresult]
  exact has

/-- A return is read as one without a value as soon as the word `void` is ahead, whatever comes
behind the word. -/
theorem takes_readRet_void : Draft.readRet.Takes [.word "void"] (Form.ret none).ReadAs F := by
  rw [Draft.readRet]
  exact Takes.accept_true (.pure ⟨rfl, rfl, .nil, rfl⟩)

theorem takes_readRet (hvalue : value.Sound) (hvoid : value.ty.startsVoid = false) :
    Draft.readRet.Takes value.kinds (Form.ret (some value)).ReadAs F := by
  rw [Draft.readRet]
  refine Takes.accept_false (fun k _ => ?_) ?_
  · -- The type does not start with `void`, so the word is not taken away from it.
    obtain ⟨k', ks, hks, hk'⟩ := value.ty.startsVoid_iff
    rw [Use.kinds, hks]
    intro h
    rw [hk'.mpr h] at hvoid
    cases hvoid
  · refine Takes.last (takes_readTypedOperand hvalue) (fun _ _ => trivial) fun v hv => .pure ?_
    exact ⟨rfl, rfl, .cons hv.2 .nil, rfl⟩

end Forms

/-! ## All forms -/

theorem kindsOf_cons (piece : Piece) (rest : List Piece) :
    kindsOf (piece :: rest) = piece.kinds ++ kindsOf rest := List.flatMap_cons

theorem kindsOf_spelling (ty : Ty) : kindsOf [.spelling ty] = ty.kinds := List.append_nil _

theorem kindsOf_use (u : Use) : kindsOf u.pieces = u.kinds := rfl

theorem kindsOf_use_append (u : Use) (rest : List Piece) :
    kindsOf (u.pieces ++ rest) = u.kinds ++ kindsOf rest := List.flatMap_append

theorem kindsOf_cases (cases : List (Use × String)) :
    kindsOf (cases.flatMap (fun c => c.1.pieces ++ .comma :: (target c.2).pieces) ++ [.closer])
      = cases.flatMap caseKinds ++ [.closer .square] := by
  induction cases with
  | nil => rfl
  | cons c rest ih =>
    rw [List.flatMap_cons, List.flatMap_cons, List.append_assoc, List.append_assoc,
      kindsOf_use_append, List.cons_append, kindsOf_cons, kindsOf_use_append, ih, caseKinds]
    simp [Piece.kinds]

variable {defs : List (String × Ty)} {s : Statement}

theorem Use.WellFormed.use_sound {u : Use} (h : u.WellFormed defs) (hty : IsValueTy u.ty) :
    u.Sound :=
  ⟨hty.1, hty.2.2.2.1, h.sound⟩

/-- The instruction is read as it is written, if it is neither a phi without edges nor a return of a
value whose type starts with `void`. -/
theorem takes_readOperation (ctx : Draft.Context) (p : Position) (h : s.WellFormed defs)
    (hedge : s.form.HasEdge) (hvoid : s.form.asRead = s.form) :
    (Draft.readOperation ctx p s.form.opcode).Takes (kindsOf s.form.arguments) s.form.ReadAs
      EndsStatement := by
  obtain ⟨result?, form⟩ := s
  have huses := h.uses
  have htypes := h.types
  have hends : ∀ k, EndsStatement k → Ty.EndsType k := fun _ hk => hk.1
  dsimp only at huses htypes hedge hvoid ⊢
  cases form with
  | binary op ty lhs rhs =>
    simp only [Form.uses, Form.types, List.forall_mem_cons] at huses htypes
    exact takes_readBinary (huses.1.use_sound htypes.1) (huses.2.1.use_sound htypes.1)
  | compare pred ty lhs rhs =>
    simp only [Form.uses, Form.types, List.forall_mem_cons] at huses htypes
    have hlhs := huses.1.use_sound htypes.1
    have hrhs := huses.2.1.use_sound htypes.1
    cases pred with
    | int pred =>
      have hname := congrArg (Option.map Predicate.int) (IntPredicate.ofName?_name pred)
      exact takes_readCompare rfl hname hlhs hrhs
    | float pred =>
      have hname := congrArg (Option.map Predicate.float) (FloatPredicate.ofName?_name pred)
      exact takes_readCompare rfl hname hlhs hrhs
  | cast op value ty =>
    simp only [Form.uses, Form.types, List.forall_mem_cons] at huses htypes
    rw [Form.arguments, kindsOf_use_append, kindsOf_cons, kindsOf_spelling]
    exact (takes_readCast (huses.1.use_sound htypes.1) htypes.2.1.1).mono (fun _ h => h) hends
  | select condition onTrue onFalse =>
    simp only [Form.uses, Form.types, List.forall_mem_cons] at huses htypes
    rw [Form.arguments, kindsOf_use_append, kindsOf_cons, kindsOf_use_append, kindsOf_cons,
      kindsOf_use]
    exact takes_readSelect (huses.1.use_sound htypes.1) (huses.2.1.use_sound htypes.2.1)
      (huses.2.2.1.use_sound htypes.2.2.1)
  | freeze value =>
    simp only [Form.uses, Form.types, List.forall_mem_cons] at huses htypes
    exact takes_readFreeze (huses.1.use_sound htypes.1)
  | load ty address =>
    simp only [Form.uses, Form.types, List.forall_mem_cons] at huses htypes
    exact takes_readLoad htypes.1.1 (huses.1.use_sound htypes.2.1)
  | store value address =>
    simp only [Form.uses, Form.types, List.forall_mem_cons] at huses htypes
    rw [Form.arguments, kindsOf_use_append, kindsOf_cons, kindsOf_use]
    exact takes_readStore (huses.1.use_sound htypes.1) (huses.2.1.use_sound htypes.2.1)
  | phi ty edges =>
    simp only [Form.types, List.forall_mem_cons] at htypes
    -- The type is written once, in front of the edges, so no edge has one of its own.
    have hedges : ∀ e ∈ edges, Use.Sound ⟨ty, e.1⟩ := fun e he =>
      (huses ⟨ty, e.1⟩ (List.mem_map.mpr ⟨e, he, rfl⟩)).use_sound htypes.1
    rw [Form.arguments, kindsOf_cons, kindsOf_edgePieces]
    exact (takes_readPhi hedge htypes.1.1 hedges).mono (fun _ h => h) fun _ h => h.2
  | br block => exact takes_readBr
  | condBr condition yes no =>
    simp only [Form.uses, Form.types, List.forall_mem_cons] at huses htypes
    rw [Form.arguments, kindsOf_use_append, kindsOf_cons, kindsOf_use_append, kindsOf_cons,
      kindsOf_use]
    exact takes_readBr_cond (huses.1.use_sound htypes.1) htypes.1.2.2.1
  | switch condition otherwise cases =>
    simp only [Form.uses, Form.types, List.forall_mem_cons, List.forall_mem_map] at huses htypes
    have hcases : ∀ c ∈ cases, c.1.Sound := fun c hc =>
      (huses.2.2 c.1 (List.mem_flatMap.mpr ⟨c, hc, List.mem_cons_self⟩)).use_sound (htypes.2 c hc)
    rw [Form.arguments, kindsOf_use_append, kindsOf_cons, kindsOf_use_append, kindsOf_cons,
      kindsOf_cases]
    exact takes_readSwitch (huses.1.use_sound htypes.1) hcases
  | ret value? =>
    cases value? with
    | none => exact takes_readRet_void
    | some value =>
      simp only [Form.uses, Form.types, Option.toList_some, List.map_cons, List.map_nil,
        List.forall_mem_cons] at huses htypes
      apply takes_readRet (huses.1.use_sound htypes.1)
      by_contra h
      -- A value whose type starts with `void` is read as none, and then `asRead` is another form.
      rw [Form.asRead, if_pos (Bool.not_eq_false _ ▸ h)] at hvoid
      cases hvoid

/-- An instruction starts with the word of its opcode. -/
theorem takes_readInstr {ctx : Draft.Context} {opcode : Opcode} {ks : List TokenKind}
    {P : Draft.Instr → Prop} {F : TokenKind → Prop}
    (h : ∀ p, (Draft.readOperation ctx p opcode).Takes ks P F) :
    (Draft.readInstr ctx).Takes (.word opcode.mnemonic :: ks) P F := by
  have hall : ∀ op ∈ Opcode.all, ∀ w ∈ Draft.callMarkers, op.mnemonic ≠ w := by decide +kernel
  -- No mnemonic is among the markers of calls that may stand in front.
  have hmarkers := hall opcode opcode.mem_all
  rw [Draft.readInstr]
  refine Takes.skip takes_skipWords (fun _ _ w hw hword => ?_) fun _ _ => ?_
  · exact hmarkers w hw (TokenKind.word.inj hword)
  · refine .kind fun _ _ => ?_
    rw [List.headD_cons]
    dsimp only
    rw [Opcode.ofMnemonic?_mnemonic]
    exact .position fun p => Takes.cons .advance fun _ _ => h p

end Listing

end IrRecords
