import IrRecords.Function.Reader
import IrRecords.Proofs.Draft.Typing

/-!
# Drafts that have been read

A draft grows by one operation at a time: parameters when the header is read, then blocks and
statements. This module says what each operation does to the row of statements, and derives that
every statement of a draft that has been read is well-formed. The row is all that counts here, so
the operations are described by it: starting a block leaves it alone, and adding an instruction
puts one statement at its end, whether or not a block had to be started for it.
-/

namespace IrRecords.Draft

variable {d d' : Draft} {id? : Option Ident} {instr : Instr} {p : Position}

/-! ## Well-formed drafts -/

/-- A statement as its instruction asks for it: there is a result unless the instruction is a void
one, and then there is none. -/
structure Statement.WellFormed (s : Statement) : Prop where
  instr : s.instr.WellFormed
  result : s.result? = none ↔ s.instr.ty = .void

/-- A draft of well-formed statements. -/
def WellFormed (d : Draft) : Prop := ∀ s ∈ d.statements, s.WellFormed

/-! ## What the operations do -/

/-- An identifier that is given is kept. -/
theorem number_some {next next' : Nat} {what : Numbered} {given id : Ident}
    (h : number next what p (some given) = .ok (id, next')) : id = given := by
  cases given with
  | named name => cases h; rfl
  | slot n =>
    rw [number] at h
    split at h
    · cases h; rfl
    · cases h

/-- Starting a block adds an empty block and numbers it. -/
theorem startBlock_cases (h : d.startBlock id? p = .ok d') :
    ∃ id next, number d.nextSlot .label p id? = .ok (id, next)
      ∧ d' = { d with blocks := d.blocks.push ⟨id, p, #[]⟩, nextSlot := next } := by
  unfold startBlock at h
  cases hn : number d.nextSlot .label p id? with
  | error e => rw [hn] at h; cases h
  | ok r =>
    rw [hn] at h
    cases h
    exact ⟨r.1, r.2, rfl, rfl⟩

/-- Adds an instruction to the last block. -/
def placeInstr (d : Draft) (id? : Option Ident) (instr : Instr) (p : Position) :
    Except Diagnostic Draft :=
  if instr.ty = .void then
    match id? with
    | some id => .error ⟨p, .namedVoid id⟩
    | none => .ok (d.appendStatement ⟨none, instr, p⟩)
  else do
    let (id, next) ← number d.nextSlot .instruction p id?
    return { d.appendStatement ⟨some id, instr, p⟩ with nextSlot := next }

/-- An instruction is placed once there is a block for it. -/
theorem pushInstr_eq (d : Draft) (id? : Option Ident) (instr : Instr) (p : Position) :
    d.pushInstr id? instr p
      = (if d.needsBlock then d.startBlock none p else .ok d) >>= (·.placeInstr id? instr p) := by
  unfold pushInstr
  by_cases hneeds : d.needsBlock = true
  · rw [if_pos hneeds, if_pos hneeds]
    rfl
  · rw [if_neg hneeds, if_neg hneeds]
    rfl

/-- A void instruction is given no result and must not ask for one; any other takes the next number
or keeps its name. -/
theorem placeInstr_cases (h : d.placeInstr id? instr p = .ok d') :
    instr.ty = .void ∧ id? = none ∧ d' = d.appendStatement ⟨none, instr, p⟩
      ∨ instr.ty ≠ .void ∧ ∃ id next, number d.nextSlot .instruction p id? = .ok (id, next)
        ∧ d' = { d.appendStatement ⟨some id, instr, p⟩ with nextSlot := next } := by
  rw [placeInstr.eq_def] at h
  by_cases hvoid : instr.ty = .void
  · rw [if_pos hvoid] at h
    cases id? with
    | some id => cases h
    | none =>
      cases h
      exact .inl ⟨hvoid, rfl, rfl⟩
  · rw [if_neg hvoid] at h
    cases hn : number d.nextSlot .instruction p id? with
    | error e => rw [hn] at h; cases h
    | ok r =>
      rw [hn] at h
      cases h
      exact .inr ⟨hvoid, r.1, r.2, rfl, rfl⟩

/-- Adding an instruction starts a block where one is needed, and then places the instruction. -/
theorem pushInstr_cases (h : d.pushInstr id? instr p = .ok d') :
    ∃ d₁, (d.needsBlock = true ∧ d.startBlock none p = .ok d₁ ∨ d.needsBlock = false ∧ d₁ = d)
      ∧ d₁.placeInstr id? instr p = .ok d' := by
  rw [pushInstr_eq] at h
  by_cases hneeds : d.needsBlock = true
  · rw [if_pos hneeds] at h
    cases hstart : d.startBlock none p with
    | error e => rw [hstart] at h; cases h
    | ok d₁ =>
      rw [hstart] at h
      exact ⟨d₁, .inl ⟨hneeds, rfl⟩, h⟩
  · rw [if_neg hneeds] at h
    exact ⟨d, .inr ⟨Bool.eq_false_iff.mpr hneeds, rfl⟩, h⟩

/-- Only an empty draft and one whose last statement ends its block need another block. -/
theorem back?_of_needsBlock (h : d.needsBlock = false) : ∃ b, d.blocks.back? = some b := by
  unfold needsBlock at h
  cases hb : d.blocks.back? with
  | none => rw [hb] at h; cases h
  | some b => exact ⟨b, rfl⟩

/-! ## The row of statements -/

theorem statements_startBlock (h : d.startBlock id? p = .ok d') :
    d'.statements = d.statements := by
  obtain ⟨id, next, _, rfl⟩ := startBlock_cases h
  simp [statements]

/-- A statement that is added to the last block comes last in the row. -/
theorem statements_appendStatement {s : Statement} {b : Block} (hb : d.blocks.back? = some b) :
    (d.appendStatement s).statements = d.statements ++ [s] := by
  have hlast := hb
  rw [← Array.getLast?_toList, List.getLast?_eq_some_iff] at hlast
  obtain ⟨bs, hbs⟩ := hlast
  -- The last block is taken off and put back with one statement more.
  rw [appendStatement, hb]
  simp only [statements, Array.toList_push, Array.toList_pop, List.flatMap_append,
    List.flatMap_singleton]
  rw [hbs, List.dropLast_concat, List.flatMap_append, List.flatMap_singleton, List.append_assoc]

/-- Adding an instruction adds one statement, which has a result unless the instruction is void. A
result that is given is kept. -/
theorem statements_pushInstr (h : d.pushInstr id? instr p = .ok d') :
    ∃ result?, d'.statements = d.statements ++ [⟨result?, instr, p⟩]
      ∧ (result? = none ↔ instr.ty = .void) ∧ ∀ id, id? = some id → result? = some id := by
  obtain ⟨d₁, hblock, hpush⟩ := pushInstr_cases h
  -- Whether or not a block is started, there is a last one and the row is the same.
  have hopen : d₁.statements = d.statements ∧ ∃ b, d₁.blocks.back? = some b := by
    rcases hblock with ⟨_, hstart⟩ | ⟨hneeds, rfl⟩
    · refine ⟨statements_startBlock hstart, ?_⟩
      obtain ⟨id, next, _, rfl⟩ := startBlock_cases hstart
      exact ⟨_, Array.back?_push⟩
    · exact ⟨rfl, back?_of_needsBlock hneeds⟩
  obtain ⟨hsame, b, hb⟩ := hopen
  rcases placeInstr_cases hpush with ⟨hvoid, hnone, rfl⟩ | ⟨hvoid, id, next, hnumber, rfl⟩
  · refine ⟨none, by rw [statements_appendStatement hb, hsame], by simp [hvoid], fun id hid => ?_⟩
    rw [hnone] at hid
    cases hid
  · refine ⟨some id, ?_, by simp [hvoid], fun given hgiven => ?_⟩
    · rw [← hsame, ← statements_appendStatement hb]
      rfl
    · rw [hgiven] at hnumber
      rw [number_some hnumber]

/-- A draft starts without blocks. -/
theorem blocks_ofHeader {header : Header} (h : ofHeader header = .ok d) : d.blocks = #[] := by
  -- Parameters do not touch the blocks.
  have hparams : ∀ (ps : List (Ty × Option Ident × Position)) (d₀ d₁ : Draft),
      ps.foldlM pushParam d₀ = .ok d₁ → d₁.blocks = d₀.blocks := by
    intro ps
    induction ps with
    | nil => intro d₀ d₁ hd; cases hd; rfl
    | cons q ps ih =>
      intro d₀ d₁ hd
      rw [List.foldlM_cons] at hd
      cases hn : number d₀.nextSlot .argument q.2.2 q.2.1 with
      | error e => simp [pushParam, hn, Bind.bind, Except.bind] at hd
      | ok r =>
        simp only [pushParam, hn, Bind.bind, Except.bind, Pure.pure, Except.pure] at hd
        exact (ih _ d₁ hd).trans rfl
  exact hparams _ _ _ h

theorem statements_ofHeader {header : Header} (h : ofHeader header = .ok d) :
    d.statements = [] := by
  rw [statements, blocks_ofHeader h]
  rfl

/-! ## Reading -/

/-- What is added to a well-formed draft keeps it so. -/
theorem WellFormed.pushInstr (hd : d.WellFormed) (hi : instr.WellFormed)
    (h : d.pushInstr id? instr p = .ok d') : d'.WellFormed := by
  obtain ⟨result?, hrow, hresult, _⟩ := statements_pushInstr h
  intro s hs
  rw [hrow] at hs
  rcases List.mem_append.mp hs with hs | hs
  · exact hd s hs
  · rw [List.mem_singleton.mp hs]
    exact ⟨hi, hresult⟩

theorem WellFormed.startBlock (hd : d.WellFormed) (h : d.startBlock id? p = .ok d') :
    d'.WellFormed := by
  intro s hs
  rw [statements_startBlock h] at hs
  exact hd s hs

end IrRecords.Draft

namespace IrRecords.Function

open Reader Draft

theorem readStatement_spec (ctx : Context) {d : Draft} (hd : d.WellFormed) :
    (readStatement ctx d).Yields Draft.WellFormed := by
  rw [readStatement]
  refine .skip fun position => .skip fun result? => ?_
  refine (readInstr_spec ctx).bind fun instr hinstr => .skip fun _ => ?_
  exact .lift fun d' h => hd.pushInstr hinstr h

/-- One item of a body keeps a draft well-formed. -/
theorem readBodyItem_spec (ctx : Context) {d : Draft} (hd : d.WellFormed) :
    (readBodyItem ctx d).Yields (RoundSatisfies Draft.WellFormed Draft.WellFormed) := by
  have hstatement : Yields (do return .again (← readStatement ctx d) : Reader (Round Draft Draft))
      (RoundSatisfies Draft.WellFormed Draft.WellFormed) :=
    (readStatement_spec ctx hd).bind fun d' hd' => .pure hd'
  rw [readBodyItem]
  refine .skip fun kind => ?_
  cases kind
  case closer b =>
    cases b
    case curly => exact .skip fun _ => .pure hd
    all_goals exact hstatement
  case eof => exact .unexpected
  case label text =>
    refine .skip fun position => .skip fun _ => ?_
    exact Yields.bind (.lift fun d' h => hd.startBlock h) fun d' hd' => .pure hd'
  case hash name => exact .skip fun _ => .pure hd
  all_goals exact hstatement

/-- **A body that has been read is a well-formed draft, laid out.** -/
theorem readBody_spec (ctx : Context) (header : Header) :
    (readBody ctx header).Yields fun f => ∃ d : Draft, d.WellFormed ∧ d.finish = .ok f := by
  rw [readBody]
  refine .skip fun _ => .skip fun _ => ?_
  refine Yields.bind (P := Draft.WellFormed) (.lift fun d hd => ?_) fun d hd => ?_
  · intro s hs
    rw [statements_ofHeader hd] at hs
    cases hs
  · refine (Yields.iterate (fun d' hd' => readBodyItem_spec ctx hd') hd).bind fun d' hd' => ?_
    exact .lift fun f hf => ⟨d', hd', hf⟩

end IrRecords.Function
