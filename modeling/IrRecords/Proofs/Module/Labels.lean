import IrRecords.Proofs.Draft.Resolving
import IrRecords.Proofs.Function.Contents
import IrRecords.Proofs.Listing.Inversion
import IrRecords.Proofs.Token.Labels

/-!
# Labels and the branches to them

A function of blocks that do nothing but branch (`Jump`) is a place where all spellings of labels
meet all spellings of references. `read_jumpsText` tells which of these functions are read and what
they are read as: labels that declare slots have to declare the next ones, no two labels may declare
the same, and each branch has to refer to what some label declares, which is then the block that its
operand is. Whether a name and a label of the same spelling meet is thereby a question about the two
alone (`LabelText.declared_eq_referred_iff`).
-/

namespace IrRecords

/-! ## Texts -/

/-- A block that does nothing but branch. -/
structure Jump where
  label : LabelText
  target : LabelText
  deriving Repr, DecidableEq

namespace Jump

/-- The two lines of the block. -/
def text (j : Jump) : String := j.label.text ++ ":\n  br label %" ++ j.target.text ++ "\n"

/-- The lexer takes the label for a label and the target for a reference. -/
def Written (j : Jump) : Prop := j.label.IsLabel ∧ j.target.IsReference

instance (j : Jump) : Decidable j.Written := inferInstanceAs (Decidable (_ ∧ _))

/-- The kinds of the tokens of the branch. -/
def branchKinds (j : Jump) : List TokenKind :=
  [.word "br", .word "label", .localRef j.target.referred]

/-- The lines without their breaks, and the kinds of their tokens. -/
def rows (j : Jump) : List (List Char × List TokenKind) :=
  [(j.label.text.toList ++ [':'], [.label j.label.content]),
    ("  br label %".toList ++ j.target.text.toList, j.branchKinds)]

end Jump

/-- The function whose blocks are `js`. -/
def jumpsText (js : List Jump) : String :=
  "define void @f() \x7b\n" ++ String.join (js.map Jump.text) ++ "\x7d\n"

/-- The blocks `js` fit together: slots are declared in order, nothing is declared twice, and the
targets are declared. -/
structure JumpsFit (js : List Jump) : Prop where
  slots : js.filterMap (·.label.declared.slot?)
    = List.range (js.filterMap (·.label.declared.slot?)).length
  distinct : (js.map (·.label.declared)).Nodup
  targets : ∀ j ∈ js, j.target.referred ∈ js.map (·.label.declared)

instance (js : List Jump) : Decidable (JumpsFit js) :=
  decidable_of_iff (js.filterMap (·.label.declared.slot?)
      = List.range (js.filterMap (·.label.declared.slot?)).length
    ∧ (js.map (·.label.declared)).Nodup
    ∧ ∀ j ∈ js, j.target.referred ∈ js.map (·.label.declared))
    ⟨fun ⟨h₁, h₂, h₃⟩ => ⟨h₁, h₂, h₃⟩, fun ⟨h₁, h₂, h₃⟩ => ⟨h₁, h₂, h₃⟩⟩

/-- The blocks of the function are `js`: each has the name or the slot that its label declares, and
the operand of its branch is the label of the block that declares what the target refers to. -/
structure Function.Jumps (f : Function) (js : List Jump) : Prop where
  blocks : f.blocks.toList = js.mapIdx fun n j => ⟨j.label.declared.name, n, [n]⟩
  labels : ∀ (n : Nat) (j : Jump), js[n]? = some j →
    f.values[n]? = some ⟨j.label.declared.name, j.label.declared.slot?, .label, .block n⟩
  branches : ∀ (n : Nat) (j : Jump), js[n]? = some j → ∃ (k : Nat) (t : Jump), js[k]? = some t
    ∧ t.label.declared = j.target.referred ∧ f.instrs[n]? = some ⟨js.length + n, .br, [k], .plain⟩

open Token

/-! ## Cutting -/

/-- The line in front of the blocks is that of a listing without parameters. -/
def jumpsHeader : Listing := ⟨"f", .void, false, [], []⟩

theorem jumpsHeader_wellFormed : jumpsHeader.WellFormed := by decide

theorem header_jumpsHeader : jumpsHeader.header = "define void @f() \x7b" := by decide +kernel

theorem Jump.cuts_rows {j : Jump} (hj : j.Written) : ∀ row ∈ j.rows, Cuts row.1 row.2 := by
  have hbranch : Cuts ("  br label %".toList ++ j.target.text.toList) j.branchKinds := by
    have hbr : Cuts "br".toList [.word "br"] := .word (by decide)
    have hlabel : Cuts "label".toList [.word "label"] := .word (by decide)
    exact (Ty.cuts_spaced hbr (Ty.cuts_spaced hlabel (.reference hj.2))).blank.blank
  rw [Jump.rows, List.forall_mem_cons, List.forall_mem_singleton]
  exact ⟨.labelText hj.1, hbranch⟩

/-- The tokens behind the header. -/
def jumpsMarks (n : Nat) (js : List Jump) : List Mark :=
  Listing.lineMarks n (js.flatMap fun j => j.rows.map (·.2))

theorem cut_jumpsText {js : List Jump} (h : ∀ j ∈ js, j.Written) :
    Cut .start (jumpsText js).toList
      (jumpsHeader.headerKinds.map (⟨·, 1⟩) ++ jumpsMarks 2 js) := by
  have hheader := Listing.cuts_header jumpsHeader_wellFormed
  have hnext : ((Position.start.after jumpsHeader.header.toList).next '\n').line = 2 := by
    rw [Position.next, if_pos rfl, line_after hheader.flat]
    rfl
  have hcuts : ∀ row ∈ js.flatMap Jump.rows, Cuts row.1 row.2 := by
    intro row hrow
    obtain ⟨j, hj, hrow⟩ := List.mem_flatMap.mp hrow
    exact Jump.cuts_rows (h j hj) row hrow
  have hrows := Listing.cut_rows hcuts ((Position.start.after jumpsHeader.header.toList).next '\n')
  rw [hnext] at hrows
  have hall := hheader.cut .start _ _ (delimited_cons (by decide)) (.newline hrows)
  have htext : (jumpsText js).toList = jumpsHeader.header.toList ++ '\n' ::
      ((js.flatMap Jump.rows).flatMap (fun row => row.1 ++ ['\n']) ++ ['\x7d', '\n']) := by
    have hjumps : (String.join (js.map Jump.text)).toList
        = (js.flatMap Jump.rows).flatMap fun row => row.1 ++ ['\n'] := by
      simp [String.toList_join, List.flatMap_map, List.flatMap_assoc, Jump.text, Jump.rows]
    have hline : "define void @f() \x7b\n".toList = jumpsHeader.header.toList ++ ['\n'] := by
      rw [header_jumpsHeader]
      decide
    have hbrace : "\x7d\n".toList = ['\x7d', '\n'] := by decide
    unfold jumpsText
    rw [String.toList_append, String.toList_append, hline, hjumps, hbrace, List.append_assoc,
      List.append_assoc, List.singleton_append]
  rw [htext]
  rwa [jumpsMarks, ← List.map_flatMap]

/-! ## Reading blocks -/

open Reader

/-- The branch of a block as it is read, `p` being where its target stands and `q` where it starts. -/
def Jump.statement (j : Jump) (p q : Position) : Draft.Statement :=
  ⟨none, .plain .br .void [.reference j.target.referred .label p], q⟩

/-- A block, and what it is read as. -/
def Jump.ReadAs (j : Jump) (b : Draft.Block) : Prop :=
  b.id = j.label.declared ∧ ∃ p q, b.statements = #[j.statement p q]

theorem takes_readBr_reference {id : Ident} {F : TokenKind → Prop} :
    Draft.readBr.Takes [.word "label", .localRef id]
      (fun i => ∃ p, i = .plain .br .void [.reference id .label p]) F := by
  have hoperand : (Draft.readOperand .label).Takes [.localRef id]
      (fun o => ∃ p, o = .reference id .label p) fun _ => True := by
    rw [Draft.readOperand, if_neg (by simp)]
    exact .position fun p => .kind fun _ _ => Takes.cons .advance fun _ _ => .pure ⟨p, rfl⟩
  have htyped : Draft.readTypedOperand.Takes (Ty.label.kinds ++ [.localRef id])
      (fun r => r.1 = .label ∧ ∃ p, r.2 = .reference id .label p) fun _ => True := by
    rw [Draft.readTypedOperand]
    refine Takes.bind (Ty.takes_read rfl) (fun _ _ => by simp [Ty.EndsType]) ?_
    rintro _ rfl
    exact hoperand.last (fun _ _ => trivial) fun o ho => .pure ⟨rfl, ho⟩
  rw [Draft.readBr]
  apply Takes.last htyped (fun _ _ => trivial)
  rintro ⟨_, _⟩ ⟨rfl, p, rfl⟩
  exact .pure ⟨p, rfl⟩

theorem takes_readStart_branch (ctx : Draft.Context) (j : Jump) :
    (Listing.readStart ctx).Takes j.branchKinds
      (fun r => ∃ p, ∀ q, (⟨r.1, r.2, q⟩ : Draft.Statement) = j.statement p q) fun _ => True := by
  have hbr : ∀ q, (Draft.readOperation ctx q .br).Takes [.word "label", .localRef j.target.referred]
      (fun i => ∃ p, i = .plain .br .void [.reference j.target.referred .label p])
      fun _ => True := fun _ => takes_readBr_reference
  have hinstr := Listing.takes_readInstr hbr
  rw [Listing.readStart]
  refine Takes.skip (Listing.takes_readResult? none) (fun _ _ => ⟨"br", rfl⟩) ?_
  rintro _ rfl
  apply hinstr.last (fun _ h => h)
  rintro _ ⟨p, rfl⟩
  exact .pure ⟨p, fun _ => rfl⟩

section

variable {ctx : Draft.Context} {d : Draft} {c : Cursor} {j : Jump} {n : Nat} {m : Mark}
  {ms : List Mark}

/-- A label starts a block. -/
theorem readBodyItem_label (hc : c.Sees (⟨.label j.label.content, n⟩ :: ms)) :
    Function.readBodyItem ctx d c = (d.startBlock (some j.label.declared) c.current.start).map
      fun d₁ => (.again d₁, c.advance) := by
  obtain ⟨t, _, hcurrent, ht, _⟩ := hc.uncons
  have hkind : Reader.kind c = .ok (.label j.label.content, c) := by
    rw [Reader.kind, hcurrent, ht.kind]
  rw [Function.readBodyItem, bind_of_ok hkind]
  dsimp only
  rw [bind_of_ok (r := Reader.position) rfl, bind_of_ok (r := Reader.advance) rfl]
  rw [LabelText.declared]
  cases d.startBlock (some (.ofLabel j.label.content)) c.current.start <;> rfl

/-- A branch is added to the block that was started last. -/
theorem readBodyItem_branch (ctx : Draft.Context) (hc : c.Sees (j.branchKinds.map (⟨·, n⟩) ++ m :: ms))
    (hm : m.line ≠ n) {b : Draft.Block} (hback : d.blocks.back? = some b)
    (hempty : b.statements = #[]) :
    ∃ p q, Function.readBodyItem ctx d c
      = .ok (.again (d.appendStatement (j.statement p q)), c.past j.branchKinds.length) := by
  obtain ⟨hthis, hnext⟩ := hc.split
  obtain ⟨t, _, hcurrent, ht, _⟩ := Cursor.Sees.uncons hthis
  have hkind : Reader.kind c = .ok (.word "br", c) := by
    rw [Reader.kind, hcurrent, ht.kind]
  obtain ⟨r, hr, p, hp⟩ :=
    takes_readStart_branch ctx j c _ (Listing.map_kind_line j.branchKinds n) hthis trivial
  -- The branch is all of its line, so nothing is left to be skipped.
  have hskip : (c.past j.branchKinds.length).skipRestOfLine = c.past j.branchKinds.length := by
    have hrow : c.Sees ((j.branchKinds ++ []).map (⟨·, n⟩) ++ m :: ms) := by
      rwa [List.append_nil]
    have hline := Cursor.skipRestOfLine_past hrow (List.cons_ne_nil _ _) hm
    rwa [List.append_nil] at hline
  have hpush : d.pushInstr r.1 r.2 c.current.start
      = .ok (d.appendStatement (j.statement p c.current.start)) := by
    obtain ⟨hresult, hinstr, _⟩ := Draft.Statement.mk.inj (hp c.current.start)
    rw [hresult, hinstr, Draft.pushInstr_eq, Draft.needsBlock, hback]
    simp only [hempty]
    rfl
  refine ⟨p, c.current.start, ?_⟩
  have hstatement : Function.readStatement ctx d c
      = .ok (d.appendStatement (j.statement p c.current.start), c.past j.branchKinds.length) := by
    rw [Listing.readStatement_eq, bind_of_ok (r := Reader.position) rfl, bind_of_ok hr,
      bind_of_ok (r := Reader.skipRestOfLine) (congrArg (fun c' => Except.ok ((), c')) hskip),
      hpush]
    rfl
  rw [Function.readBodyItem, bind_of_ok hkind]
  dsimp only
  rw [bind_of_ok hstatement]
  rfl

end

/-! ## Reading bodies -/

/-- The slots that the labels declare. -/
def jumpSlots (js : List Jump) : List Nat := js.filterMap (·.label.declared.slot?)

/-- The numbers are those from `next` on. -/
def CountsFrom (next : Nat) (ns : List Nat) : Prop := ns = List.range' next ns.length

theorem countsFrom_append {next : Nat} {ms ns : List Nat} :
    CountsFrom next (ms ++ ns) ↔ CountsFrom next ms ∧ CountsFrom (next + ms.length) ns := by
  rw [CountsFrom, CountsFrom, CountsFrom, List.length_append, ← List.range'_append_1]
  refine ⟨fun h => List.append_inj h (by simp), fun ⟨hms, hns⟩ => ?_⟩
  rw [← hms, ← hns]

theorem jumpSlots_cons (j : Jump) (js : List Jump) :
    jumpSlots (j :: js) = j.label.declared.slot?.toList ++ jumpSlots js := by
  rw [jumpSlots, List.filterMap_cons]
  cases j.label.declared.slot? <;> rfl

/-- A label is numbered exactly if it declares no slot but the next one. -/
theorem number_eq_ok_iff {next : Nat} {what : Numbered} {p : Position} {id : Ident}
    {r : Ident × Nat} : Draft.number next what p (some id) = .ok r
      ↔ CountsFrom next id.slot?.toList ∧ r = (id, next + id.slot?.toList.length) := by
  cases id with
  | named name => exact ⟨fun h => ⟨rfl, (Except.ok.inj h).symm⟩, fun h => h.2 ▸ rfl⟩
  | slot n =>
    rw [Draft.number, CountsFrom]
    by_cases hn : n = next
    · subst hn
      rw [if_pos rfl]
      exact ⟨fun h => ⟨rfl, (Except.ok.inj h).symm⟩, fun h => h.2 ▸ rfl⟩
    · rw [if_neg hn]
      exact iff_of_false (fun h => by cases h) fun h => hn (List.cons.inj h.1).1

/-- The draft `d` with a block more. -/
def Draft.withBlock (d : Draft) (b : Draft.Block) : Draft :=
  { d with blocks := d.blocks.push b, nextSlot := d.nextSlot + b.id.slot?.toList.length }

section

variable {ctx : Draft.Context} {d : Draft} {c : Cursor} {n : Nat}

theorem startBlock_eq_ok_iff {id : Ident} {p : Position} {d₁ : Draft} :
    d.startBlock (some id) p = .ok d₁
      ↔ CountsFrom d.nextSlot id.slot?.toList ∧ d₁ = d.withBlock ⟨id, p, #[]⟩ := by
  rw [Draft.startBlock]
  cases hnumber : Draft.number d.nextSlot .label p (some id) with
  | error e =>
    refine ⟨fun h => (nomatch h), fun ⟨hslot, _⟩ => ?_⟩
    rw [number_eq_ok_iff.mpr ⟨hslot, rfl⟩] at hnumber
    cases hnumber
  | ok r =>
    obtain ⟨hslot, rfl⟩ := number_eq_ok_iff.mp hnumber
    exact ⟨fun h => ⟨hslot, (Except.ok.inj h).symm⟩, fun ⟨_, h⟩ => h ▸ rfl⟩

theorem jumpsMarks_cons (n : Nat) (j : Jump) (js : List Jump) : jumpsMarks n (j :: js)
    = ⟨.label j.label.content, n⟩ :: (j.branchKinds.map (⟨·, n + 1⟩) ++ jumpsMarks (n + 2) js) :=
  rfl

/-- No token behind the header marks the definition of a struct. -/
theorem jumpsMarks_ne_type (n : Nat) (js : List Jump) :
    ∀ m ∈ jumpsMarks n js, m.kind ≠ .word "type" := by
  induction js generalizing n with
  | nil => exact List.forall_mem_singleton.mpr (by simp)
  | cons j js ih =>
    rw [jumpsMarks_cons, List.forall_mem_cons, List.forall_mem_append, List.forall_mem_map]
    exact ⟨by simp, by simp [Jump.branchKinds], ih (n + 2)⟩

/-- What is behind a block is on another line. -/
theorem exists_jumpsMarks (n : Nat) (js : List Jump) :
    ∃ m ms, jumpsMarks (n + 1) js = m :: ms ∧ m.line ≠ n := by
  cases js with
  | nil => exact ⟨_, _, rfl, Nat.succ_ne_self n⟩
  | cons j js => exact ⟨_, _, rfl, Nat.succ_ne_self n⟩

/-- The two rounds that a block takes. -/
theorem readBodyItem_block (ctx : Draft.Context) (d : Draft) {j : Jump} {js : List Jump}
    (hc : c.Sees (jumpsMarks n (j :: js))) :
    ∃ b, j.ReadAs b
      ∧ (∀ d₁, d.startBlock (some j.label.declared) c.current.start = .ok d₁ →
        Function.readBodyItem ctx d c = .ok (.again d₁, c.advance)
          ∧ Function.readBodyItem ctx d₁ c.advance
            = .ok (.again (d.withBlock b), c.advance.past j.branchKinds.length))
      ∧ (c.advance.past j.branchKinds.length).Sees (jumpsMarks (n + 2) js)
      ∧ c.advance.remaining < c.remaining
      ∧ (c.advance.past j.branchKinds.length).remaining < c.advance.remaining := by
  rw [jumpsMarks_cons] at hc
  obtain ⟨_, hrest, _, _, _, hbranch⟩ := hc.uncons
  obtain ⟨m, ms, hms, hm⟩ := exists_jumpsMarks (n + 1) js
  have hhere := hbranch
  rw [hms] at hhere
  have hback : (d.withBlock ⟨j.label.declared, c.current.start, #[]⟩).blocks.back?
      = some ⟨j.label.declared, c.current.start, #[]⟩ := by
    simp [Draft.withBlock]
  -- The branch is read on the draft that the label has left, whose last block is empty.
  obtain ⟨p, q, hitem⟩ := readBodyItem_branch ctx hhere hm hback rfl
  refine ⟨⟨j.label.declared, c.current.start, #[j.statement p q]⟩, ⟨rfl, p, q, rfl⟩, ?_, ?_, ?_, ?_⟩
  · intro d₁ hstart
    rw [readBodyItem_label hc, hstart]
    obtain ⟨_, rfl⟩ := startBlock_eq_ok_iff.mp hstart
    refine ⟨rfl, ?_⟩
    rw [hitem]
    simp [Draft.appendStatement, Draft.withBlock]
  · have hnext := hbranch.split.2
    rwa [List.length_map] at hnext
  · rw [Cursor.remaining, Cursor.remaining, hrest]
    exact Nat.lt_succ_self _
  · have hlength := hbranch.split.1.remaining
    rw [List.length_map] at hlength
    have hpos : 0 < j.branchKinds.length := Nat.succ_pos _
    omega

/-- **Blocks whose slots are in order are read.** -/
theorem iterate_jumps (ctx : Draft.Context) {js : List Jump} (hslots : CountsFrom d.nextSlot (jumpSlots js))
    (hc : c.Sees (jumpsMarks n js)) :
    ∃ bs, List.Forall₂ Jump.ReadAs js bs
      ∧ iterate (Function.readBodyItem ctx) d c
        = .ok (bs.foldl Draft.withBlock d, c.past (jumpsMarks n js).length) := by
  induction js generalizing d c n with
  | nil =>
    obtain ⟨t, _, hcurrent, ht, _⟩ := Cursor.Sees.uncons hc
    have hkind : Reader.kind c = .ok (.closer .curly, c) := by rw [Reader.kind, hcurrent, ht.kind]
    refine ⟨[], .nil, iterate_done ?_⟩
    rw [Function.readBodyItem, bind_of_ok hkind]
    rfl
  | cons j js ih =>
    rw [jumpSlots_cons, countsFrom_append] at hslots
    obtain ⟨b, hb, hrounds, hnext, hlt, hlt'⟩ := readBodyItem_block ctx d hc
    obtain ⟨hfirst, hsecond⟩ := hrounds _ (startBlock_eq_ok_iff.mpr ⟨hslots.1, rfl⟩)
    have hslot : (d.withBlock b).nextSlot
        = d.nextSlot + j.label.declared.slot?.toList.length := by rw [← hb.1]; rfl
    obtain ⟨bs, hbs, hrest⟩ := ih (hslot ▸ hslots.2) hnext
    refine ⟨b :: bs, .cons hb hbs, ?_⟩
    rw [jumpsMarks_cons, List.length_cons, List.length_append, List.length_map, Cursor.past,
      Cursor.past_add]
    -- A block takes two rounds, one for its label and one for its branch.
    exact iterate_again hfirst hlt (iterate_again hsecond hlt' hrest)

/-- Blocks are read only if their slots are in order. -/
theorem countsFrom_of_iterateFor {js : List Jump} {bound : List Token} {r : Draft × Cursor}
    (hc : c.Sees (jumpsMarks n js)) (h : iterateFor (Function.readBodyItem ctx) bound d c = .ok r) :
    CountsFrom d.nextSlot (jumpSlots js) := by
  induction js generalizing bound d c n with
  | nil => rfl
  | cons j js ih =>
    obtain ⟨b, hb, hrounds, hnext, _, _⟩ := readBodyItem_block ctx d hc
    -- The label of a block takes one round and its branch another: the slot of the label is checked by
    -- the first, and the block is in the draft after the second.
    obtain ⟨bound, d₁, hstart, h⟩ : ∃ bound d₁,
        d.startBlock (some j.label.declared) c.current.start = .ok d₁
          ∧ iterateFor (Function.readBodyItem ctx) bound d₁ c.advance = .ok r := by
      rw [jumpsMarks_cons] at hc
      cases bound with
      | nil => cases h
      | cons t bound =>
        rw [iterateFor] at h
        obtain ⟨round, c₁, hround, h⟩ := bind_eq_ok_iff.mp h
        rw [readBodyItem_label hc] at hround
        cases hstart : d.startBlock (some j.label.declared) c.current.start with
        | error e => rw [hstart] at hround; cases hround
        | ok d₁ =>
          rw [hstart] at hround
          cases hround
          exact ⟨bound, d₁, rfl, h⟩
    have hslot : (d.withBlock b).nextSlot
        = d.nextSlot + j.label.declared.slot?.toList.length := by rw [← hb.1]; rfl
    rw [jumpSlots_cons, countsFrom_append, ← hslot]
    refine ⟨(startBlock_eq_ok_iff.mp hstart).1, ?_⟩
    cases bound with
    | nil => cases h
    | cons t bound =>
      rw [iterateFor, bind_of_ok (hrounds d₁ hstart).2] at h
      exact ih hnext h

end

/-! ## Laying out -/

/-- A draft of a function without parameters, whose blocks are `js`. -/
structure Draft.HasJumps (d : Draft) (js : List Jump) : Prop where
  params : d.params = #[]
  blocks : List.Forall₂ Jump.ReadAs js d.blocks.toList

namespace Draft.HasJumps

variable {d : Draft} {js : List Jump}

theorem ids_blocks (h : d.HasJumps js) : d.blocks.toList.map (·.id) = js.map (·.label.declared) := by
  have hall : ∀ {js : List Jump} {bs : List Draft.Block}, List.Forall₂ Jump.ReadAs js bs →
      bs.map (·.id) = js.map (·.label.declared) := by
    intro js bs hbs
    induction hbs with
    | nil => rfl
    | cons hb _ ih => rw [List.map_cons, List.map_cons, hb.1, ih]
  exact hall h.blocks

/-- A label is defined at the place of its block. -/
theorem definitions_getElem? (h : d.HasJumps js) {n : Nat} {j : Jump} (hj : js[n]? = some j) :
    ∃ p, d.definitions[n]? = some ⟨some j.label.declared, .label, .block n, p⟩ := by
  have hids : (d.blocks.toList.map (·.id))[n]? = some j.label.declared := by
    rw [h.ids_blocks, List.getElem?_map, hj]
    rfl
  rw [List.getElem?_map, Array.getElem?_toList, Option.map_eq_some_iff] at hids
  obtain ⟨b, hb, hid⟩ := hids
  have hplace := definitions_getElem?_label hb
  rw [h.params, Array.size_empty, Nat.zero_add, hid] at hplace
  exact ⟨b.position, hplace⟩

/-- Each block has its branch and no other statement. -/
theorem statements (h : d.HasJumps js) :
    List.Forall₂ (fun j s => ∃ p q, s = Jump.statement j p q) js d.statements := by
  have hall : ∀ {js : List Jump} {bs : List Draft.Block}, List.Forall₂ Jump.ReadAs js bs →
      List.Forall₂ (fun j s => ∃ p q, s = Jump.statement j p q) js
        (bs.flatMap (·.statements.toList)) := by
    intro js bs hbs
    induction hbs with
    | nil => exact .nil
    | cons hb _ ih =>
      obtain ⟨_, p, q, hstatements⟩ := hb
      rw [List.flatMap_cons, hstatements]
      exact .cons ⟨p, q, rfl⟩ ih
  exact hall h.blocks

/-- Only labels are defined. -/
theorem entries (h : d.HasJumps js) : d.entries = js.map fun j => (j.label.declared, .label) := by
  have hresults : (d.statements.filterMap fun s => s.result?.map (·, s.instr.ty)) = [] := by
    rw [List.filterMap_eq_nil_iff]
    intro s hs
    obtain ⟨j, _, p, q, rfl⟩ := exists_left_of_forall₂ h.statements hs
    rfl
  have hlabels : d.blocks.toList.map (fun b => (b.id, Ty.label))
      = js.map fun j => (j.label.declared, .label) := by
    have hids := congrArg (List.map (·, Ty.label)) h.ids_blocks
    rwa [List.map_map, List.map_map] at hids
  rw [Draft.entries, h.params, hresults, hlabels, List.append_nil]
  rfl

/-- What has an identifier is a label. -/
theorem exists_label (h : d.HasJumps js) {n : Nat} {x : Definition} {id : Ident}
    (hx : d.definitions[n]? = some x) (hid : x.id? = some id) :
    ∃ j, js[n]? = some j ∧ j.label.declared = id := by
  have hsize : d.blocks.size = js.length := by rw [← Array.length_toList, ← h.blocks.length_eq]
  by_cases hn : n < js.length
  · obtain ⟨p, hplace⟩ := h.definitions_getElem? (List.getElem?_eq_getElem hn)
    rw [hx, Option.some.injEq] at hplace
    subst hplace
    exact ⟨js[n], List.getElem?_eq_getElem hn, Option.some.inj hid⟩
  · -- Behind the labels there are the branches, which have no results.
    have hlt := (List.getElem?_eq_some_iff.mp hx).1
    rw [length_definitions, h.params, hsize, Array.size_empty, Nat.zero_add] at hlt
    have hm : n - js.length < d.statements.length := by omega
    have hplace := definitions_getElem?_result (List.getElem?_eq_getElem hm)
    have hplus : js.length + (n - js.length) = n := by omega
    rw [h.params, hsize, Array.size_empty, Nat.zero_add, hplus, hx, Option.some.injEq] at hplace
    obtain ⟨_, _, p, q, hs⟩ := exists_left_of_forall₂ h.statements (List.getElem_mem hm)
    rw [hplace, hs] at hid
    cases hid

/-- Such a draft is resolvable if labels are distinct and targets are labels. -/
theorem resolvable_iff (h : d.HasJumps js) : d.Resolvable
    ↔ (js.map (·.label.declared)).Nodup
      ∧ ∀ j ∈ js, j.target.referred ∈ js.map (·.label.declared) := by
  have hdistinct : (d.entries.map (·.1)) = js.map (·.label.declared) := by
    rw [h.entries, List.map_map]
    rfl
  have hmem : ∀ {id ty}, (id, ty) ∈ d.entries ↔ ty = .label ∧ id ∈ js.map (·.label.declared) := by
    intro id ty
    rw [h.entries, List.mem_map, List.mem_map]
    exact ⟨fun ⟨j, hj, heq⟩ => by cases heq; exact ⟨rfl, j, hj, rfl⟩,
      fun ⟨hty, j, hj, hid⟩ => ⟨j, hj, by rw [hty, hid]⟩⟩
  refine ⟨fun hr => ⟨hdistinct ▸ hr.distinct, fun j hj => ?_⟩, fun ⟨hnodup, htargets⟩ => ?_⟩
  · obtain ⟨s, hs, p, q, rfl⟩ := exists_right_of_forall₂ h.statements hj
    exact (hmem.mp (hr.references _ hs _ _ _ List.mem_cons_self)).2
  · refine ⟨hdistinct ▸ hnodup, fun s hs id ty p' ho => ?_, fun s hs incoming hphi => ?_⟩
    · obtain ⟨j, hj, p, q, rfl⟩ := exists_left_of_forall₂ h.statements hs
      cases List.mem_singleton.mp ho
      exact hmem.mpr ⟨rfl, htargets j hj⟩
    · obtain ⟨j, hj, p, q, rfl⟩ := exists_left_of_forall₂ h.statements hs
      cases hphi

end Draft.HasJumps

/-- Blocks of one statement each, laid out. -/
theorem layBlocks_jumps {js : List Jump} {bs : List Draft.Block}
    (h : List.Forall₂ Jump.ReadAs js bs) (label instr : Nat) :
    Draft.layBlocks label instr bs
      = js.mapIdx fun n j => ⟨j.label.declared.name, label + n, [instr + n]⟩ := by
  induction h generalizing label instr with
  | nil => rfl
  | @cons j b js bs hb _ ih =>
    obtain ⟨hid, p, q, hstatements⟩ := hb
    rw [Draft.layBlocks, List.mapIdx_cons, ih, hid, hstatements]
    simp [Nat.add_assoc, Nat.add_comm 1]

/-- **What such a draft is laid out as.** -/
theorem Draft.HasJumps.jumps {d : Draft} {js : List Jump} {f : Function} (h : d.HasJumps js)
    (hf : Draft.LaidOut d f) : f.Jumps js where
  blocks := by
    rw [hf.blocks, h.params, layBlocks_jumps h.blocks]
    simp
  labels n j hj := by
    obtain ⟨p, hplace⟩ := h.definitions_getElem? hj
    exact hf.value_of_definition hplace
  branches n j hj := by
    obtain ⟨s, hs, p, q, rfl⟩ := exists_getElem?_of_forall₂ h.statements.flip hj
    obtain ⟨i, hi, hdescribes⟩ := exists_getElem?_of_forall₂ hf.instrs.flip hs
    have hresult : i.result = js.length + n := by
      have hrow : (f.instrs.toList.map (·.result))[n]? = some i.result := by
        rw [List.getElem?_map, hi]
        rfl
      have hsize : d.blocks.size = js.length := by
        rw [← Array.length_toList, ← h.blocks.length_eq]
      have hlt : n < d.statements.length := (List.getElem?_eq_some_iff.mp hs).1
      rw [hf.results, List.getElem?_range' hlt, Option.some.injEq, h.params, hsize] at hrow
      simpa using hrow.symm
    have hopcode : i.opcode = .br := hdescribes.opcode
    have hdetail : i.detail = .plain := (Except.ok.inj hdescribes.detail).symm
    -- The operand leads to the definition of the target, and only labels are defined.
    have hoperands := hdescribes.operands
    cases hplaces : i.operands with
    | nil => rw [hplaces] at hoperands; cases hoperands
    | cons k rest =>
      rw [hplaces] at hoperands
      cases hoperands with
      | cons hresolves hrest =>
        cases hrest
        cases hresolves with
        | @reference _ _ _ _ x hplace hid hty =>
          obtain ⟨t, ht, hdeclared⟩ := h.exists_label hplace hid
          refine ⟨k, t, ht, hdeclared, ?_⟩
          rw [← Array.getElem?_toList, hi, ← hresult, ← hopcode, ← hdetail, ← hplaces]

/-! ## Modules -/

section

variable {js : List Jump} {ctx : Draft.Context} {c : Cursor}

/-- The numbers of a row that counts are those below its length. -/
theorem countsFrom_zero {ns : List Nat} : CountsFrom 0 ns ↔ ns = List.range ns.length := by
  rw [CountsFrom, List.range_eq_range']

/-- The draft of a function without parameters. -/
theorem ofHeader_jumps {h : Draft.Header} (hread : jumpsHeader.HeaderReadAs h) :
    Draft.ofHeader h = .ok ⟨h.name, h.ret, h.vararg, #[], #[], 0⟩ := by
  have hparams : h.params = [] := List.forall₂_nil_left_iff.mp hread.params
  rw [Draft.ofHeader, hparams]
  rfl

theorem hasJumps_foldl {bs : List Draft.Block} (hbs : List.Forall₂ Jump.ReadAs js bs) {d : Draft}
    (hparams : d.params = #[]) (hblocks : d.blocks = #[]) :
    (bs.foldl Draft.withBlock d).HasJumps js := by
  have hall : ∀ (bs : List Draft.Block) (d : Draft), (bs.foldl Draft.withBlock d).params = d.params
      ∧ (bs.foldl Draft.withBlock d).blocks.toList = d.blocks.toList ++ bs := by
    intro bs
    induction bs with
    | nil => exact fun d => ⟨rfl, (List.append_nil _).symm⟩
    | cons b bs ih =>
      intro d
      obtain ⟨hparams, hblocks⟩ := ih (d.withBlock b)
      rw [List.foldl_cons, hparams, hblocks]
      exact ⟨rfl, by simp [Draft.withBlock]⟩
  obtain ⟨h₁, h₂⟩ := hall bs d
  refine ⟨h₁.trans hparams, ?_⟩
  rw [h₂, hblocks]
  exact hbs

/-- The blocks are read as a function of these blocks, if they fit. -/
theorem readBody_jumps {h : Draft.Header} (hread : jumpsHeader.HeaderReadAs h)
    (hc : c.Sees (⟨.opener .curly, 1⟩ :: jumpsMarks 2 js)) (hfit : JumpsFit js) :
    ∃ f, Function.readBody ctx h c = .ok (f, c.past (jumpsMarks 2 js).length.succ)
      ∧ f.Jumps js := by
  obtain ⟨_, _, _, _, _, hrows⟩ := hc.uncons
  obtain ⟨bs, hbs, hloop⟩ :=
    iterate_jumps ctx (d := ⟨h.name, h.ret, h.vararg, #[], #[], 0⟩)
      (countsFrom_zero.mpr hfit.slots) hrows
  have hd := hasJumps_foldl hbs (d := ⟨h.name, h.ret, h.vararg, #[], #[], 0⟩) rfl rfl
  obtain ⟨f, hf⟩ :=
    Draft.exists_finish_iff.mpr (hd.resolvable_iff.mpr ⟨hfit.distinct, hfit.targets⟩)
  refine ⟨f, ?_, hd.jumps (Draft.finish_spec hf)⟩
  rw [Listing.readBody_opened ctx (ofHeader_jumps hread) hc, bind_of_ok hloop, hf]
  rfl

/-- Only blocks that fit are read. -/
theorem jumpsFit_of_readBody {h : Draft.Header} (hread : jumpsHeader.HeaderReadAs h)
    (hc : c.Sees (⟨.opener .curly, 1⟩ :: jumpsMarks 2 js)) {r : Function × Cursor}
    (hr : Function.readBody ctx h c = .ok r) : JumpsFit js := by
  obtain ⟨_, _, _, _, _, hrows⟩ := hc.uncons
  rw [Listing.readBody_opened ctx (ofHeader_jumps hread) hc] at hr
  obtain ⟨f, c'⟩ := r
  obtain ⟨d, c₁, hloop, hfinish⟩ := bind_eq_ok_iff.mp hr
  have hslots : CountsFrom 0 (jumpSlots js) := countsFrom_of_iterateFor hrows hloop
  obtain ⟨bs, hbs, hloop'⟩ :=
    iterate_jumps ctx (d := ⟨h.name, h.ret, h.vararg, #[], #[], 0⟩) hslots hrows
  rw [hloop', Except.ok.injEq, Prod.mk.injEq] at hloop
  obtain ⟨rfl, rfl⟩ := hloop
  have hd := hasJumps_foldl hbs (d := ⟨h.name, h.ret, h.vararg, #[], #[], 0⟩) rfl rfl
  obtain ⟨f, hf⟩ : ∃ f, (bs.foldl Draft.withBlock
      ⟨h.name, h.ret, h.vararg, #[], #[], 0⟩).finish = .ok f := by
    cases hf : (bs.foldl Draft.withBlock ⟨h.name, h.ret, h.vararg, #[], #[], 0⟩).finish with
    | error e => rw [hf] at hfinish; cases hfinish
    | ok f => exact ⟨f, rfl⟩
  obtain ⟨hdistinct, htargets⟩ := hd.resolvable_iff.mp (Draft.exists_finish_iff.mp ⟨f, hf⟩)
  exact ⟨countsFrom_zero.mp hslots, hdistinct, htargets⟩

end

/-- **Labels and the branches to them are read exactly if they fit**, and what they are read as is
told by what labels declare and references refer to. -/
theorem read_jumpsText {js : List Jump} (h : ∀ j ∈ js, j.Written) :
    ((∃ m, (Module.read (jumpsText js)).result = .ok m) ↔ JumpsFit js)
      ∧ ∀ m, (Module.read (jumpsText js)).result = .ok m →
        ∃ f, m.functions = [f] ∧ f.Jumps js := by
  obtain ⟨ctx, header, c, hheader, hc, hbody, hread⟩ :=
    Listing.read_definition jumpsHeader_wellFormed (cut_jumpsText h) (jumpsMarks_ne_type 2 js)
  have hfits : (∃ m, (Module.read (jumpsText js)).result = .ok m) → JumpsFit js := by
    intro hm
    obtain ⟨r, hr⟩ := hbody hm
    exact jumpsFit_of_readBody hheader hc hr
  have hreads : JumpsFit js →
      ∃ m f, (Module.read (jumpsText js)).result = .ok m ∧ m.functions = [f] ∧ f.Jumps js := by
    intro hfit
    obtain ⟨f, hf, hjumps⟩ := readBody_jumps hheader hc hfit
    obtain ⟨m, hm, hfunctions⟩ := hread f hf
    exact ⟨m, f, hm, hfunctions, hjumps⟩
  refine ⟨⟨hfits, fun hfit => ?_⟩, fun m hm => ?_⟩
  · obtain ⟨m, _, hm, _⟩ := hreads hfit
    exact ⟨m, hm⟩
  · obtain ⟨m', f, hm', hfunctions, hjumps⟩ := hreads (hfits ⟨m, hm⟩)
    rw [hm, Except.ok.injEq] at hm'
    exact ⟨f, hm' ▸ hfunctions, hjumps⟩

/-- A quoted name, a number and a bare name, each the target of another block. -/
def threeJumps : List Jump :=
  [⟨.named "my block", .numbered "00"⟩, ⟨.numbered "0", .named "a-1"⟩,
    ⟨.named "a-1", .named "my block"⟩]

theorem read_threeJumps : (∀ j ∈ threeJumps, j.Written) ∧ JumpsFit threeJumps
    ∧ ∃ m f, (Module.read (jumpsText threeJumps)).result = .ok m ∧ m.functions = [f]
      ∧ f.Jumps threeJumps := by
  have hwritten : ∀ j ∈ threeJumps, j.Written := by decide +kernel
  have hfit : JumpsFit threeJumps := by decide +kernel
  obtain ⟨hread, hjumps⟩ := read_jumpsText hwritten
  obtain ⟨m, hm⟩ := hread.mpr hfit
  obtain ⟨f, hfunctions, hf⟩ := hjumps m hm
  exact ⟨hwritten, hfit, m, f, hm, hfunctions, hf⟩

/-- A quoted digit is a slot in front of a colon and a name behind a sigil. -/
example : ¬ JumpsFit [⟨.named "0", .named "0"⟩] := by decide +kernel

end IrRecords
