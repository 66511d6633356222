import IrRecords.Proofs.Draft.Building
import IrRecords.Proofs.Listing.Forms

/-!
# Reading the body of a listing

The lines of a body are read one after the other, and each of them does one thing to the draft: a
label starts a block, a statement adds an instruction. `Builds` is this row of operations, and
`iterate_readBodyItem` says that the loop over a body performs it. What the operations come to is
left to `IrRecords.Proofs.Listing.Blocks`.

Lines matter here, because what a statement leaves of its line is passed over. A statement is read
from tokens of one line, and the token behind them is on another.
-/

namespace IrRecords

/-! ## Lines -/

namespace Cursor

variable {c : Cursor} {ks js : List TokenKind} {n : Nat} {m : Mark} {ms : List Mark}

/-- The tokens ahead are told to `advanceWhileIn` apart from the cursor. -/
theorem advanceWhileIn_rest (p : Token → Bool) (c : Cursor) (xs ts : List Token) :
    advanceWhileIn p { c with rest := xs } ts = advanceWhileIn p c ts := by
  induction ts generalizing c xs with
  | nil => rfl
  | cons t ts ih =>
    rw [advanceWhileIn, advanceWhileIn]
    by_cases ht : p t = true
    · rw [if_pos ht, if_pos ht]
      exact ih { c with lastLine? := some t.line } xs
    · rw [if_neg ht, if_neg ht]

/-- All tokens of a line are passed, and no more than these. -/
theorem advanceWhile_line (hc : c.Sees (ks.map (⟨·, n⟩) ++ m :: ms)) (hm : m.line ≠ n) :
    c.advanceWhile (·.line == n) = c.past ks.length := by
  induction ks generalizing c with
  | nil =>
    obtain ⟨t, hrest, _, ht, _⟩ := hc.uncons
    have hline : (t.line == n) = false := beq_eq_false_iff_ne.mpr (ht.line ▸ hm)
    rw [advanceWhile, hrest, advanceWhileIn, hline, if_neg Bool.false_ne_true, ← hrest]
    rfl
  | cons k ks ih =>
    obtain ⟨t, hrest, _, ht, _, hmore⟩ := hc.uncons
    have hline : (t.line == n) = true := beq_iff_eq.mpr ht.line
    have hadvance : { c with lastLine? := some t.line, rest := c.advance.rest } = c.advance := by
      rw [advance, hrest]
    -- The rest of the walk is told from the tokens alone, so it may start from the next cursor.
    have hnext := advanceWhileIn_rest (·.line == n) { c with lastLine? := some t.line }
      c.advance.rest c.advance.rest
    rw [hadvance] at hnext
    rw [advanceWhile, hrest, advanceWhileIn, hline, if_pos rfl, ← hnext]
    exact ih hmore

theorem lastLine?_past (hc : c.Sees (ks.map (⟨·, n⟩))) (hne : ks ≠ []) :
    (c.past ks.length).lastLine? = some n := by
  induction ks generalizing c with
  | nil => exact absurd rfl hne
  | cons k ks ih =>
    obtain ⟨t, _, _, _, hlast, hmore⟩ := hc.uncons
    cases ks with
    | nil => exact hlast
    | cons k' ks => exact ih hmore (List.cons_ne_nil _ _)

/-- Once a token of a line has been passed, the rest of the line can be. -/
theorem skipRestOfLine_past (hc : c.Sees ((ks ++ js).map (⟨·, n⟩) ++ m :: ms)) (hne : ks ≠ [])
    (hm : m.line ≠ n) : (c.past ks.length).skipRestOfLine = c.past (ks ++ js).length := by
  rw [List.map_append, List.append_assoc] at hc
  obtain ⟨hpassed, hleft⟩ := hc.split
  rw [List.length_map] at hleft
  rw [skipRestOfLine, lastLine?_past hpassed hne, List.length_append, past_add]
  exact advanceWhile_line hleft hm

end Cursor

namespace Listing

open Reader

variable {defs : List (String × Ty)} {s : Statement}

/-! ## Statements -/

/-- A statement, and the statement of a draft that it is read as. -/
structure Statement.ReadAs (s : Statement) (r : Draft.Statement) : Prop where
  result : r.result? = s.result?.map .named
  instr : s.form.asRead.ReadAs r.instr

theorem map_kind_line (ks : List TokenKind) (n : Nat) :
    (ks.map fun k => (⟨k, n⟩ : Mark)).map (·.kind) = ks := by
  rw [List.map_map]
  exact List.map_id ks

/-- The kinds of the tokens in front of an instruction. -/
def resultKinds : Option String → List TokenKind
  | none => []
  | some name => [.localRef (.named name), .equal]

theorem kindsOf_statement (s : Statement) :
    kindsOf s.pieces = resultKinds s.result? ++ kindsOf s.form.pieces := by
  unfold Statement.pieces
  cases s.result? with
  | none => rfl
  | some name => rfl

theorem takes_readResult? (result? : Option String) :
    Function.readResult?.Takes (resultKinds result?) (· = result?.map .named)
      fun k => ∃ w, k = .word w := by
  rw [Function.readResult?]
  cases result? with
  | none =>
    refine .kind ?_
    rintro _ ⟨w, rfl⟩
    exact .nextKind fun _ => .pure rfl
  | some name =>
    refine .kind fun _ _ => .nextKind_cons fun _ _ => ?_
    exact Takes.cons .advance fun _ _ => Takes.cons .advance fun _ _ => .pure rfl

/-- An instruction is read from its tokens or, if it is the return of a value whose type starts with
`void`, from the first two of them. -/
theorem exists_takes_readInstr (ctx : Draft.Context) (h : s.WellFormed defs)
    (hedge : s.form.HasEdge) :
    ∃ w taken left, (.word w :: taken) ++ left = kindsOf s.form.pieces
      ∧ (Draft.readInstr ctx).Takes (.word w :: taken) s.form.asRead.ReadAs
        fun k => left = [] → EndsStatement k := by
  have hsplit := kindsOf_cons (.word s.form.opcode.mnemonic) s.form.arguments
  rcases s.form.asRead_cases with hread | ⟨⟨value, hform, hvoid⟩, hread⟩
  · have htakes := takes_readInstr fun p => takes_readOperation ctx p h hedge hread
    refine ⟨s.form.opcode.mnemonic, kindsOf s.form.arguments, [], ?_, ?_⟩
    · rw [List.append_nil, Form.pieces, hsplit]
      rfl
    · rw [hread]
      exact htakes.mono (fun _ h => h) fun _ h => h rfl
  · -- The word `void` is taken for the whole of the return, and the rest of the type and the value
    -- are left.
    obtain ⟨k, ks, hks, hk⟩ := value.ty.startsVoid_iff
    obtain rfl := hk.mp hvoid
    have htakes : (Draft.readInstr ctx).Takes [.word Opcode.ret.mnemonic, .word "void"]
        (Form.ret none).ReadAs fun k => ks ++ [value.operand.kind] = [] → EndsStatement k :=
      takes_readInstr fun _ => takes_readRet_void
    refine ⟨Opcode.ret.mnemonic, [.word "void"], ks ++ [value.operand.kind], ?_, ?_⟩
    · rw [Form.pieces, hsplit, hform, Form.arguments, kindsOf_use, Use.kinds, hks]
      rfl
    · rw [hread]
      exact htakes

/-- What a statement says before the rest of its line. -/
def readStart (ctx : Draft.Context) : Reader (Option Ident × Draft.Instr) := do
  let result? ← Function.readResult?
  let instr ← Draft.readInstr ctx
  return (result?, instr)

theorem readStatement_eq (ctx : Draft.Context) (d : Draft) :
    Function.readStatement ctx d = (do
      let p ← position
      let r ← readStart ctx
      skipRestOfLine
      d.pushInstr r.1 r.2 p) := by
  simp only [Function.readStatement, readStart, bind_assoc, pure_bind]

theorem exists_takes_readStart (ctx : Draft.Context) (h : s.WellFormed defs)
    (hedge : s.form.HasEdge) :
    ∃ taken left, taken ≠ [] ∧ taken ++ left = kindsOf s.pieces
      ∧ (readStart ctx).Takes taken
        (fun r => r.1 = s.result?.map .named ∧ s.form.asRead.ReadAs r.2)
        fun k => left = [] → EndsStatement k := by
  obtain ⟨w, taken, left, hkinds, hinstr⟩ := exists_takes_readInstr ctx h hedge
  refine ⟨resultKinds s.result? ++ .word w :: taken, left, by simp, ?_, ?_⟩
  · rw [kindsOf_statement, ← hkinds, List.append_assoc]
  · rw [readStart]
    refine Takes.bind (takes_readResult? s.result?) (fun _ _ => ⟨w, rfl⟩) fun r? hr => ?_
    exact hinstr.last (fun _ h => h) fun i hi => .pure ⟨hr, hi⟩

/-- A statement is read and the rest of its line is passed over. -/
theorem readStatement_line (ctx : Draft.Context) (h : s.WellFormed defs) (hedge : s.form.HasEdge)
    {c : Cursor} {n : Nat} {m : Mark} {ms : List Mark}
    (hc : c.Sees ((kindsOf s.pieces).map (⟨·, n⟩) ++ m :: ms)) (hline : m.line ≠ n)
    (hends : EndsStatement m.kind) :
    ∃ r : Draft.Statement, s.ReadAs r ∧ ∀ d d' : Draft,
      d.pushInstr r.result? r.instr r.position = .ok d' →
      Function.readStatement ctx d c = .ok (d', c.past (kindsOf s.pieces).length) := by
  obtain ⟨taken, left, hne, hkinds, hstart⟩ := exists_takes_readStart ctx h hedge
  rw [← hkinds] at hc ⊢
  have hrest := hc
  rw [List.map_append, List.append_assoc] at hrest
  obtain ⟨htaken, hleft⟩ := hrest.split
  -- If nothing is left of the line, the next token is on another line and ends the statement.
  have hbehind : left = [] → EndsStatement (c.past taken.length).current.kind := by
    rintro rfl
    obtain ⟨t, _, hcurrent, ht, _⟩ := hleft.uncons
    rw [List.length_map] at hcurrent
    rw [hcurrent, ht.kind]
    exact hends
  obtain ⟨r, hr, hresult, hinstr⟩ := hstart c _ (map_kind_line taken n) htaken hbehind
  refine ⟨⟨r.1, r.2, c.current.start⟩, ⟨hresult, hinstr⟩, fun d d' hpush => ?_⟩
  rw [readStatement_eq]
  refine bind_eq_ok_iff.mpr ⟨_, c, rfl, bind_eq_ok_iff.mpr ⟨r, _, hr, ?_⟩⟩
  refine bind_eq_ok_iff.mpr ⟨(), c.past (taken ++ left).length, ?_, ?_⟩
  · exact congrArg (fun c' => Except.ok ((), c')) (Cursor.skipRestOfLine_past hc hne hline)
  · rw [hpush]
    rfl

/-! ## Bodies -/

/-- What the lines of a body do to a draft. -/
inductive Builds : Draft → List Line → Draft → Prop
  | nil {d : Draft} : Builds d [] d
  | label {d d₁ d' : Draft} {name : String} {p : Position} {rest : List Line}
    (hstart : d.startBlock (some (.named name)) p = .ok d₁) (hrest : Builds d₁ rest d') :
    Builds d (.label name :: rest) d'
  | statement {d d₁ d' : Draft} {s : Statement} {r : Draft.Statement} {rest : List Line}
    (hread : s.ReadAs r) (hpush : d.pushInstr r.result? r.instr r.position = .ok d₁)
    (hrest : Builds d₁ rest d') : Builds d (.statement s :: rest) d'

/-- A line that can be read. -/
def Line.Readable (defs : List (String × Ty)) : Line → Prop
  | label name => Ident.ofLabel name = .named name
  | statement s => s.WellFormed defs ∧ s.form.HasEdge

/-- A statement starts with the name of its result or the word of its instruction. -/
theorem exists_kindsOf_statement (s : Statement) : ∃ k ks, kindsOf s.pieces = k :: ks
    ∧ ((∃ name, k = .localRef (.named name)) ∨ ∃ opcode : Opcode, k = .word opcode.mnemonic) := by
  rw [kindsOf_statement]
  cases s.result? with
  | none => exact ⟨_, _, rfl, .inr ⟨_, rfl⟩⟩
  | some name => exact ⟨_, _, rfl, .inl ⟨_, rfl⟩⟩

theorem mnemonic_ne_addrspace (opcode : Opcode) : opcode.mnemonic ≠ "addrspace" := by
  have hall : ∀ op ∈ Opcode.all, op.mnemonic ≠ "addrspace" := by decide +kernel
  exact hall opcode opcode.mem_all

theorem exists_kinds_line (line : Line) : ∃ k ks, line.kinds = k :: ks ∧ EndsStatement k := by
  cases line with
  | label name => exact ⟨_, _, rfl, by simp [Ty.EndsType], by simp⟩
  | statement s =>
    obtain ⟨k, ks, hks, hk⟩ := exists_kindsOf_statement s
    refine ⟨k, ks, hks, ?_⟩
    rcases hk with ⟨name, rfl⟩ | ⟨opcode, rfl⟩
    · exact ⟨by simp [Ty.EndsType], by simp⟩
    · have hword := mnemonic_ne_addrspace opcode
      exact ⟨⟨by simp, by simp, fun h => hword (TokenKind.word.inj h)⟩, by simp⟩

/-- What starts a line or ends a body ends a statement, and it is not on the line before. -/
theorem exists_lineMarks (n : Nat) (lines : List Line) :
    ∃ m ms, lineMarks (n + 1) (lines.map Line.kinds) = m :: ms ∧ m.line ≠ n
      ∧ EndsStatement m.kind := by
  cases lines with
  | nil => exact ⟨_, _, rfl, by simp, by simp [Ty.EndsType], by simp⟩
  | cons line rest =>
    obtain ⟨k, ks, hks, hk⟩ := exists_kinds_line line
    rw [List.map_cons, lineMarks, hks, List.map_cons, List.cons_append]
    exact ⟨_, _, rfl, by simp, hk⟩

/-- An instruction can be added to every draft, with a name if it has a result. -/
theorem exists_pushInstr (d : Draft) {name? : Option String} {i : Draft.Instr} (p : Position)
    (h : name? = none ↔ i.ty = .void) :
    ∃ d', d.pushInstr (name?.map .named) i p = .ok d' := by
  have hplace : ∀ d₁ : Draft, ∃ d', d₁.placeInstr (name?.map .named) i p = .ok d' := by
    intro d₁
    rw [Draft.placeInstr.eq_def]
    cases name? with
    | none => exact ⟨_, if_pos (h.mp rfl)⟩
    | some name =>
      rw [if_neg fun hvoid => by cases h.mpr hvoid]
      exact ⟨_, rfl⟩
  rw [Draft.pushInstr_eq]
  by_cases hneeds : d.needsBlock = true
  · rw [if_pos hneeds]
    exact hplace _
  · rw [if_neg hneeds]
    exact hplace d

/-- One line of a body. -/
theorem readBodyItem_line (ctx : Draft.Context) {line : Line} (h : line.Readable defs) (d : Draft)
    {c : Cursor} {n : Nat} {m : Mark} {ms : List Mark}
    (hc : c.Sees (line.kinds.map (⟨·, n⟩) ++ m :: ms)) (hline : m.line ≠ n)
    (hends : EndsStatement m.kind) :
    ∃ d₁, Function.readBodyItem ctx d c = .ok (.again d₁, c.past line.kinds.length)
      ∧ ∀ rest d', Builds d₁ rest d' → Builds d (line :: rest) d' := by
  rw [Function.readBodyItem]
  cases line with
  | label name =>
    obtain ⟨t, _, hcurrent, ht, _⟩ := Cursor.Sees.uncons hc
    have hkind : c.current.kind = .label name := by
      rw [hcurrent, ht.kind]
    have hlabel : Ident.ofLabel name = .named name := h
    obtain ⟨d₁, hstart⟩ : ∃ d₁, d.startBlock (some (.named name)) c.current.start = .ok d₁ :=
      ⟨_, rfl⟩
    refine ⟨d₁, bind_eq_ok_iff.mpr ⟨_, c, congrArg (fun k => Except.ok (k, c)) hkind, ?_⟩, ?_⟩
    · refine bind_eq_ok_iff.mpr ⟨_, c, rfl, bind_eq_ok_iff.mpr ⟨(), c.advance, rfl, ?_⟩⟩
      rw [hlabel, hstart]
      rfl
    · exact fun rest d' hrest => .label hstart hrest
  | statement s =>
    obtain ⟨r, hread, hr⟩ := readStatement_line ctx h.1 h.2 hc hline hends
    -- The result is there exactly where the instruction that was read asks for one.
    have hvoid : s.result? = none ↔ r.instr.ty = .void := by
      rw [hread.instr.ty, Form.asRead_ty]
      exact h.1.result
    obtain ⟨d₁, hpush⟩ := exists_pushInstr d r.position hvoid
    rw [← hread.result] at hpush
    obtain ⟨k, ks, hks, hk⟩ := exists_kindsOf_statement s
    have hkind : c.current.kind = k := by
      rw [Line.kinds, hks] at hc
      obtain ⟨t, _, hcurrent, ht, _⟩ := hc.uncons
      rw [hcurrent, ht.kind]
    refine ⟨d₁, bind_eq_ok_iff.mpr ⟨_, c, congrArg (fun k => Except.ok (k, c)) hkind, ?_⟩, ?_⟩
    · rcases hk with ⟨name, rfl⟩ | ⟨opcode, rfl⟩
      · exact bind_eq_ok_iff.mpr ⟨d₁, _, hr d d₁ hpush, rfl⟩
      · exact bind_eq_ok_iff.mpr ⟨d₁, _, hr d d₁ hpush, rfl⟩
    · exact fun rest d' hrest => .statement hread hpush hrest

/-- **The lines of a body are read one after the other.** -/
theorem iterate_readBodyItem (ctx : Draft.Context) {lines : List Line}
    (h : ∀ line ∈ lines, line.Readable defs) (d : Draft) {c : Cursor} {n : Nat}
    (hc : c.Sees (lineMarks n (lines.map Line.kinds))) :
    ∃ d', iterate (Function.readBodyItem ctx) d c
        = .ok (d', c.past (lineMarks n (lines.map Line.kinds)).length) ∧ Builds d lines d' := by
  induction lines generalizing d c n with
  | nil =>
    obtain ⟨t, _, hcurrent, ht, _⟩ := hc.uncons
    have hkind : c.current.kind = .closer .curly := by rw [hcurrent, ht.kind]
    refine ⟨d, iterate_done ?_, .nil⟩
    rw [Function.readBodyItem]
    exact bind_eq_ok_iff.mpr ⟨_, c, congrArg (fun k => Except.ok (k, c)) hkind, rfl⟩
  | cons line rest ih =>
    rw [List.forall_mem_cons] at h
    rw [List.map_cons, lineMarks] at hc ⊢
    obtain ⟨m, ms, hms, hline, hends⟩ := exists_lineMarks n rest
    have hhere := hc
    rw [hms] at hhere
    obtain ⟨d₁, hitem, hbuild⟩ := readBodyItem_line ctx h.1 d hhere hline hends
    obtain ⟨hthis, hnext⟩ := hc.split
    have hlength := hthis.remaining
    rw [List.length_map] at hnext hlength
    obtain ⟨d', hrest, hbuilds⟩ := ih h.2 d₁ hnext
    -- Every line has a token, so each round leaves fewer of them.
    refine ⟨d', iterate_again hitem ?_ ?_, hbuild rest d' hbuilds⟩
    · obtain ⟨k, ks, hks, _⟩ := exists_kinds_line line
      rw [hks, List.length_cons] at hlength ⊢
      omega
    · rw [List.length_append, List.length_map, Cursor.past_add]
      exact hrest

end Listing

end IrRecords
