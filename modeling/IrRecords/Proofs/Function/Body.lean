import IrRecords.Proofs.Draft.Building
import IrRecords.Proofs.Draft.Writing

/-!
# What a body is made of

Between its braces a body is a row of tokens, and the reader goes through it part by part: a label,
a line that starts with a hash sign, or a statement with what is left of its line behind it
(`BodyPart`). `Draft.Adds` says what a part is and what it does to a draft, `Draft.AddsAll` the same
of a row of parts, and `readBody_passes` that every body that is read is such a row.

What is left of a line is passed over whatever it is. Everything else counts: a label or a result
that stands outside of all brackets is one that the draft has, or it is passed over
(`AddsAll.label_of_outside`, `AddsAll.result_of_outside`).
-/

namespace IrRecords

open Reader

/-- A statement with the tokens that it is read from. -/
structure WrittenStatement where
  /-- The result that is given, if one is. -/
  result? : Option Ident
  /-- The result and the equals sign behind it, or nothing. -/
  marks : List Token
  instr : Draft.Instr
  /-- The text of the instruction. -/
  tokens : List Token
  /-- What is left of the line on which the instruction ends. -/
  trailer : List Token

/-- A part of a body. -/
inductive BodyPart where
  | label (t : Token)
  | remark (ts : List Token)
  | statement (s : WrittenStatement)

namespace BodyPart

/-- All tokens of a part. -/
def tokens : BodyPart → List Token
  | label t => [t]
  | remark ts => ts
  | statement s => s.marks ++ s.tokens ++ s.trailer

/-- The token means nothing to the reader: its line starts with a hash sign, or an instruction ends
on its line in front of it. -/
def PassesOver (t : Token) : BodyPart → Prop
  | label _ => False
  | remark ts => t ∈ ts ∧ ∃ u us name, ts = u :: us ∧ u.kind = .hash name ∧ t.line = u.line
  | statement s => t ∈ s.trailer ∧ s.tokens.getLast?.map Token.line = some t.line

/-- The statement of a part, if it is one. -/
def statement? : BodyPart → Option WrittenStatement
  | statement s => some s
  | _ => none

/-- If the part is a statement, its instruction is read from its text. -/
def ReadIn (ctx : Draft.Context) : BodyPart → Prop
  | statement s => (Draft.readInstr ctx).Reads s.tokens s.instr
  | _ => True

/-- Whether the part is passed over as a whole. -/
def isRemark : BodyPart → Bool
  | remark _ => true
  | _ => false

end BodyPart

/-- A statement is its result, if one is given, and an instruction, and what is left of the line on
which the instruction ends. -/
structure WrittenStatement.Valid (s : WrittenStatement) : Prop where
  marks : s.result? = none ∧ s.marks = [] ∨ ∃ id t e, s.result? = some id ∧ s.marks = [t, e]
    ∧ t.kind = .localRef id ∧ e.kind = .equal
  instr : s.instr.WrittenIn s.tokens
  trailer : ∀ t ∈ s.trailer, s.tokens.getLast?.map Token.line = some t.line

namespace Draft

/-- What a part is, and what it does to a draft. -/
inductive Adds : Draft → BodyPart → Draft → Prop
  | label {d d' : Draft} {t : Token} {text : String} (ht : t.kind = .label text)
      (h : d.startBlock (some (.ofLabel text)) t.start = .ok d') : Adds d (.label t) d'
  | remark {d : Draft} {t : Token} {ts : List Token} {name : String} (ht : t.kind = .hash name)
      (hts : ∀ u ∈ ts, u.line = t.line) : Adds d (.remark (t :: ts)) d
  | statement {d d' : Draft} {s : WrittenStatement} {p : Position} (hs : s.Valid)
      (h : d.pushInstr s.result? s.instr p = .ok d') : Adds d (.statement s) d'

/-- What a row of parts does to a draft. -/
inductive AddsAll : Draft → List BodyPart → Draft → Prop
  | nil {d : Draft} : AddsAll d [] d
  | snoc {d d₁ d' : Draft} {parts : List BodyPart} {part : BodyPart} (h : AddsAll d parts d₁)
      (hpart : Adds d₁ part d') : AddsAll d (parts ++ [part]) d'

end Draft

/-! ## Reading -/

namespace Function

open Draft

theorem passesFrom_readResult? (c : Cursor) : PassesFrom c readResult? fun result? ts =>
    result? = none ∧ ts = [] ∨ ∃ id t e, result? = some id ∧ ts = [t, e]
      ∧ t.kind = .localRef id ∧ e.kind = .equal := by
  rw [readResult?]
  refine .kind (.nextKind ?_)
  split
  · next id hid hequal =>
    refine .advance (by rw [hid]; exact TokenKind.noConfusion) fun c₁ hc₁ => ?_
    rw [← hc₁] at hequal
    refine .advance (by rw [hequal]; exact TokenKind.noConfusion) fun c₂ _ => ?_
    exact .pure (.inr ⟨id, c.current, c₁.current, rfl, rfl, hid, hequal⟩)
  · exact .pure (.inl ⟨rfl, rfl⟩)

/-- A statement that is read is a part of the body. -/
theorem passesFrom_readStatement (ctx : Context) (d : Draft) (c : Cursor) :
    PassesFrom c (readStatement ctx d) fun d' ts =>
      ∃ part : BodyPart, part.tokens = ts ∧ Adds d part d' ∧ part.ReadIn ctx := by
  rw [readStatement]
  refine .position ((passesFrom_readResult? c).bind fun result? marks c₁ hmarks => ?_)
  refine (readInstr_passes ctx c₁).and_reads.bind_of_reaches fun instr tokens c₂ htokens hread => ?_
  obtain ⟨hinstr, hreads⟩ := hread
  refine passesFrom_skipRestOfLine.bind fun _ trailer c₃ htrailer => .lift fun d' hd' => ?_
  refine ⟨.statement ⟨result?, marks, instr, tokens, trailer⟩, ?_,
    .statement ⟨hmarks, hinstr, ?_⟩ hd', hreads⟩
  · simp [BodyPart.tokens]
  · -- The instruction is not empty, so its last token is the one just passed.
    intro t ht
    rw [← htrailer t ht, htokens.lastLine?, List.getLast?_eq_some_getLast hinstr.ne_nil]
    rfl

/-- The parts of a body, up to the brace that ends it. -/
theorem passesFrom_readBodyItem (ctx : Context) (d : Draft) (c : Cursor) :
    PassesFrom c (readBodyItem ctx d) fun round ts =>
      match round with
      | .again d' => ∃ part : BodyPart, part.tokens = ts ∧ Adds d part d' ∧ part.ReadIn ctx
      | .done d' => d' = d ∧ ∃ t, ts = [t] ∧ t.kind = .closer .curly := by
  rw [readBodyItem]
  refine .kind ?_
  split
  · next hc => exact .advance (by simp [hc]) fun _ _ => .pure ⟨rfl, _, rfl, hc⟩
  · exact .unexpected
  · next text hc =>
    refine .position (.advance (by simp [hc]) fun _ _ => ?_)
    refine PassesFrom.bind (P := fun d' ts => ts = [] ∧ Adds d (.label c.current) d') ?_ ?_
    · exact .lift fun d' hd' => ⟨rfl, .label hc hd'⟩
    · rintro d' _ c₁ ⟨rfl, hadds⟩
      exact .pure ⟨_, rfl, hadds, trivial⟩
  · next name hc =>
    refine (passesFrom_skipLine (by simp [hc])).bind fun _ ts c₁ hts => ?_
    obtain ⟨us, rfl, hline⟩ := hts
    exact .pure ⟨.remark (c.current :: us), (List.append_nil _).symm, .remark hc hline, trivial⟩
  · refine (passesFrom_readStatement ctx d c).bind fun d' ts c₁ hts => .pure ?_
    rwa [List.append_nil]

/-- **A body that is read is a row of parts in braces**, and the function is what they add up to. -/
theorem passesFrom_readBody (ctx : Context) (h : Header) (c : Cursor) :
    PassesFrom c (readBody ctx h) fun f ts => ∃ before opening parts closing d d',
      ts = before ++ (opening :: (parts.flatMap BodyPart.tokens ++ [closing]))
        ∧ (∀ t ∈ before, opensBody t = false) ∧ opensBody opening = true
        ∧ closing.kind = .closer .curly
        ∧ Draft.ofHeader h = .ok d ∧ AddsAll d parts d' ∧ d'.finish = .ok f
        ∧ ∀ part ∈ parts, part.ReadIn ctx := by
  rw [readBody]
  have hbefore : PassesFrom c (skipWhile (!opensBody ·))
      fun _ ts => ∀ t ∈ ts, opensBody t = false :=
    .skipWhile fun ts hts t ht => by simpa using hts t ht
  refine hbefore.bind fun _ before c₁ hbefore => ?_
  refine (passesFrom_expect TokenKind.noConfusion _).bind fun _ ts c₂ hts => ?_
  obtain ⟨rfl, hopening⟩ := hts
  refine PassesFrom.bind (P := fun d ts => ts = [] ∧ Draft.ofHeader h = .ok d) ?_ ?_
  · exact .lift fun d hd => ⟨rfl, hd⟩
  rintro d _ c₃ ⟨rfl, hd⟩
  -- The invariant of the loop: the parts passed so far lead to the draft as it is.
  refine PassesFrom.bind (P := fun d' ts => ∃ parts : List BodyPart, ∃ closing,
    ts = parts.flatMap BodyPart.tokens ++ [closing] ∧ closing.kind = .closer .curly
      ∧ AddsAll d parts d' ∧ ∀ part ∈ parts, part.ReadIn ctx) ?_ ?_
  · refine .iterate (I := fun d' ts => ∃ parts : List BodyPart,
      ts = parts.flatMap BodyPart.tokens ∧ AddsAll d parts d' ∧ ∀ part ∈ parts, part.ReadIn ctx)
      ?_ ⟨[], rfl, .nil, List.forall_mem_nil _⟩
    rintro d₁ _ c₄ ⟨parts, rfl, hparts, hreads⟩
    refine (passesFrom_readBodyItem ctx d₁ c₄).mono fun round us hus => ?_
    cases round with
    | again d₂ =>
      obtain ⟨part, rfl, hpart, hread⟩ := hus
      exact ⟨parts ++ [part], by simp, .snoc hparts hpart,
        List.forall_mem_append.mpr ⟨hreads, List.forall_mem_singleton.mpr hread⟩⟩
    | done d₂ =>
      obtain ⟨rfl, closing, rfl, hclosing⟩ := hus
      exact ⟨parts, closing, rfl, hclosing, hparts, hreads⟩
  · rintro d' _ c₅ ⟨parts, closing, rfl, hclosing, hparts, hreads⟩
    refine .lift fun f hf => ⟨before, c₁.current, parts, closing, d, d', ?_, hbefore, ?_, hclosing,
      hd, hparts, hf, hreads⟩
    · simp
    · rw [opensBody, hopening]
      rfl

end Function

/-! ## What stands outside of all brackets -/

namespace Draft

open Cursor (bracketsAfter)

variable {d d' : Draft} {part : BodyPart} {parts : List BodyPart} {p q : List Token} {t e : Token}

/-- In a part there are three places for a label or an equals sign outside of all brackets: what is
passed over, a label, and what stands in front of an instruction. -/
theorem Adds.outside {B : List Bracket} (h : Adds d part d') (hrow : part.tokens = p ++ t :: q)
    (hout : p.foldl bracketsAfter B = []) (ht : t.kind.isQuiet = false) :
    part.PassesOver t ∨ part = .label t
      ∨ ∃ s, part = .statement s ∧ s.Valid ∧ ∃ q', s.marks = p ++ t :: q' := by
  cases h with
  | label _ _ =>
    cases p with
    | nil =>
      rw [BodyPart.tokens, List.nil_append, List.cons.injEq] at hrow
      exact .inr (.inl (congrArg BodyPart.label hrow.1))
    | cons u p => simp [BodyPart.tokens] at hrow
  | @remark u us name hu hus =>
    rw [BodyPart.tokens] at hrow
    have hmem : t ∈ u :: us := mem_of_eq_append_cons hrow
    refine .inl ⟨hmem, u, us, name, rfl, hu, ?_⟩
    rcases List.mem_cons.mp hmem with rfl | hmem
    · rfl
    · exact hus t hmem
  | @statement _ s _ hs _ =>
    rw [BodyPart.tokens, List.append_assoc] at hrow
    rcases append_eq_append_cons hrow with ⟨q', hmarks, _⟩ | ⟨p', rfl, hrest⟩
    · exact .inr (.inr ⟨s, rfl, hs, q', hmarks⟩)
    rcases append_eq_append_cons hrest with ⟨q', htokens, _⟩ | ⟨p'', _, htrailer⟩
    · -- The text of an instruction is quiet, whatever is open in front of it.
      have hquiet := hs.instr.quiet
      rw [htokens] at hquiet
      rw [List.foldl_append] at hout
      rw [hquiet.isQuiet_of_outside (B := s.marks.foldl bracketsAfter B) hout] at ht
      cases ht
    · have hmem : t ∈ s.trailer := mem_of_eq_append_cons htrailer
      exact .inl ⟨hmem, hs.trailer t hmem⟩

/-- Each part of a row was added to some draft. -/
theorem AddsAll.exists_adds (h : AddsAll d parts d') (hpart : part ∈ parts) :
    ∃ d₁ d₂, Adds d₁ part d₂ := by
  induction h with
  | nil => cases hpart
  | snoc _ hlast ih =>
    rcases List.mem_append.mp hpart with hpart | hpart
    · exact ih hpart
    · rw [List.mem_singleton.mp hpart]
      exact ⟨_, _, hlast⟩

/-- A statement of a row of parts is a statement. -/
theorem AddsAll.valid_of_mem {s : WrittenStatement} (h : AddsAll d parts d')
    (hs : .statement s ∈ parts) : s.Valid := by
  obtain ⟨_, _, hadds⟩ := h.exists_adds hs
  cases hadds with
  | statement hvalid _ => exact hvalid

/-- The same in a whole body. -/
theorem AddsAll.outside (h : AddsAll d parts d')
    (hrow : parts.flatMap BodyPart.tokens = p ++ t :: q)
    (hout : p.foldl bracketsAfter [] = []) (ht : t.kind.isQuiet = false) :
    (∃ part ∈ parts, part.PassesOver t) ∨ .label t ∈ parts
      ∨ ∃ s, .statement s ∈ parts ∧ s.Valid ∧ ∃ before p' q', p = before ++ p'
        ∧ s.marks = p' ++ t :: q' := by
  obtain ⟨before, part, after, p', q', rfl, hpart, rfl, _⟩ := flatMap_eq_append_cons hrow
  have hmem : part ∈ before ++ part :: after := List.mem_append_right _ List.mem_cons_self
  obtain ⟨d₁, d₂, hadds⟩ := h.exists_adds hmem
  rw [List.foldl_append] at hout
  rcases hadds.outside hpart hout ht with hpassed | rfl | ⟨s, rfl, hs, q', hmarks⟩
  · exact .inl ⟨part, hmem, hpassed⟩
  · exact .inr (.inl hmem)
  · exact .inr (.inr ⟨s, hmem, hs, _, p', q', rfl, hmarks⟩)

/-- **A label outside of all brackets is a part of its own**, unless it is passed over. -/
theorem AddsAll.label_of_outside {text : String} (h : AddsAll d parts d')
    (hrow : parts.flatMap BodyPart.tokens = p ++ t :: q) (hout : p.foldl bracketsAfter [] = [])
    (ht : t.kind = .label text) : .label t ∈ parts ∨ ∃ part ∈ parts, part.PassesOver t := by
  rcases h.outside hrow hout (by rw [ht]; rfl) with
    hpassed | hlabel | ⟨s, _, hs, _, p', q', _, hmarks⟩
  · exact .inr hpassed
  · exact .inl hlabel
  · -- In front of an instruction there is no label.
    have hmem : t ∈ s.marks := mem_of_eq_append_cons hmarks
    rcases hs.marks with ⟨_, hnil⟩ | ⟨id, u, e, _, htwo, hu, he⟩
    · rw [hnil] at hmem
      cases hmem
    · rw [htwo, List.mem_cons, List.mem_singleton] at hmem
      rcases hmem with rfl | rfl
      · rw [ht] at hu; cases hu
      · rw [ht] at he; cases he

/-- **A result outside of all brackets is the result of a statement**, unless its equals sign is
passed over. -/
theorem AddsAll.result_of_outside {id : Ident} (h : AddsAll d parts d')
    (hrow : parts.flatMap BodyPart.tokens = p ++ t :: e :: q)
    (hout : p.foldl bracketsAfter [] = []) (ht : t.kind = .localRef id) (he : e.kind = .equal) :
    (∃ s, .statement s ∈ parts ∧ s.result? = some id) ∨ ∃ part ∈ parts, part.PassesOver e := by
  have hout' : (p ++ [t]).foldl bracketsAfter [] = [] := by
    rw [List.foldl_append, hout, List.foldl_cons, List.foldl_nil]
    exact Token.bracketsAfter_of_isLoose (by rw [ht]; rfl) []
  rw [List.append_cons] at hrow
  rcases h.outside hrow hout' (by rw [he]; rfl) with
    hpassed | hlabel | ⟨s, hs, hvalid, before, p', q', hp, hmarks⟩
  · exact .inr hpassed
  · obtain ⟨d₁, d₂, hadds⟩ := h.exists_adds hlabel
    cases hadds with
    | label hk _ => rw [he] at hk; cases hk
  · -- The equals sign is the second of two tokens, and the first is the one in front of it.
    refine .inl ⟨s, hs, ?_⟩
    rcases hvalid.marks with ⟨_, hnil⟩ | ⟨id', u, e', hresult, htwo, hu, _⟩
    · rw [hnil] at hmarks
      simp at hmarks
    · rw [htwo] at hmarks
      rcases p' with _ | ⟨u', _ | ⟨u'', p'⟩⟩
      · rw [List.nil_append, List.cons.injEq] at hmarks
        rw [hmarks.1, he] at hu
        cases hu
      · rw [List.cons_append, List.cons.injEq] at hmarks
        obtain ⟨rfl, _⟩ := hmarks
        have hlast : t = u := by simpa using congrArg List.getLast? hp
        rw [hlast, hu, TokenKind.localRef.injEq] at ht
        rw [hresult, ht]
      · simp at hmarks

end Draft

end IrRecords
