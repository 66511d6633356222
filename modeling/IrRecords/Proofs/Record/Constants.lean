import IrRecords.Proofs.Function.Contents
import IrRecords.Proofs.Module.Parts
import IrRecords.Record.Encode

/-!
# How constants are shown

A constant is kept as text, the text of the tokens that it is read from on one line, and the record
of an operand has the text of its value without a sigil. The sigil is looked for in the text alone.
So a constant is shown as it stands in the source if its text does not begin like a reference, and
how a text begins follows from its first token: only references begin with a sigil
(`Token.Lexed.exists_first`), and no constant begins with a reference. Metadata may begin with the
name of a struct, though, and then its first character is lost (`stripSigil_rowText`).

`constants_of_read` puts this together for all operands of all instructions that are read. One
constant has no source text: the count of an allocation that does not say it.
-/

namespace IrRecords

/-! ## Texts without their sigils -/

/-- The first character of a text stays in front if it is no blank. -/
theorem Text.exists_collapse_cons {c : Char} (hc : isBlank c = false) (cs : List Char) :
    ∃ ds, collapse (c :: cs) = c :: ds := by
  refine ⟨collapseFrom (false ^^ (c == '"')) false cs, ?_⟩
  rw [collapse, collapseFrom, hc]
  rfl

/-- Nothing is taken off a text that does not begin with a sigil. -/
theorem stripSigil_of_ne {text : String} {c : Char} {cs : List Char} (htext : text.toList = c :: cs)
    (hlocal : c ≠ '%') (hglobal : c ≠ '@') : stripSigil text = text := by
  unfold stripSigil
  rw [htext]
  split
  · next h => cases h; exact absurd rfl hlocal
  · next h => cases h; exact absurd rfl hglobal
  · rfl

theorem eq_append_stripSigil {text : String} {cs : List Char} (htext : text.toList = '%' :: cs) :
    text = "%" ++ stripSigil text := by
  have hstrip : stripSigil text = String.ofList cs := by
    unfold stripSigil
    rw [htext]
    rfl
  rw [hstrip, ← String.toList_inj, htext, String.toList_append, String.toList_ofList,
    String.toList_ofList]
  rfl

/-- The text of a row without its sigil is that text, unless the row starts with a reference. -/
theorem stripSigil_rowText {t : Token} (ht : t.Lexed) (hother : ∀ d, t.kind ≠ .other d)
    (hglobal : ∀ id, t.kind ≠ .globalRef id) (rest : List Token) :
    stripSigil (Token.rowText (t :: rest)) = Token.rowText (t :: rest)
      ∨ (∃ id, t.kind = .localRef id)
        ∧ Token.rowText (t :: rest) = "%" ++ stripSigil (Token.rowText (t :: rest)) := by
  obtain ⟨c, cs, htext, hblank, hlocal, hglobal'⟩ := ht.exists_first
  obtain ⟨ds, hds⟩ := Text.exists_collapse_cons (hblank hother)
    (cs ++ rest.flatMap fun u => u.gap ++ u.text)
  have hrow : (Token.rowText (t :: rest)).toList = c :: ds := by
    rw [Token.rowText, String.toList_ofList, Token.spanText, htext, List.cons_append, hds]
  by_cases hc : c = '%'
  · exact .inr ⟨hlocal.mp hc, eq_append_stripSigil (hc ▸ hrow)⟩
  · refine .inl (stripSigil_of_ne hrow hc fun hc => ?_)
    obtain ⟨id, hid⟩ := hglobal'.mp hc
    exact hglobal id hid

/-! ## The first token of a constant -/

theorem TokenKind.of_startsConstant {k : TokenKind} (h : k.startsConstant = true) :
    (∀ d, k ≠ .other d) ∧ (∀ id, k ≠ .globalRef id) ∧ ∀ id, k ≠ .localRef id := by
  refine ⟨?_, ?_, ?_⟩
  all_goals
    rintro x rfl
    cases h

theorem TokenKind.of_startsMetadata {k : TokenKind} (h : k.startsMetadata = true) :
    (∀ d, k ≠ .other d) ∧ ∀ id, k ≠ .globalRef id := by
  refine ⟨?_, ?_⟩
  all_goals
    rintro x rfl
    cases h

namespace Draft

open Reader

variable {slice : List Token} {v : Value} {text : String}

/-- The row is the text of a constant, or of metadata, and has been read as that. -/
def ReadsConstant (v : Value) (slice : List Token) : Prop :=
  v.ty ≠ .metadata ∧ passConstant.Reads slice () ∨ v.ty = .metadata ∧ passMetadata.Reads slice ()

/-- A constant keeps the text of the row that spells it. -/
theorem Spells.constant_cases (h : Spells slice (.known v)) (hv : v.origin = .constant text) :
    text = Token.rowText slice ∧ ReadsConstant v slice := by
  cases h with
  | global _ => cases hv
  | constant hty hslice =>
    cases hv
    exact ⟨rfl, .inl ⟨hty, hslice⟩⟩
  | metadata hslice =>
    cases hv
    exact ⟨rfl, .inr ⟨rfl, hslice⟩⟩

/-- **A constant is shown as its text, metadata that starts with a reference without its first
character.** -/
theorem ReadsConstant.stripSigil_cases (h : ReadsConstant v slice) (hslice : ∀ t ∈ slice, t.Lexed) :
    stripSigil (Token.rowText slice) = Token.rowText slice
      ∨ v.ty = .metadata ∧ (∃ t rest id, slice = t :: rest ∧ t.kind = .localRef id)
        ∧ Token.rowText slice = "%" ++ stripSigil (Token.rowText slice) := by
  rcases h with ⟨_, hreads⟩ | ⟨hty, hreads⟩
  · have hstart : passConstant.Passes fun _ ts => ∃ t us, ts = t :: us
        ∧ t.kind.startsConstant = true :=
      fun c => (passesFrom_passConstant c).mono fun _ ts ⟨⟨us, hus⟩, hk⟩ => ⟨c.current, us, hus, hk⟩
    obtain ⟨t, rest, rfl, hk⟩ := hreads.of_passes hstart
    obtain ⟨hother, hglobal, hlocal⟩ := TokenKind.of_startsConstant hk
    refine .inl ?_
    rcases stripSigil_rowText (hslice t List.mem_cons_self) hother hglobal rest with
      h | ⟨⟨id, hid⟩, _⟩
    · exact h
    · exact absurd hid (hlocal id)
  · have hstart : passMetadata.Passes fun _ ts => ∃ t us, ts = t :: us
        ∧ t.kind.startsMetadata = true :=
      fun c => (passesFrom_passMetadata c).mono fun _ ts ⟨⟨us, hus⟩, hk⟩ => ⟨c.current, us, hus, hk⟩
    obtain ⟨t, rest, rfl, hk⟩ := hreads.of_passes hstart
    obtain ⟨hother, hglobal⟩ := TokenKind.of_startsMetadata hk
    rcases stripSigil_rowText (hslice t List.mem_cons_self) hother hglobal rest with
      h | ⟨⟨id, hid⟩, h⟩
    · exact .inl h
    · exact .inr ⟨hty, ⟨t, rest, id, rfl, hid⟩, h⟩

end Draft

/-! ## Written instructions -/

/-- The instruction `i` of a function is the one that `s` writes, with its operands resolved. -/
structure WrittenStatement.Becomes (s : WrittenStatement) (d : Draft) (f : Function) (i : Instr) :
    Prop where
  valid : s.Valid
  opcode : i.opcode = s.instr.opcode
  operands : List.Forall₂ (Draft.Resolves d.definitions f.values) s.instr.operands i.operands

/-- The statements of a definition are the instructions of its function. -/
theorem Module.Definition.Valid.exists_becomes {D : Module.Definition} (hD : D.Valid) :
    ∃ d, Draft.LaidOut d D.function
      ∧ List.Forall₂ (·.Becomes d D.function) D.statements D.function.instrs.toList := by
  obtain ⟨header, d, d', _, hheader, hadds, hfinish⟩ := hD.body
  have hlaid := Draft.finish_spec hfinish
  obtain ⟨_, statements, hstatements, htold⟩ := hadds.contents
  rw [Draft.statements_ofHeader hheader, List.nil_append] at hstatements
  refine ⟨d', hlaid, forall₂_of_forall₂ htold (hstatements ▸ hlaid.instrs) ?_⟩
  intro s hs st i hst hi
  have hvalid : s.Valid := by
    obtain ⟨part, hpart, hpart'⟩ := List.mem_filterMap.mp hs
    cases part with
    | statement s' =>
      cases hpart'
      exact hadds.valid_of_mem hpart
    | label t => cases hpart'
    | remark ts => cases hpart'
  exact ⟨hvalid, hst.instr ▸ hi.opcode, hst.instr ▸ hi.operands⟩

/-! ## Records of operands -/

namespace Function

/-- What the record of an operand says about its value. -/
theorem of_operandRecord? {f : Function} {i : Instr} {index : Nat} {id : ValueId}
    {r : Record.Operand} (h : f.operandRecord? i index id = some r) :
    ∃ v, f.values[id]? = some v ∧ r.name = v.name ∧ r.ty = v.ty.canonicalName
      ∧ r.value = stripSigil v.rendering := by
  obtain ⟨v, hv, h⟩ := Option.bind_eq_some_iff.mp h
  obtain ⟨prev, _, h⟩ := Option.bind_eq_some_iff.mp h
  cases h
  exact ⟨v, hv, rfl, rfl, rfl⟩

/-- If the operand `id` of `i` is a constant, then `slice` is its source text, and its record shows
this text on one line. Of metadata that starts with the name of a struct the sigil of the name is
missing. -/
def ShowsOperand (f : Function) (i : Instr) (slice : List Token) (id : ValueId) : Prop :=
  ∀ v text, f.values[id]? = some v → v.origin = .constant text →
    text = Token.rowText slice ∧ Draft.ReadsConstant v slice
    ∧ ∀ index r, f.operandRecord? i index id = some r → r.value = text
      ∨ v.ty = .metadata ∧ (∃ t rest id, slice = t :: rest ∧ t.kind = .localRef id)
        ∧ text = "%" ++ r.value

/-- The operands of `i` are shown as they are written in `ts`, one behind the other. The one
constant that need not be written is the count of an allocation. -/
def ShowsOperands (f : Function) (ts : List Token) (i : Instr) : Prop :=
  (∃ slices, Token.Slices ts slices
    ∧ List.Forall₂ (f.ShowsOperand i) slices (i.opcode.textOrder i.operands))
  ∨ i.opcode = .alloca ∧ ∃ id, i.operands = [id]
    ∧ f.values[id]? = some (.constant (.int 32) "1")

end Function

/-- What a function defines itself is neither a constant nor a global. -/
theorem Draft.origin_of_definition {d : Draft} {definition : Draft.Definition}
    (h : definition ∈ d.definitions) :
    (∀ text, definition.origin ≠ .constant text) ∧ definition.origin ≠ .global := by
  have horigin : definition.origin ∈ d.definitions.map (·.origin) := List.mem_map_of_mem h
  rw [Draft.definitions_origin, List.mem_append, List.mem_append, List.mem_map, List.mem_map,
    List.mem_map] at horigin
  rcases horigin with (⟨n, _, hn⟩ | ⟨n, _, hn⟩) | ⟨n, _, hn⟩
  all_goals
    rw [← hn]
    exact ⟨fun _ => Origin.noConfusion, Origin.noConfusion⟩

section

variable {d : Draft} {f : Function} {i : Instr} {s : WrittenStatement}

/-- An operand that is spelled by a row and resolved is shown as it is written in the row. -/
theorem showsOperand_of_spells (hlaid : Draft.LaidOut d f) {slice : List Token}
    {o : Draft.Operand} {id : ValueId} (ho : Draft.Spells slice o)
    (hid : Draft.Resolves d.definitions f.values o id) (hlexed : ∀ t ∈ slice, t.Lexed) :
    f.ShowsOperand i slice id := by
  intro v text hv horigin
  cases hid with
  | reference hplace _ _ =>
    rw [hlaid.value_of_definition hplace, Option.some.injEq] at hv
    rw [← hv] at horigin
    exact absurd horigin ((Draft.origin_of_definition (List.mem_of_getElem? hplace)).1 text)
  | known _ hplace =>
    rw [hplace, Option.some.injEq] at hv
    subst hv
    obtain ⟨rfl, hreads⟩ := ho.constant_cases horigin
    refine ⟨rfl, hreads, fun index r hr => ?_⟩
    obtain ⟨v', hv', _, _, hvalue⟩ := Function.of_operandRecord? hr
    rw [hplace, Option.some.injEq] at hv'
    rw [hvalue, ← hv', Value.rendering, horigin]
    exact hreads.stripSigil_cases hlexed

/-- The operands of an instruction are shown as they are written in its text. -/
theorem WrittenStatement.Becomes.showsOperands (h : s.Becomes d f i) (hlaid : Draft.LaidOut d f)
    (hlexed : ∀ t ∈ s.tokens, t.Lexed) : f.ShowsOperands s.tokens i := by
  rcases h.valid.instr.operands with ⟨slices, hslices, hspells⟩ | ⟨hopcode, hoperands⟩
  · rw [← h.opcode] at hspells
    refine .inl ⟨slices, hslices, ?_⟩
    refine forall₂_of_forall₂ hspells (i.opcode.forall₂_textOrder h.operands) ?_
    intro slice hslice o id ho hid
    exact showsOperand_of_spells hlaid ho hid fun t ht =>
      hlexed t ((hslices.infix_of_mem hslice).subset ht)
  · have hplaces := h.operands
    rw [hoperands, List.forall₂_cons_left_iff] at hplaces
    obtain ⟨id, rest, hid, hrest, hids⟩ := hplaces
    rw [List.forall₂_nil_left_iff.mp hrest] at hids
    cases hid with
    | known _ hplace => exact .inr ⟨h.opcode.trans hopcode, id, hids, hplace⟩

end

/-! ## Modules -/

namespace Module

/-- The tokens of a statement are neighbours in the text. -/
theorem infix_of_mem_statements {parts : List Part} {D : Definition} {s : WrittenStatement}
    (hD : .definition D ∈ parts) (hs : s ∈ D.statements) :
    s.tokens <:+: parts.flatMap Part.tokens := by
  -- The statement is in the body, and its tokens are between what is in front and what is left.
  obtain ⟨part, hpart, hpart'⟩ := List.mem_filterMap.mp hs
  cases part with
  | statement s' =>
    cases hpart'
    have hstatement : s.tokens <:+: (BodyPart.statement s).tokens := ⟨s.marks, s.trailer, rfl⟩
    have hbody : (BodyPart.statement s).tokens <:+: D.body :=
      List.infix_of_mem_flatten (List.mem_map_of_mem hpart)
    have hdefinition : D.body <:+: (Part.definition D).tokens :=
      ⟨D.keyword :: (D.head ++ (D.attributes ++ [D.opening])), [D.closing], by
        simp [Part.tokens, Definition.tokens]⟩
    have hpart : (Part.definition D).tokens <:+: parts.flatMap Part.tokens :=
      List.infix_of_mem_flatten (List.mem_map_of_mem hD)
    exact hstatement.trans (hbody.trans (hdefinition.trans hpart))
  | label u => cases hpart'
  | remark us => cases hpart'

/-- The tokens of a statement are tokens of the text. -/
theorem FallsInto.lexed {source : String} {m : Module} {parts : List Part} {D : Definition}
    {s : WrittenStatement} (h : FallsInto source m parts) (hD : .definition D ∈ parts)
    (hs : s ∈ D.statements) : ∀ t ∈ s.tokens, t.Lexed := by
  intro t ht
  obtain ⟨stop, hscan⟩ := h.scan
  exact (Token.scanFrom_spec hscan).lexed t ((infix_of_mem_statements hD hs).subset ht)

/-- **Constants are shown as they are written.** The statements of a definition are the instructions
of its function, and the constants among the operands of an instruction have, in the order of the
text, the texts that stand in the statement. -/
theorem constants_of_read {source : String} {m : Module} (h : (Module.read source).result = .ok m) :
    ∃ parts, FallsInto source m parts ∧ ∀ D, .definition D ∈ parts →
      List.Forall₂ (fun s i => D.function.ShowsOperands s.tokens i) D.statements
        D.function.instrs.toList := by
  obtain ⟨parts, hparts⟩ := exists_parts_of_read h
  refine ⟨parts, hparts, fun D hD => ?_⟩
  cases hparts.valid _ hD with
  | definition hvalid =>
    obtain ⟨d, hlaid, hbecomes⟩ := hvalid.exists_becomes
    have hself : List.Forall₂ (fun s s' => s' = s) D.statements D.statements :=
      List.forall₂_same.mpr fun _ _ => rfl
    refine forall₂_of_forall₂ hself hbecomes ?_
    rintro s hs _ i rfl hi
    exact hi.showsOperands hlaid (hparts.lexed hD hs)

/-- A call with metadata that starts with the name of a struct. -/
def metadataSource : String :=
  "%T = type \x7b i32 \x7d
declare void @g(metadata)
define void @f(%T* %x) \x7b
  call void @g(metadata %T* %x)
  store i32 7, i32* null
  ret void
\x7d
"

/-- The constants of `metadataSource`: the number and the null pointer are shown as they are
written, and of the metadata the first character is missing. -/
theorem constants_of_read_metadata : ∃ m parts, (Module.read metadataSource).result = .ok m
    ∧ FallsInto metadataSource m parts
    ∧ (∀ D, .definition D ∈ parts → List.Forall₂ (fun s i => D.function.ShowsOperands s.tokens i)
      D.statements D.function.instrs.toList)
    ∧ m.functions.map (fun f => f.instrs.toList.map fun i =>
        (f.operandRecords? i 0 i.operands).map fun rs => rs.map (·.value))
      = [[], [some ["T* %x", "g"], some ["7", "null"], some []]] := by
  have hread : ((Module.read metadataSource).result.toOption.map fun m =>
      m.functions.map fun f => f.instrs.toList.map fun i =>
        (f.operandRecords? i 0 i.operands).map fun rs => rs.map (·.value))
      = some [[], [some ["T* %x", "g"], some ["7", "null"], some []]] := by decide +kernel
  cases hm : (Module.read metadataSource).result with
  | error e => rw [hm] at hread; cases hread
  | ok m =>
    rw [hm, Except.toOption, Option.map_some, Option.some.injEq] at hread
    obtain ⟨parts, hparts, hshows⟩ := constants_of_read hm
    exact ⟨m, parts, rfl, hparts, hshows, hread⟩

end Module

end IrRecords
