import IrRecords.Proofs.Module.Numbering
import IrRecords.Proofs.Token.Names

/-!
# What operands are shown as

An operand that refers to a value is shown as a reference to this value, and the tokens of what is
shown say so (`renderings_of_read`). Whatever can be referred to has either a name or a slot, because
the places that can be referred to are those of the definitions with an identifier
(`LaidOut.isLocal_iff`) and those of globals.

There is one gap. The empty name is taken for no name at all, so that what is called `%""` or `@""`
is shown as `<badref>`; no other reference is.
-/

namespace IrRecords

/-! ## References -/

/-- A reference to the identifier behind a sigil, where the empty name is none. -/
def Ident.reference (id : Ident) (sigil : Char) : String :=
  if id = .named "" then Value.badReference else sigil.toString ++ id.spelling

/-- The token of a reference to the identifier. -/
def Origin.referenceKind (origin : Origin) (id : Ident) : TokenKind :=
  match origin with
  | .global => .globalRef id
  | _ => .localRef id

/-- The value has this identifier and is shown as a reference to it. -/
structure Value.RefersAs (v : Value) (id : Ident) : Prop where
  shows : v.Shows id
  /-- What is shown is one token. Slots are numbers of 32 bits, as all numbers behind sigils are. -/
  reads : id ≠ .named "" → (∀ n, id = .slot n → n < Text.bound32) →
    Token.kinds v.rendering = .ok [v.origin.referenceKind id, .eof]
  bad : v.rendering = Value.badReference ↔ id = .named ""

variable {v w : Value} {id id' : Ident} {sigil : Char}

theorem Value.Shows.reference_eq (h : v.Shows id) : v.reference sigil = id.reference sigil := by
  obtain ⟨hname, hslot⟩ := h
  rw [Value.reference, Ident.reference, hname, hslot]
  cases id with
  | named name =>
    by_cases hempty : name = ""
    · rw [hempty]
      rfl
    · rw [Ident.name, if_pos hempty, if_neg fun h => hempty (Ident.named.inj h)]
      rfl
  | slot n => rfl

/-- A sigil tells references from what cannot be referred to. -/
theorem Ident.reference_eq_bad_iff (hsigil : sigil ≠ '<') :
    id.reference sigil = Value.badReference ↔ id = .named "" := by
  rw [Ident.reference]
  by_cases hid : id = .named ""
  · rw [if_pos hid]
    exact iff_of_true rfl hid
  · rw [if_neg hid]
    refine iff_of_false (fun h => ?_) hid
    have hfirst := congrArg (fun text => text.toList.head?) h
    rw [String.toList_append, Char.toString, String.toList_singleton] at hfirst
    exact hsigil (Option.some.inj hfirst)

theorem Ident.eq_of_reference_eq (hsigil : sigil ≠ '<') (h : id.reference sigil = id'.reference sigil) :
    id = id' := by
  by_cases hid : id = .named ""
  · rw [(reference_eq_bad_iff hsigil).mpr hid] at h
    rw [hid, (reference_eq_bad_iff hsigil).mp h.symm]
  · have hid' : id' ≠ .named "" := by
      intro hid'
      rw [(reference_eq_bad_iff hsigil).mpr hid'] at h
      exact hid ((reference_eq_bad_iff hsigil).mp h)
    rw [Ident.reference, Ident.reference, if_neg hid, if_neg hid'] at h
    exact Ident.eq_of_spelling_eq ((String.append_right_inj _).mp h)

/-- The sigil that references to a value of this origin have. -/
theorem Value.Shows.rendering_eq (h : v.Shows id) (hconstant : ∀ text, v.origin ≠ .constant text) :
    v.rendering = id.reference (if v.origin = .global then '@' else '%') := by
  rw [← h.reference_eq, Value.rendering]
  cases horigin : v.origin with
  | constant text => exact absurd horigin (hconstant text)
  | global => rfl
  | argument | instruction | block => rfl

/-- **A value with an identifier is shown as a reference to it.** -/
theorem Value.Shows.refersAs (h : v.Shows id) (hconstant : ∀ text, v.origin ≠ .constant text) :
    v.RefersAs id where
  shows := h
  reads hne hid := by
    rw [h.rendering_eq hconstant, Ident.reference, if_neg hne]
    cases horigin : v.origin with
    | constant text => exact absurd horigin (hconstant text)
    | global => exact Token.kinds_global hid
    | argument | instruction | block => exact Token.kinds_local hid
  bad := by
    rw [h.rendering_eq hconstant]
    refine Ident.reference_eq_bad_iff ?_
    split <;> decide

/-! ## What can be referred to -/

namespace Function

/-- The value at a place is an argument, the label of a block, or a result that is not void. -/
inductive IsLocal (f : Function) : ValueId → Prop
  | argument {a : ValueId} (ha : a ∈ f.args) : f.IsLocal a
  | label {b : Block} (hb : b ∈ f.blocks) : f.IsLocal b.label
  | result {i : Instr} {v : Value} (hi : i ∈ f.instrs) (hv : f.values[i.result]? = some v)
      (hty : v.ty ≠ .void) : f.IsLocal i.result

/-- The value at a place is a global that is an operand. -/
def IsGlobal (f : Function) (a : ValueId) : Prop :=
  (∃ i ∈ f.instrs, a ∈ i.operands) ∧ ∃ v, f.values[a]? = some v ∧ v.origin = .global

/-- What is shown of the operands of the function. -/
structure ShowsReferences (f : Function) : Prop where
  /-- Whatever can be referred to is shown as a reference to it. -/
  refers : ∀ a, f.IsLocal a ∨ f.IsGlobal a → ∃ v id, f.values[a]? = some v ∧ v.RefersAs id
  /-- Operands are what can be referred to, and constants. -/
  operands : ∀ i ∈ f.instrs, ∀ a ∈ i.operands,
    (f.IsLocal a ∨ f.IsGlobal a) ∨ ∃ v text, f.values[a]? = some v ∧ v.origin = .constant text
  /-- No two arguments, labels or results are shown alike. -/
  apart : ∀ a b v w, f.IsLocal a → f.IsLocal b → f.values[a]? = some v → f.values[b]? = some w →
    v.rendering = w.rendering → a = b

end Function

namespace Draft

variable {d : Draft} {f : Function} {a : ValueId}

/-- An argument, a label or a result that is not void is defined with an identifier. -/
theorem LaidOut.exists_definition_of_isLocal (h : LaidOut d f) (hd : d.WellFormed) (ha : f.IsLocal a) :
    ∃ x id, d.definitions[a]? = some x ∧ x.id? = some id := by
  cases ha with
  | argument ha =>
    rw [h.args, List.mem_range] at ha
    have hparam : d.params.toList[a]? = some d.params[a] := by
      rw [Array.getElem?_toList, Array.getElem?_eq_getElem ha]
    have harg : d.argDefinitions[a]?
        = some ⟨some d.params[a].id, d.params[a].ty, .argument a, d.params[a].position⟩ := by
      rw [argDefinitions, List.getElem?_mapIdx, hparam]
      rfl
    exact ⟨_, _, definitions_getElem?_arg harg, rfl⟩
  | label hb =>
    obtain ⟨n, hn⟩ := Array.mem_iff_getElem?.mp hb
    have hlt : n < d.blocks.size := by
      rw [← h.size_blocks]
      exact (Array.getElem?_eq_some_iff.mp hn).1
    rw [h.label_eq hn]
    exact ⟨_, _, definitions_getElem?_label (Array.getElem?_eq_getElem hlt), rfl⟩
  | @result i v hi hv hty =>
    obtain ⟨n, hn⟩ := Array.mem_iff_getElem?.mp hi
    obtain ⟨s, hs, -, hvalue⟩ := h.value_of_result hn
    rw [hv, Option.some.injEq] at hvalue
    subst hvalue
    have hresult : s.result? ≠ none := fun hnone =>
      hty ((hd s (List.mem_of_getElem? hs)).result.mp hnone)
    obtain ⟨id, hid⟩ := Option.ne_none_iff_exists'.mp hresult
    rw [h.result_eq hn]
    exact ⟨_, id, definitions_getElem?_result hs, hid⟩

/-- What is defined with an identifier is an argument, a label or a result that is not void. -/
theorem LaidOut.isLocal_of_definition (h : LaidOut d f) (hd : d.WellFormed) {x : Definition} {id : Ident}
    (hx : d.definitions[a]? = some x) (hid : x.id? = some id) : f.IsLocal a := by
  have hlt := (List.getElem?_eq_some_iff.mp hx).1
  rw [length_definitions] at hlt
  -- The definitions are the arguments, the labels and the results, in this order.
  rcases Nat.lt_or_ge a d.params.size with hargs | hargs
  · refine .argument ?_
    rw [h.args, List.mem_range]
    exact hargs
  rcases Nat.lt_or_ge a (d.params.size + d.blocks.size) with hlabels | hlabels
  · obtain ⟨n, rfl⟩ := Nat.exists_eq_add_of_le hargs
    have hn : n < f.blocks.size := by
      rw [h.size_blocks]
      omega
    rw [← h.label_eq (Array.getElem?_eq_getElem hn)]
    exact .label (Array.getElem_mem hn)
  · obtain ⟨n, rfl⟩ := Nat.exists_eq_add_of_le hlabels
    have hn : n < f.instrs.size := by
      rw [h.size_instrs]
      omega
    have hi : f.instrs[n]? = some f.instrs[n] := Array.getElem?_eq_getElem hn
    obtain ⟨s, hs, -, hvalue⟩ := h.value_of_result hi
    rw [definitions_getElem?_result hs, Option.some.injEq] at hx
    subst hx
    rw [← h.result_eq hi]
    refine .result (Array.getElem_mem hn) hvalue fun hvoid => ?_
    have hnone := (hd s (List.mem_of_getElem? hs)).result.mpr hvoid
    rw [show s.result? = some id from hid] at hnone
    cases hnone

/-- A void result has no identifier, and every other definition has one. -/
theorem LaidOut.isLocal_iff (h : LaidOut d f) (hd : d.WellFormed) :
    f.IsLocal a ↔ ∃ x id, d.definitions[a]? = some x ∧ x.id? = some id :=
  ⟨h.exists_definition_of_isLocal hd, fun ⟨_, _, hx, hid⟩ => h.isLocal_of_definition hd hx hid⟩

/-- The value of a definition with an identifier. -/
theorem Definition.shows {x : Definition} (hid : x.id? = some id) : x.value.Shows id := by
  rw [Definition.value, hid]
  exact ⟨rfl, rfl⟩

theorem LaidOut.exists_shows (h : LaidOut d f) (hd : d.WellFormed) (ha : f.IsLocal a) :
    ∃ x id, d.definitions[a]? = some x ∧ x.id? = some id ∧ f.values[a]? = some x.value
      ∧ x.value.Shows id ∧ (∀ text, x.value.origin ≠ .constant text) ∧ x.value.origin ≠ .global := by
  obtain ⟨x, id, hx, hid⟩ := (h.isLocal_iff hd).mp ha
  exact ⟨x, id, hx, hid, h.value_of_definition hx, Definition.shows hid,
    origin_of_definition (List.mem_of_getElem? hx)⟩

/-- **No two local values are shown alike**, because no two definitions have one identifier. -/
theorem LaidOut.eq_of_rendering_eq (h : LaidOut d f) (hd : d.WellFormed) {b : ValueId}
    (ha : f.IsLocal a) (hb : f.IsLocal b) (hv : f.values[a]? = some v) (hw : f.values[b]? = some w)
    (heq : v.rendering = w.rendering) : a = b := by
  obtain ⟨x, id, hx, hid, hvalue, hshows, hconstant, hglobal⟩ := h.exists_shows hd ha
  obtain ⟨y, id', hy, hid', hvalue', hshows', hconstant', hglobal'⟩ := h.exists_shows hd hb
  rw [hv, Option.some.injEq] at hvalue
  rw [hw, Option.some.injEq] at hvalue'
  rw [hvalue, hvalue', hshows.rendering_eq hconstant, hshows'.rendering_eq hconstant', if_neg hglobal,
    if_neg hglobal'] at heq
  obtain rfl := Ident.eq_of_reference_eq (by decide) heq
  exact eq_place_of_id? h.distinct hx hy hid hid'

/-- An operand that is no reference is a constant or a global. -/
theorem LaidOut.operand_cases (h : LaidOut d f) (hd : d.WellFormed) {i : IrRecords.Instr}
    (hi : i ∈ f.instrs) (ha : a ∈ i.operands) : (f.IsLocal a ∨ f.IsGlobal a)
      ∨ ∃ v text, f.values[a]? = some v ∧ v.origin = .constant text := by
  obtain ⟨s, hs, hsi⟩ := exists_left_of_forall₂ h.instrs (Array.mem_toList_iff.mpr hi)
  obtain ⟨o, ho, hresolves⟩ := exists_left_of_forall₂ hsi.operands ha
  cases hresolves with
  | reference hx hid _ => exact .inl (.inl ((h.isLocal_iff hd).mpr ⟨_, _, hx, hid⟩))
  | @known value _ _ hvalue =>
    have houter : value.Outer := (hd s hs).instr.outer _ ho
    rcases houter with ⟨text, horigin⟩ | horigin
    · exact .inr ⟨value, text, hvalue, horigin⟩
    · exact .inl (.inr ⟨⟨i, hi, ha⟩, value, hvalue, horigin⟩)

end Draft

/-! ## Modules -/

namespace Module

variable {source : String} {m : Module} {f : Function}

/-- A global has the identifier that the text gives. -/
theorem exists_shows_of_isGlobal (h : (Module.read source).result = .ok m) (hf : f ∈ m.functions)
    {a : ValueId} (ha : f.IsGlobal a) :
    ∃ v id, f.values[a]? = some v ∧ v.Shows id ∧ v.origin = .global := by
  obtain ⟨d, hlaid, hresolves⟩ := exists_resolves_of_read h hf
  obtain ⟨⟨i, hi, hai⟩, v, hv, horigin⟩ := ha
  obtain ⟨o, ho, hoa⟩ := hresolves i hi a hai
  refine ⟨v, ?_⟩
  cases hoa with
  | reference hx _ _ =>
    rw [hlaid.value_of_definition hx, Option.some.injEq] at hv
    subst hv
    exact absurd horigin (Draft.origin_of_definition (List.mem_of_getElem? hx)).2
  | known _ hvalue =>
    rw [hvalue, Option.some.injEq] at hv
    subst hv
    rcases ho with ⟨slice, hslice, _⟩ | ho
    · cases hslice with
      | @global _ id => exact ⟨id, hvalue, ⟨rfl, rfl⟩, horigin⟩
      | constant => cases horigin
      | metadata => cases horigin
    · cases ho
      cases horigin

/-- **Whatever can be referred to is shown as a reference to it**, except what has the empty name. -/
theorem renderings_of_read (h : (Module.read source).result = .ok m) (hf : f ∈ m.functions) :
    f.ShowsReferences := by
  obtain ⟨d, hd, hfinish⟩ := (read_spec h).1 f hf
  have hlaid := Draft.finish_spec hfinish
  refine ⟨fun a ha => ?_, fun i hi a ha => hlaid.operand_cases hd hi ha,
    fun a b v w ha hb hv hw => hlaid.eq_of_rendering_eq hd ha hb hv hw⟩
  rcases ha with hlocal | hglobal
  · obtain ⟨x, id, _, _, hv, hshows, hconstant, _⟩ := hlaid.exists_shows hd hlocal
    exact ⟨x.value, id, hv, hshows.refersAs hconstant⟩
  · obtain ⟨v, id, hv, hshows, horigin⟩ := exists_shows_of_isGlobal h hf hglobal
    refine ⟨v, id, hv, hshows.refersAs fun text hconstant => ?_⟩
    rw [horigin] at hconstant
    cases hconstant

/-- Arguments with a number, with a name and with the empty name. -/
theorem renderings_of_read_lookalike : ∃ m f, (Module.read lookalikeSource).result = .ok m
    ∧ m.functions = [f] ∧ f.ShowsReferences
    ∧ f.args.map (fun a => (f.values[a]?).map (·.rendering))
      = [some "%0", some "%x", some "<badref>"] := by
  have hread : ((Module.read lookalikeSource).result.toOption.map fun m =>
      m.functions.map fun f => f.args.map fun a => (f.values[a]?).map (·.rendering))
      = some [[some "%0", some "%x", some "<badref>"]] := by decide +kernel
  obtain ⟨m, hm, hread⟩ := exists_ok_of_toOption hread
  obtain ⟨f, hf, hargs⟩ := List.map_eq_singleton_iff.mp hread
  have hmem : f ∈ m.functions := by rw [hf]; exact List.mem_singleton_self f
  exact ⟨m, f, hm, hf, renderings_of_read hm hmem, hargs⟩

end Module

end IrRecords
