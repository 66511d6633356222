import IrRecords.Proofs.Draft.Resolving
import IrRecords.Proofs.Function.Typed
import IrRecords.Proofs.Listing.Blocks

/-!
# Laying out the draft of a listing

The draft of a well-formed listing is laid out without fault (`exists_finish`), because the names
of the listing are distinct and each of them is used at the type that it is defined at. The function
has the outline of the listing, as it was read (`outline?_of_laidOut`): the place of an operand
leads to the value that the operand names, whether it is defined further up or further down.
-/

namespace IrRecords

namespace Listing

open Draft (identsOf resolveOperand resolveOperands resolveLabel resolveDetail resolveStatements)

/-! ## The definitions of a listing -/

variable {l : Listing} {d : Draft}

theorem ReadAs.statements (hd : l.ReadAs d) :
    List.Forall₂ Statement.ReadAs l.statements d.statements :=
  List.rel_flatMap hd.blocks fun _ _ hb => hb.statements

/-- The draft defines what the listing defines. -/
theorem ReadAs.entries (hd : l.ReadAs d) : d.definitions.filterMap Draft.Definition.entry?
    = l.definitions.map fun e => (.named e.1, e.2) := by
  have hparams : d.params.toList.map (fun p => (p.id, p.ty))
      = l.params.map fun e => (.named e.1, e.2) :=
    map_eq_of_forall₂ hd.params fun _ _ hp => by rw [hp.id, hp.ty]
  have hblocks : d.blocks.toList.map (fun b => (b.id, Ty.label))
      = l.blocks.map fun b => (.named b.name, .label) :=
    map_eq_of_forall₂ hd.blocks fun _ _ hb => by rw [hb.id]
  have hresults : d.statements.filterMap (fun s => s.result?.map (·, s.instr.ty))
      = l.statements.filterMap fun s => s.result?.map fun name => (.named name, s.form.ty) := by
    refine filterMap_eq_of_forall₂ hd.statements fun s r hs => ?_
    rw [hs.result, hs.instr.ty, Form.asRead_ty, Option.map_map]
    rfl
  rw [Draft.entries_definitions, Draft.entries, hparams, hblocks, hresults, definitions, List.map_append,
    List.map_append, List.map_map, List.map_filterMap]
  simp only [Option.map_map]
  rfl

theorem ReadAs.distinct (hd : l.ReadAs d) (hl : l.WellFormed) :
    (identsOf d.definitions).Nodup := by
  have hidents : identsOf d.definitions = (l.definitions.map (·.1)).map .named := by
    rw [Draft.identsOf_eq, hd.entries, List.map_map, List.map_map]
    rfl
  rw [hidents]
  exact List.Pairwise.map _ (fun _ _ hne h => hne (Ident.named.inj h)) hl.distinct

/-- A name of the listing leads to its definition. -/
theorem ReadAs.exists_locate (hd : l.ReadAs d) (hl : l.WellFormed) {name : String} {ty : Ty}
    (h : (name, ty) ∈ l.definitions) :
    ∃ place definition, Draft.locate d.definitions (.named name) = some place
      ∧ d.definitions[place]? = some definition ∧ definition.id? = some (.named name)
      ∧ definition.ty = ty := by
  refine Draft.exists_locate ?_ (hd.distinct hl)
  rw [hd.entries]
  exact List.mem_map.mpr ⟨(name, ty), h, rfl⟩

/-! ## Resolving -/

theorem exists_resolveOperand (hd : l.ReadAs d) (hl : l.WellFormed) {u : Use} {o : Draft.Operand}
    (hu : u.WellFormed l.definitions) (ho : u.ReadAs o) (values : Array Value) :
    ∃ r, resolveOperand d.definitions values o = .ok r := by
  cases ho with
  | numeral => exact ⟨_, rfl⟩
  | reference =>
    obtain ⟨place, definition, hlocate, hplace, _, hty⟩ := hd.exists_locate hl hu
    simp only [resolveOperand, hlocate, hplace, if_pos hty]
    exact ⟨_, rfl⟩

theorem exists_resolveOperands (hd : l.ReadAs d) (hl : l.WellFormed) {us : List Use}
    {os : List Draft.Operand} (hus : ∀ u ∈ us, u.WellFormed l.definitions)
    (h : List.Forall₂ Use.ReadAs us os) (values : Array Value) :
    ∃ r, resolveOperands d.definitions values os = .ok r := by
  induction h generalizing values with
  | nil => exact ⟨_, rfl⟩
  | cons ho _ ih =>
    rw [List.forall_mem_cons] at hus
    obtain ⟨⟨place, values₁⟩, hfirst⟩ := exists_resolveOperand hd hl hus.1 ho values
    obtain ⟨⟨places, values₂⟩, hrest⟩ := ih hus.2 values₁
    rw [resolveOperands, hfirst]
    simp only [Bind.bind, Except.bind, hrest]
    exact ⟨_, rfl⟩

/-- The result of an instruction is no block. -/
theorem Statement.WellFormed.ty_ne_label {defs : List (String × Ty)} {s : Statement}
    (h : s.WellFormed defs) : s.form.ty ≠ .label := by
  have htypes := h.types
  obtain ⟨result?, form⟩ := s
  dsimp only at htypes ⊢
  cases form with
  | compare p ty lhs rhs => cases ty <;> simp [Form.ty, Ty.reshape]
  | store value address => simp [Form.ty]
  | br block => simp [Form.ty]
  | condBr condition yes no => simp [Form.ty]
  | switch condition otherwise cases => simp [Form.ty]
  | ret value? => simp [Form.ty]
  | _ =>
    refine (htypes _ ?_).2.2.1
    simp [Form.types, Form.ty]

/-- A definition of type `label` is a block, and its place among the blocks leads to its name. -/
theorem ReadAs.block_of_label (hd : l.ReadAs d) (hl : l.WellFormed) {name : String}
    {definition : Draft.Definition} (hmem : definition ∈ d.definitions)
    (hid : definition.id? = some (.named name)) (hty : definition.ty = .label) :
    ∃ n, definition.origin = .block n ∧ (l.blocks[n]?).map (·.name) = some name := by
  rw [Draft.definitions, List.mem_append, List.mem_append] at hmem
  rcases hmem with (hmem | hmem) | hmem
  · -- An argument is no block.
    rw [Draft.argDefinitions, List.mem_mapIdx] at hmem
    obtain ⟨n, hn, rfl⟩ := hmem
    have hn' : n < l.params.length := by rw [hd.params.length_eq]; exact hn
    have hparam := hd.params.get hn' hn
    exact absurd (hparam.ty.symm.trans hty) (hl.params _ (List.getElem_mem hn')).2.2.1
  · -- A label stands in the draft where its block stands in the listing.
    rw [Draft.labelDefinitions, List.mem_mapIdx] at hmem
    obtain ⟨n, hn, rfl⟩ := hmem
    have hn' : n < l.blocks.length := by rw [hd.blocks.length_eq]; exact hn
    have hblock := hd.blocks.get hn' hn
    refine ⟨n, rfl, ?_⟩
    have hname := hblock.id.symm.trans (Option.some.inj hid)
    rw [List.getElem?_eq_getElem hn']
    exact congrArg some (Ident.named.inj hname)
  · -- Neither is a result.
    rw [Draft.resultDefinitions, List.mem_mapIdx] at hmem
    obtain ⟨n, hn, rfl⟩ := hmem
    have hn' : n < l.statements.length := by rw [hd.statements.length_eq]; exact hn
    have hresult := hd.statements.get hn' hn
    have hlabel := hresult.instr.ty.symm.trans hty
    rw [Form.asRead_ty] at hlabel
    exact absurd hlabel (hl.statements _ (List.getElem_mem hn')).ty_ne_label

/-- A label is resolved to the place of its block. -/
theorem exists_resolveLabel (hd : l.ReadAs d) (hl : l.WellFormed) {name : String}
    (h : (name, .label) ∈ l.definitions) (p : Position) :
    ∃ n, resolveLabel d.definitions (.named name, p) = .ok n
      ∧ (l.blocks[n]?).map (·.name) = some name := by
  obtain ⟨place, definition, hlocate, hplace, hid, hty⟩ := hd.exists_locate hl h
  obtain ⟨n, horigin, hname⟩ := hd.block_of_label hl (List.mem_of_getElem? hplace) hid hty
  refine ⟨n, ?_, hname⟩
  obtain ⟨id?, ty, origin, position⟩ := definition
  dsimp only at horigin
  subst horigin
  simp only [resolveLabel, hlocate, Option.bind_some, hplace]

theorem exists_mapM_resolveLabel (hd : l.ReadAs d) (hl : l.WellFormed)
    {incoming : List (Ident × Position)} {names : List String}
    (h : incoming.map (·.1) = names.map .named)
    (hnames : ∀ name ∈ names, (name, .label) ∈ l.definitions) :
    ∃ blocks, incoming.mapM (resolveLabel d.definitions) = .ok blocks
      ∧ blocks.mapM (fun n => (l.blocks[n]?).map (·.name)) = some names := by
  induction incoming generalizing names with
  | nil =>
    obtain rfl := List.map_eq_nil_iff.mp h.symm
    exact ⟨[], rfl, rfl⟩
  | cons label rest ih =>
    obtain ⟨id, p⟩ := label
    cases names with
    | nil => cases h
    | cons name names =>
      rw [List.map_cons, List.map_cons, List.cons.injEq] at h
      rw [List.forall_mem_cons] at hnames
      obtain ⟨rfl, hrest⟩ := h
      obtain ⟨n, hn, hname⟩ := exists_resolveLabel hd hl hnames.1 p
      obtain ⟨ns, hns, hmore⟩ := ih hrest hnames.2
      refine ⟨n :: ns, ?_, ?_⟩
      · simp only [List.mapM_cons, hn, hns, Bind.bind, Except.bind]
        rfl
      · simp only [List.mapM_cons, hname, hmore, Bind.bind, Option.bind]
        rfl

theorem exists_resolveDetail (hd : l.ReadAs d) (hl : l.WellFormed) {form : Form}
    {detail : Draft.Detail} (h : form.Holds detail)
    (hnames : ∀ name ∈ form.incoming, (name, .label) ∈ l.definitions) :
    ∃ detail', resolveDetail d.definitions detail = .ok detail'
      ∧ detail'.predicate? = form.predicate?
      ∧ detail'.incoming? (fun n => (l.blocks[n]?).map (·.name)) = some form.incoming := by
  cases form with
  | phi ty edges =>
    obtain ⟨incoming, rfl, hincoming⟩ := h
    have hlabels : incoming.map (·.1) = (edges.map (·.2)).map .named := by
      rw [hincoming, List.map_map]
      rfl
    obtain ⟨blocks, hblocks, hmapM⟩ := exists_mapM_resolveLabel hd hl hlabels hnames
    refine ⟨.phi blocks, ?_, rfl, hmapM⟩
    simp only [resolveDetail, hblocks, Bind.bind, Except.bind]
    rfl
  | _ =>
    obtain rfl := h
    exact ⟨_, rfl, rfl, rfl⟩

/-- What is read of a well-formed statement is well-formed. -/
theorem Statement.WellFormed.asRead {defs : List (String × Ty)} {s : Statement}
    (h : s.WellFormed defs) : s.asRead.WellFormed defs := by
  have hresult : s.result? = none ↔ s.form.asRead.ty = .void := by
    rw [Form.asRead_ty]
    exact h.result
  rcases s.form.asRead_cases with hread | ⟨_, hread⟩
  · rw [Statement.asRead, hread]
    exact h
  · refine ⟨hresult, ?_, ?_, ?_⟩
    all_goals
      rw [Statement.asRead, hread]
      exact List.forall_mem_nil _

theorem exists_resolveStatements (hd : l.ReadAs d) (hl : l.WellFormed) {ss : List Statement}
    {rs : List Draft.Statement} (hss : ∀ s ∈ ss, s.WellFormed l.definitions)
    (h : List.Forall₂ Statement.ReadAs ss rs) (result : ValueId) (values : Array Value) :
    ∃ r, resolveStatements d.definitions result values rs = .ok r := by
  induction h generalizing result values with
  | nil => exact ⟨_, rfl⟩
  | cons hs _ ih =>
    rw [List.forall_mem_cons] at hss
    have hread := hss.1.asRead
    obtain ⟨⟨places, values₁⟩, hoperands⟩ :=
      exists_resolveOperands hd hl hread.uses hs.instr.operands values
    obtain ⟨detail, hdetail, _⟩ := exists_resolveDetail hd hl hs.instr.detail hread.incoming
    obtain ⟨⟨instrs, values₂⟩, hrest⟩ := ih hss.2 (result + 1) values₁
    rw [resolveStatements, hoperands]
    simp only [Bind.bind, Except.bind, hdetail, hrest]
    exact ⟨_, rfl⟩

/-- **The draft of a well-formed listing can be laid out.** -/
theorem exists_finish (hd : l.ReadAs d) (hl : l.WellFormed) : ∃ f, d.finish = .ok f := by
  have hdistinct := Draft.checkDistinct_of_nodup (hd.distinct hl) fun _ _ => List.not_mem_nil
  obtain ⟨⟨instrs, values⟩, hstatements⟩ := exists_resolveStatements hd hl hl.statements
    hd.statements (d.params.size + d.blocks.size) (d.definitions.map (·.value)).toArray
  unfold Draft.finish
  simp only [Bind.bind, Except.bind, hdistinct, hstatements]
  exact ⟨_, rfl⟩

/-! ## Outlines -/

section Outline

variable {f : Function}

/-- A definition stands for an argument, a block or a result. -/
theorem origin_of_mem_definitions {definition : Draft.Definition} (h : definition ∈ d.definitions) :
    (∃ n, definition.origin = .argument n) ∨ (∃ n, definition.origin = .block n)
      ∨ ∃ n, definition.origin = .instruction n := by
  have horigin : definition.origin ∈ d.definitions.map (·.origin) :=
    List.mem_map.mpr ⟨definition, h, rfl⟩
  simp only [Draft.definitions_origin, List.mem_append, List.mem_map] at horigin
  rcases horigin with (⟨n, _, hn⟩ | ⟨n, _, hn⟩) | ⟨n, _, hn⟩
  · exact .inl ⟨n, hn.symm⟩
  · exact .inr (.inl ⟨n, hn.symm⟩)
  · exact .inr (.inr ⟨n, hn.symm⟩)

/-- A definition that has a name is a use of this name. -/
theorem of?_of_definition {definition : Draft.Definition} {name : String}
    (h : definition ∈ d.definitions) (hid : definition.id? = some (.named name)) (hne : name ≠ "") :
    Use.of? definition.value = some ⟨definition.ty, .reference name⟩ := by
  rw [Use.of?, Draft.Definition.value, hid]
  rcases origin_of_mem_definitions h with ⟨n, hn⟩ | ⟨n, hn⟩ | ⟨n, hn⟩
  all_goals
    rw [hn]
    exact if_neg hne

theorem WellFormed.name_ne (hl : l.WellFormed) {name : String} {ty : Ty}
    (h : (name, ty) ∈ l.definitions) : name ≠ "" := by
  have hempty : ¬ Token.IsWord "".toList := by decide
  rintro rfl
  exact hempty (hl.names _ h)

/-- The place of an operand leads to what the operand was read from. -/
theorem use_of_resolves (hl : l.WellFormed) (hf : Draft.LaidOut d f) {u : Use} {o : Draft.Operand}
    {place : ValueId} (hu : u.WellFormed l.definitions) (ho : u.ReadAs o)
    (hplace : Draft.Resolves d.definitions f.values o place) :
    f.values[place]? >>= Use.of? = some u := by
  cases ho with
  | numeral =>
    cases hplace with
    | known _ hvalue => rw [hvalue]; rfl
  | reference =>
    cases hplace with
    | reference hdefinition hid hty =>
      rw [hf.value_of_definition hdefinition]
      refine (of?_of_definition (List.mem_of_getElem? hdefinition) hid (hl.name_ne hu)).trans ?_
      rw [hty]

theorem uses_of_resolves (hl : l.WellFormed) (hf : Draft.LaidOut d f) {us : List Use}
    {os : List Draft.Operand} {places : List ValueId} (hus : ∀ u ∈ us, u.WellFormed l.definitions)
    (hos : List.Forall₂ Use.ReadAs us os)
    (hplaces : List.Forall₂ (Draft.Resolves d.definitions f.values) os places) :
    places.mapM (fun id => f.values[id]? >>= Use.of?) = some us := by
  induction hos generalizing places with
  | nil => cases hplaces; rfl
  | cons ho _ ih =>
    cases hplaces with
    | cons hplace hrest =>
      rw [List.forall_mem_cons] at hus
      rw [List.mapM_cons, use_of_resolves hl hf hus.1 ho hplace, ih hus.2 hrest]
      rfl

/-- The names of the blocks of the function are those of the listing. -/
theorem block_name (hd : l.ReadAs d) (hf : Draft.LaidOut d f) (n : Nat) :
    (f.blocks[n]?).map (·.name) = (l.blocks[n]?).map (·.name) := by
  have hnames : f.blocks.toList.map (·.name) = l.blocks.map (·.name) := by
    rw [hf.blocks, Draft.layBlocks_name]
    exact map_eq_of_forall₂ hd.blocks fun _ _ hb => by rw [hb.id]; rfl
  have hn := congrArg (·[n]?) hnames
  simpa only [List.getElem?_map, Array.getElem?_toList] using hn

/-- An instruction has the outline of its statement. -/
theorem instrOutline?_eq (hd : l.ReadAs d) (hl : l.WellFormed) (hf : Draft.LaidOut d f) {n : Nat}
    {s : Statement} (hs : l.statements[n]? = some s) :
    (f.instrs[n]? >>= f.instrOutline?) = some s.asRead.outline := by
  have hn : n < l.statements.length := (List.getElem?_eq_some_iff.mp hs).1
  have hwf : s.WellFormed l.definitions := hl.statements s (List.mem_of_getElem? hs)
  have hsize : n < f.instrs.size := by
    rw [hf.size_instrs, ← hd.statements.length_eq]
    exact hn
  obtain ⟨r, hr, hdescribes, hvalue⟩ := hf.value_of_result (Array.getElem?_eq_getElem hsize)
  have hread : s.ReadAs r := by
    obtain ⟨hn', hr⟩ := List.getElem?_eq_some_iff.mp hr
    rw [← (List.getElem?_eq_some_iff.mp hs).2, ← hr]
    exact hd.statements.get hn hn'
  have huses := uses_of_resolves hl hf hwf.asRead.uses hread.instr.operands hdescribes.operands
  obtain ⟨detail, hdetail, hpredicate, hincoming⟩ :=
    exists_resolveDetail hd hl hread.instr.detail hwf.asRead.incoming
  cases hdescribes.detail.symm.trans hdetail
  have hnames : (fun n : BlockId => (f.blocks[n]?).map (·.name))
      = fun n => (l.blocks[n]?).map (·.name) :=
    funext (block_name hd hf)
  rw [Array.getElem?_eq_getElem hsize, Option.bind_eq_bind, Option.bind_some,
    Function.instrOutline?, hvalue, huses, hnames, hincoming]
  -- A void instruction has no name, and any other has the name of its statement.
  have hresult : (if r.instr.ty = .void then none
      else some ((r.result?.map Ident.name).getD "")) = s.result? := by
    have hvoid := hwf.asRead.result
    rw [hread.result, hread.instr.ty]
    cases hname : s.result? with
    | none => exact if_pos (hvoid.mp hname)
    | some name => exact if_neg fun h => by cases hname.symm.trans (hvoid.mpr h)
  change some (Outline.Instr.mk (if r.instr.ty = .void then none
      else some ((r.result?.map Ident.name).getD "")) f.instrs[n].opcode r.instr.ty
    s.form.asRead.uses f.instrs[n].detail.predicate? s.form.asRead.incoming) = _
  rw [hresult, hdescribes.opcode, hread.instr.opcode, hread.instr.ty, hpredicate]
  rfl

/-- A walk along a row of places that are known one by one. -/
theorem mapM_range' {α : Type} {g : Nat → Option α} {xs : List α} {start : Nat}
    (h : ∀ n x, xs[n]? = some x → g (start + n) = some x) :
    (List.range' start xs.length).mapM g = some xs := by
  induction xs generalizing start with
  | nil => rfl
  | cons x xs ih =>
    have hfirst : g start = some x := h 0 x rfl
    have hrest : (List.range' (start + 1) xs.length).mapM g = some xs := by
      refine ih fun n y hy => ?_
      have hnext := h (n + 1) y hy
      rwa [Nat.add_comm n 1, ← Nat.add_assoc] at hnext
    rw [List.length_cons, List.range'_succ, List.mapM_cons, hfirst, hrest]
    rfl

/-- The blocks of the function take their instructions from one row, one block after the other. -/
theorem mapM_layBlocks {g : InstrId → Option Outline.Instr} {blocks : List Block}
    {rs : List Draft.Block} (h : List.Forall₂ Block.ReadAs blocks rs) (label start : Nat)
    (hg : ∀ n s, (blocks.flatMap (·.statements))[n]? = some s →
      g (start + n) = some s.asRead.outline) :
    (Draft.layBlocks label start rs).mapM (fun b => do return (b.name, ← b.instrs.mapM g))
      = some (blocks.map fun b => (b.name, b.asRead.statements.map Statement.outline)) := by
  induction h generalizing label start with
  | nil => rfl
  | @cons b r blocks rs hb _ ih =>
    have hsize : r.statements.size = b.statements.length := by
      rw [hb.statements.length_eq, Array.length_toList]
    have hlength : r.statements.size = (b.asRead.statements.map Statement.outline).length := by
      rw [hsize, Block.asRead, List.length_map, List.length_map]
    -- The places of the first block come first in the row.
    have hfirst : (List.range' start r.statements.size).mapM g
        = some (b.asRead.statements.map Statement.outline) := by
      rw [hlength]
      refine mapM_range' fun n i hi => ?_
      rw [Block.asRead, List.map_map, List.getElem?_map, Option.map_eq_some_iff] at hi
      obtain ⟨s, hs, rfl⟩ := hi
      apply hg n s
      rw [List.flatMap_cons, List.getElem?_append_left (List.getElem?_eq_some_iff.mp hs).1]
      exact hs
    have hrest := ih (label + 1) (start + r.statements.size) fun n s hs => by
      rw [Nat.add_assoc]
      apply hg _ s
      rw [List.flatMap_cons, hsize, List.getElem?_append_right (Nat.le_add_right _ _),
        Nat.add_sub_cancel_left]
      exact hs
    rw [Draft.layBlocks, List.mapM_cons, hrest]
    dsimp only
    rw [hfirst, hb.id]
    rfl

/-- The place of a parameter leads to its name and its type. -/
theorem param_of_laidOut (hd : l.ReadAs d) (hf : Draft.LaidOut d f) {n : Nat} {p : String × Ty}
    (hp : l.params[n]? = some p) : (f.values[n]?).map (fun v => (v.name, v.ty)) = some p := by
  obtain ⟨hn, hp⟩ := List.getElem?_eq_some_iff.mp hp
  have hn' : n < d.params.toList.length := by rw [← hd.params.length_eq]; exact hn
  have hread := hd.params.get hn hn'
  have hplace : d.definitions[n]? = some ⟨some d.params.toList[n].id, d.params.toList[n].ty,
      .argument n, d.params.toList[n].position⟩ := by
    have hargs : n < d.argDefinitions.length := by
      rw [Draft.length_argDefinitions, ← Array.length_toList]
      exact hn'
    rw [Draft.definitions, List.append_assoc, List.getElem?_append_left hargs,
      Draft.argDefinitions, List.getElem?_mapIdx, List.getElem?_eq_getElem hn']
    rfl
  have hname : Ident.name d.params.toList[n].id = p.1 := by
    rw [← hp]
    exact congrArg Ident.name hread.id
  have hty : d.params.toList[n].ty = p.2 := by
    rw [← hp]
    exact hread.ty
  rw [hf.value_of_definition hplace]
  exact congrArg some (Prod.ext hname hty)

/-- **The function that the draft of a listing is laid out to** has the outline of the listing, as
it was read. -/
theorem outline?_of_laidOut (hd : l.ReadAs d) (hl : l.WellFormed) (hf : Draft.LaidOut d f) :
    f.outline? = some l.asRead.outline := by
  have hparams : f.args.mapM (fun id => (f.values[id]?).map fun v => (v.name, v.ty))
      = some l.params := by
    have hsize : d.params.size = l.params.length := by
      rw [hd.params.length_eq, Array.length_toList]
    rw [hf.args, hsize, List.range_eq_range']
    refine mapM_range' fun n p hp => ?_
    rw [Nat.zero_add]
    exact param_of_laidOut hd hf hp
  have hblocks := mapM_layBlocks hd.blocks d.params.size 0 fun n s hs => by
    rw [Nat.zero_add]
    exact instrOutline?_eq hd hl hf hs
  rw [Function.outline?, hparams, hf.blocks, hf.name, hf.ret, hf.vararg, hd.name, hd.ret, hd.vararg,
    Option.bind_eq_bind, Option.bind_some, hblocks, outline, asRead, List.map_map]
  rfl

/-- The names of definitions are those of their identifiers. -/
theorem filter_name_definitions (defs : List Draft.Definition) :
    (defs.map (·.value.name)).filter (· ≠ "")
      = ((identsOf defs).map Ident.name).filter (· ≠ "") := by
  induction defs with
  | nil => rfl
  | cons definition rest ih =>
    rw [List.map_cons, List.filter_cons, ih, Draft.Definition.value]
    cases hid : definition.id? with
    | none =>
      rw [identsOf, identsOf, List.filterMap_cons_none hid]
      rfl
    | some id =>
      rw [identsOf, identsOf, List.filterMap_cons_some hid, List.map_cons, List.filter_cons]
      rfl

/-- The constants of a listing have no names. -/
theorem name_of_known (hd : l.ReadAs d) {v : Value}
    (hv : v ∈ (Draft.operandsOf d.statements).filterMap Draft.Operand.known?) : v.name = "" := by
  obtain ⟨o, ho, hov⟩ := List.mem_filterMap.mp hv
  obtain ⟨r, hr, ho⟩ := List.mem_flatMap.mp ho
  obtain ⟨s, _, hs⟩ := exists_left_of_forall₂ hd.statements hr
  obtain ⟨u, _, hu⟩ := exists_left_of_forall₂ hs.instr.operands ho
  cases hu with
  | reference => cases hov
  | numeral =>
    cases hov
    rfl

theorem distinct_of_laidOut (hd : l.ReadAs d) (hl : l.WellFormed) (hf : Draft.LaidOut d f) :
    f.HasDistinctNames := by
  have hknown : (((Draft.operandsOf d.statements).filterMap Draft.Operand.known?).map
      (·.name)).filter (· ≠ "") = [] := by
    rw [List.filter_eq_nil_iff]
    intro name hname
    obtain ⟨v, hv, rfl⟩ := List.mem_map.mp hname
    simpa using name_of_known hd hv
  have hidents : (identsOf d.definitions).map Ident.name = l.definitions.map (·.1) := by
    rw [Draft.identsOf_eq, hd.entries, List.map_map, List.map_map]
    rfl
  -- What is left are the definitions, with the names that the listing gives them.
  have hnames : ((d.definitions.map (·.value)).map (·.name)).filter (· ≠ "")
      = (l.definitions.map (·.1)).filter (· ≠ "") := by
    rw [List.map_map, ← hidents]
    exact filter_name_definitions d.definitions
  rw [Function.HasDistinctNames, hf.values, List.map_append, List.filter_append, hknown,
    List.append_nil, hnames]
  exact hl.distinct.sublist List.filter_sublist

end Outline

end Listing

end IrRecords
