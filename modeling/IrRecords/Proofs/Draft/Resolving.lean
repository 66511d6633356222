import IrRecords.Proofs.Draft.Layout

/-!
# Which drafts can be laid out

Laying out a draft can fail in three ways: an identifier is defined twice, a reference has no
definition of its type, or the label of an edge is no block. `Draft.Resolvable` says that none of
these is the case, in terms of what the draft defines and not of where it does, and
`exists_finish_iff` that there are no other ways.
-/

namespace IrRecords

/-- What a walk along a row comes to, element by element. -/
theorem mapM_eq_ok_iff {α β : Type} {g : α → Except Diagnostic β} {xs : List α} {ys : List β} :
    xs.mapM g = .ok ys ↔ List.Forall₂ (fun x y => g x = .ok y) xs ys := by
  induction xs generalizing ys with
  | nil =>
    rw [List.mapM_nil, List.forall₂_nil_left_iff]
    exact ⟨fun h => (Except.ok.inj h).symm, fun h => h ▸ rfl⟩
  | cons x xs ih =>
    rw [List.mapM_cons, List.forall₂_cons_left_iff]
    cases hx : g x with
    | error e => simp [Bind.bind, Except.bind]
    | ok y =>
      cases hxs : xs.mapM g with
      | error e => simp [Bind.bind, Except.bind, ← ih, hxs]
      | ok ys' =>
        simp only [Bind.bind, Except.bind, Pure.pure, Except.pure, Except.ok.injEq, ← ih, hxs]
        exact ⟨fun h => ⟨y, ys', rfl, rfl, h.symm⟩, fun ⟨_, _, hy, hys, h⟩ => hy ▸ hys ▸ h.symm⟩

namespace Draft

variable {defs : List Definition} {id : Ident} {ty : Ty}

/-! ## Entries -/

/-- The identifier of a definition and its type. -/
def Definition.entry? (d : Definition) : Option (Ident × Ty) := d.id?.map (·, d.ty)

/-- The identifiers of definitions. -/
def identsOf (defs : List Definition) : List Ident := defs.filterMap (·.id?)

theorem identsOf_eq (defs : List Definition) :
    identsOf defs = (defs.filterMap Definition.entry?).map (·.1) := by
  rw [identsOf, List.map_filterMap]
  refine List.filterMap_congr fun definition _ => ?_
  rw [Definition.entry?, Option.map_map]
  exact (Option.map_id' (x := definition.id?)).symm

/-- A row that does not depend on its numbers. -/
theorem filterMap_mapIdx {α β γ : Type} {f : Nat → α → β} {g : β → Option γ} {h : α → Option γ}
    (hg : ∀ n a, g (f n a) = h a) (xs : List α) : (xs.mapIdx f).filterMap g = xs.filterMap h := by
  induction xs generalizing f with
  | nil => rfl
  | cons x xs ih =>
    rw [List.mapIdx_cons, List.filterMap_cons, List.filterMap_cons, hg, ih fun n a => hg (n + 1) a]

/-- The identifiers that a draft defines, with their types. -/
def entries (d : Draft) : List (Ident × Ty) :=
  d.params.toList.map (fun p => (p.id, p.ty)) ++ d.blocks.toList.map (fun b => (b.id, .label))
    ++ d.statements.filterMap fun s => s.result?.map (·, s.instr.ty)

/-- The entries are those of the definitions, in their order. -/
theorem entries_definitions (d : Draft) :
    d.definitions.filterMap Definition.entry? = d.entries := by
  have hargs : d.argDefinitions.filterMap Definition.entry?
      = d.params.toList.map (fun p => (p.id, p.ty)) := by
    rw [argDefinitions, ← List.filterMap_eq_map]
    exact filterMap_mapIdx (by exact fun _ _ => rfl) _
  have hlabels : d.labelDefinitions.filterMap Definition.entry?
      = d.blocks.toList.map (fun b => (b.id, .label)) := by
    rw [labelDefinitions, ← List.filterMap_eq_map]
    exact filterMap_mapIdx (by exact fun _ _ => rfl) _
  have hresults : d.resultDefinitions.filterMap Definition.entry?
      = d.statements.filterMap fun s => s.result?.map (·, s.instr.ty) := by
    unfold resultDefinitions
    exact filterMap_mapIdx (by exact fun _ _ => rfl) _
  rw [definitions, List.filterMap_append, List.filterMap_append, hargs, hlabels, hresults, entries]

/-! ## Distinct identifiers -/

/-- Identifiers that are distinct pass the check. -/
theorem checkDistinct_of_nodup {seen : List Ident} (h : (identsOf defs).Nodup)
    (hseen : ∀ id ∈ identsOf defs, id ∉ seen) : checkDistinct seen defs = .ok () := by
  induction defs generalizing seen with
  | nil => rfl
  | cons definition rest ih =>
    unfold checkDistinct
    cases hid : definition.id? with
    | none =>
      rw [identsOf, List.filterMap_cons_none hid] at h hseen
      exact ih h hseen
    | some id =>
      rw [identsOf, List.filterMap_cons_some hid] at h hseen
      rw [List.nodup_cons] at h
      rw [List.forall_mem_cons] at hseen
      dsimp only
      rw [if_neg hseen.1]
      refine ih h.2 fun id' hid' => ?_
      rw [List.mem_cons, not_or]
      refine ⟨?_, hseen.2 id' hid'⟩
      rintro rfl
      exact h.1 hid'

/-- What is checked of the first definition, and that its identifier is kept for the others. -/
theorem checkDistinct_cons {seen : List Ident} {first : Definition} {rest : List Definition}
    (h : checkDistinct seen (first :: rest) = .ok ()) :
    ∃ seen', checkDistinct seen' rest = .ok () ∧ seen ⊆ seen'
      ∧ ∀ id, first.id? = some id → id ∉ seen ∧ id ∈ seen' := by
  unfold checkDistinct at h
  cases hid : first.id? with
  | none =>
    rw [hid] at h
    exact ⟨seen, h, List.Subset.refl seen, fun id hid' => by cases hid'⟩
  | some id =>
    rw [hid] at h
    dsimp only at h
    split at h
    · cases h
    · next hnew =>
      refine ⟨id :: seen, h, List.subset_cons_self id seen, fun id' hid' => ?_⟩
      cases hid'
      exact ⟨hnew, List.mem_cons_self⟩

/-- Definitions that pass the check have identifiers that were not seen before. -/
theorem not_mem_of_checkDistinct {seen : List Ident} {defs : List Definition}
    (h : checkDistinct seen defs = .ok ()) {definition : Definition} (hd : definition ∈ defs)
    {id : Ident} (hid : definition.id? = some id) : id ∉ seen := by
  induction defs generalizing seen with
  | nil => cases hd
  | cons first rest ih =>
    obtain ⟨seen', hrest, hseen, hfirst⟩ := checkDistinct_cons h
    rcases List.mem_cons.mp hd with rfl | hd
    · exact (hfirst id hid).1
    · exact fun hmem => ih hrest hd (hseen hmem)

/-- Definitions that pass the check have different identifiers. -/
theorem pairwise_of_checkDistinct {seen : List Ident} {defs : List Definition}
    (h : checkDistinct seen defs = .ok ()) :
    defs.Pairwise fun a b => ∀ id, a.id? = some id → b.id? ≠ some id := by
  induction defs generalizing seen with
  | nil => exact .nil
  | cons first rest ih =>
    obtain ⟨seen', hrest, _, hfirst⟩ := checkDistinct_cons h
    refine .cons (fun b hb id hid hid' => ?_) (ih hrest)
    exact not_mem_of_checkDistinct hrest hb hid' (hfirst id hid).2

/-- **An identifier is defined at one place only.** -/
theorem eq_place_of_id? {defs : List Definition} (h : checkDistinct [] defs = .ok ()) {id : Ident}
    {a b : Nat} {definition definition' : Definition} (ha : defs[a]? = some definition)
    (hb : defs[b]? = some definition') (hid : definition.id? = some id)
    (hid' : definition'.id? = some id) : a = b := by
  have hlater : ∀ {a b : Nat} {definition definition' : Definition}, defs[a]? = some definition →
      defs[b]? = some definition' → definition.id? = some id → definition'.id? = some id →
      ¬ a < b := by
    intro a b definition definition' ha hb hid hid' hlt
    obtain ⟨ha', rfl⟩ := List.getElem?_eq_some_iff.mp ha
    obtain ⟨hb', rfl⟩ := List.getElem?_eq_some_iff.mp hb
    exact List.pairwise_iff_getElem.mp (pairwise_of_checkDistinct h) a b ha' hb' hlt id hid hid'
  exact Nat.le_antisymm (Nat.le_of_not_lt (hlater hb ha hid' hid))
    (Nat.le_of_not_lt (hlater ha hb hid hid'))

/-! ## Looking up definitions -/

/-- One identifier has one definition. -/
theorem eq_of_id? (h : (identsOf defs).Nodup) {a b : Definition} (ha : a ∈ defs) (hb : b ∈ defs)
    (hida : a.id? = some id) (hidb : b.id? = some id) : a = b := by
  induction defs with
  | nil => cases ha
  | cons first rest ih =>
    have hmem : ∀ {x : Definition}, x ∈ rest → x.id? = some id → id ∈ identsOf rest :=
      fun hx hid => List.mem_filterMap.mpr ⟨_, hx, hid⟩
    have hrest : (identsOf rest).Nodup :=
      h.sublist (List.Sublist.filterMap _ (List.sublist_cons_self first rest))
    have hfirst : first.id? = some id → id ∉ identsOf rest := by
      intro hid
      rw [identsOf, List.filterMap_cons_some hid, List.nodup_cons] at h
      exact h.1
    -- Two definitions of one identifier would be the first and one of the rest, or both of the
    -- rest.
    rcases List.mem_cons.mp ha with rfl | ha'
    · rcases List.mem_cons.mp hb with rfl | hb'
      · rfl
      · exact absurd (hmem hb' hidb) (hfirst hida)
    · rcases List.mem_cons.mp hb with rfl | hb'
      · exact absurd (hmem ha' hida) (hfirst hidb)
      · exact ih hrest ha' hb'

/-- An identifier that is defined leads to its definition. -/
theorem exists_locate (h : (id, ty) ∈ defs.filterMap Definition.entry?)
    (hdistinct : (identsOf defs).Nodup) :
    ∃ place definition, locate defs id = some place ∧ defs[place]? = some definition
      ∧ definition.id? = some id ∧ definition.ty = ty := by
  obtain ⟨wanted, hwanted, hentry⟩ := List.mem_filterMap.mp h
  obtain ⟨_, hid, heq⟩ := Option.map_eq_some_iff.mp hentry
  cases heq
  cases hlocate : locate defs id with
  | none =>
    rw [locate, List.findIdx?_eq_none_iff] at hlocate
    have hno := hlocate wanted hwanted
    rw [hid, beq_self_eq_true] at hno
    cases hno
  | some place =>
    have hlt : place < defs.length := by
      rw [locate, List.findIdx?_eq_some_iff_getElem] at hlocate
      exact hlocate.1
    have hplace : defs[place]? = some defs[place] := List.getElem?_eq_getElem hlt
    have hfound := id?_of_locate hlocate hplace
    refine ⟨place, defs[place], rfl, hplace, hfound, ?_⟩
    rw [eq_of_id? hdistinct (List.getElem_mem hlt) hwanted hfound hid]

/-! ## Resolvable drafts -/

/-- Every identifier is defined once, every reference is defined at the type that it is used at, and
edges come from blocks. -/
structure Resolvable (d : Draft) : Prop where
  distinct : (d.entries.map (·.1)).Nodup
  references : ∀ s ∈ d.statements, ∀ id ty p, Operand.reference id ty p ∈ s.instr.operands →
    (id, ty) ∈ d.entries
  labels : ∀ s ∈ d.statements, ∀ incoming, s.instr.detail = .phi incoming →
    ∀ e ∈ incoming, e.1 ∈ d.blocks.toList.map (·.id)

variable {d : Draft}

theorem identsOf_definitions (d : Draft) : identsOf d.definitions = d.entries.map (·.1) := by
  rw [identsOf_eq, entries_definitions]

/-- Definitions that pass the check have distinct identifiers. -/
theorem nodup_of_checkDistinct {seen : List Ident} (h : checkDistinct seen defs = .ok ()) :
    (identsOf defs).Nodup := by
  rw [identsOf, List.Nodup, List.pairwise_filterMap]
  refine (pairwise_of_checkDistinct h).imp fun {a b} hne id hid id' hid' heq => ?_
  exact hne id hid (heq ▸ hid')

/-- A definition that is a block is the label of one. -/
theorem mem_blocks_of_origin {x : Definition} {n : Nat} (hx : x ∈ d.definitions)
    (hid : x.id? = some id) (horigin : x.origin = .block n) :
    id ∈ d.blocks.toList.map (·.id) := by
  rw [definitions, List.mem_append, List.mem_append] at hx
  rcases hx with (hx | hx) | hx
  · obtain ⟨m, hm, rfl⟩ := List.mem_mapIdx.mp hx
    cases horigin
  · obtain ⟨m, hm, rfl⟩ := List.mem_mapIdx.mp hx
    cases hid
    exact List.mem_map.mpr ⟨_, List.getElem_mem hm, rfl⟩
  · obtain ⟨m, hm, rfl⟩ := List.mem_mapIdx.mp hx
    cases horigin

/-- A label that is resolved is one of a block. -/
theorem mem_blocks_of_resolveLabel {e : Ident × Position} {block : BlockId}
    (h : resolveLabel d.definitions e = .ok block) : e.1 ∈ d.blocks.toList.map (·.id) := by
  obtain ⟨id, position⟩ := e
  rw [resolveLabel] at h
  split at h
  · next id? ty n p hfound =>
    obtain ⟨place, hlocate, hplace⟩ := Option.bind_eq_some_iff.mp hfound
    exact mem_blocks_of_origin (List.mem_of_getElem? hplace) (id?_of_locate hlocate hplace) rfl
  · cases h

/-- **A draft that is laid out is resolvable.** -/
theorem LaidOut.resolvable {f : Function} (h : LaidOut d f) : d.Resolvable where
  distinct := identsOf_definitions d ▸ nodup_of_checkDistinct h.distinct
  references s hs id ty p ho := by
    obtain ⟨i, _, hdescribes⟩ := exists_right_of_forall₂ h.instrs hs
    obtain ⟨place, _, hresolves⟩ := exists_right_of_forall₂ hdescribes.operands ho
    cases hresolves with
    | @reference _ _ _ _ x hplace hid hty =>
      rw [← entries_definitions]
      refine List.mem_filterMap.mpr ⟨x, List.mem_of_getElem? hplace, ?_⟩
      rw [Definition.entry?, hid, hty]
      rfl
  labels s hs incoming hdetail e he := by
    obtain ⟨i, _, hdescribes⟩ := exists_right_of_forall₂ h.instrs hs
    have hresolved := hdescribes.detail
    rw [hdetail, resolveDetail] at hresolved
    cases hlabels : incoming.mapM (resolveLabel d.definitions) with
    | error fault => simp only [Bind.bind, Except.bind, hlabels] at hresolved; cases hresolved
    | ok blocks =>
      obtain ⟨block, _, hblock⟩ := exists_right_of_forall₂ (mapM_eq_ok_iff.mp hlabels) he
      exact mem_blocks_of_resolveLabel hblock

/-! ### Laying out succeeds -/

namespace Resolvable

theorem exists_definition (h : d.Resolvable) (hentry : (id, ty) ∈ d.entries) :
    ∃ place x, locate d.definitions id = some place ∧ d.definitions[place]? = some x
      ∧ x.id? = some id ∧ x.ty = ty := by
  rw [← entries_definitions] at hentry
  exact exists_locate hentry (identsOf_definitions d ▸ h.distinct)

/-- A block is what its label is resolved to. -/
theorem exists_resolveLabel (h : d.Resolvable) {e : Ident × Position}
    (he : e.1 ∈ d.blocks.toList.map (·.id)) :
    ∃ n, resolveLabel d.definitions e = .ok n := by
  obtain ⟨b, hb, hid⟩ := List.mem_map.mp he
  obtain ⟨n, hn, rfl⟩ := List.mem_iff_getElem.mp hb
  obtain ⟨id, position⟩ := e
  dsimp only at hid
  have hentry : (id, Ty.label) ∈ d.entries := by
    refine List.mem_append_left _ (List.mem_append_right _ (List.mem_map.mpr ⟨_, hb, ?_⟩))
    rw [hid]
  obtain ⟨place, x, hlocate, hplace, hxid, _⟩ := h.exists_definition hentry
  -- The label is a definition of the identifier, and there is no other.
  have hlabel : (⟨some id, .label, .block n, (d.blocks.toList[n]).position⟩ : Definition)
      ∈ d.definitions := by
    refine List.mem_append_left _ (List.mem_append_right _ (List.mem_mapIdx.mpr ⟨n, hn, ?_⟩))
    rw [hid]
  obtain rfl := eq_of_id? (identsOf_definitions d ▸ h.distinct) (List.mem_of_getElem? hplace)
    hlabel hxid rfl
  refine ⟨n, ?_⟩
  simp only [resolveLabel, hlocate, Option.bind_some, hplace]

theorem exists_resolveDetail (h : d.Resolvable) {s : Statement} (hs : s ∈ d.statements) :
    ∃ detail, resolveDetail d.definitions s.instr.detail = .ok detail := by
  have hlabels := h.labels s hs
  cases hdetail : s.instr.detail with
  | plain => exact ⟨_, rfl⟩
  | compare p => exact ⟨_, rfl⟩
  | alloca allocated => exact ⟨_, rfl⟩
  | phi incoming =>
    -- Only a phi names blocks. The induction is on a part of its edges, which all are among `incoming`.
    have hall : ∀ es : List (Ident × Position), es ⊆ incoming →
        ∃ blocks, es.mapM (resolveLabel d.definitions) = .ok blocks := by
      intro es
      induction es with
      | nil => exact fun _ => ⟨[], rfl⟩
      | cons e es ih =>
        intro hes
        obtain ⟨n, hn⟩ := h.exists_resolveLabel (hlabels incoming hdetail e (hes List.mem_cons_self))
        obtain ⟨ns, hns⟩ := ih fun _ he => hes (List.mem_cons_of_mem _ he)
        exact ⟨n :: ns, mapM_eq_ok_iff.mpr (.cons hn (mapM_eq_ok_iff.mp hns))⟩
    obtain ⟨blocks, hblocks⟩ := hall incoming (List.Subset.refl _)
    refine ⟨.phi blocks, ?_⟩
    simp only [resolveDetail, hblocks, Bind.bind, Except.bind]
    rfl

theorem exists_resolveOperands (h : d.Resolvable) {os : List Operand}
    (hos : ∀ id ty p, Operand.reference id ty p ∈ os → (id, ty) ∈ d.entries)
    (values : Array Value) : ∃ r, resolveOperands d.definitions values os = .ok r := by
  induction os generalizing values with
  | nil => exact ⟨_, rfl⟩
  | cons o os ih =>
    have hfirst : ∃ r, resolveOperand d.definitions values o = .ok r := by
      cases o with
      | known value => exact ⟨_, rfl⟩
      | reference id ty p =>
        obtain ⟨place, x, hlocate, hplace, _, hty⟩ :=
          h.exists_definition (hos id ty p List.mem_cons_self)
        simp only [resolveOperand, hlocate, hplace, if_pos hty]
        exact ⟨_, rfl⟩
    obtain ⟨⟨place, values₁⟩, hfirst⟩ := hfirst
    obtain ⟨⟨places, values₂⟩, hrest⟩ :=
      ih (fun id ty p ho => hos id ty p (List.mem_cons_of_mem _ ho)) values₁
    rw [resolveOperands, hfirst]
    simp only [Bind.bind, Except.bind, hrest]
    exact ⟨_, rfl⟩

theorem exists_resolveStatements (h : d.Resolvable) {ss : List Statement} (hss : ss ⊆ d.statements)
    (result : ValueId) (values : Array Value) :
    ∃ r, resolveStatements d.definitions result values ss = .ok r := by
  induction ss generalizing result values with
  | nil => exact ⟨_, rfl⟩
  | cons s ss ih =>
    have hs : s ∈ d.statements := hss List.mem_cons_self
    obtain ⟨⟨places, values₁⟩, hoperands⟩ := h.exists_resolveOperands (h.references s hs) values
    obtain ⟨detail, hdetail⟩ := h.exists_resolveDetail hs
    obtain ⟨⟨instrs, values₂⟩, hrest⟩ :=
      ih (fun _ ht => hss (List.mem_cons_of_mem _ ht)) (result + 1) values₁
    rw [resolveStatements, hoperands]
    simp only [Bind.bind, Except.bind, hdetail, hrest]
    exact ⟨_, rfl⟩

end Resolvable

/-- **A draft can be laid out exactly if it is resolvable.** -/
theorem exists_finish_iff : (∃ f, d.finish = .ok f) ↔ d.Resolvable := by
  refine ⟨fun ⟨f, hf⟩ => (finish_spec hf).resolvable, fun h => ?_⟩
  have hdistinct := checkDistinct_of_nodup (identsOf_definitions d ▸ h.distinct)
    fun _ _ => List.not_mem_nil
  obtain ⟨⟨instrs, values⟩, hstatements⟩ := h.exists_resolveStatements (List.Subset.refl _)
    (d.params.size + d.blocks.size) (d.definitions.map (·.value)).toArray
  unfold finish
  simp only [Bind.bind, Except.bind, hdistinct, hstatements]
  exact ⟨_, rfl⟩

end Draft

end IrRecords
