import IrRecords.Proofs.Module.Items

/-!
# Modules that are put together from items

A text that is put together from items, each on lines of its own, is the module that the items make up:
its structs are those that the items define, one after the other, its functions are those that are read in
the items, each by itself, and it speaks of opaque pointers if one of the items does
(`Module.read_textOf_iff`). Nothing else joins the items but the names of their functions, which have to
be different, and the table of the structs, which every definition looks at.
-/

namespace IrRecords.Module

open Reader

variable {s : Token.Stream} {ss : List Token.Stream} {ctx : Draft.Context} {c : Cursor}
  {bound : List Token} {p : Progress} {f : Function} {fs : List Function} {fss : List (List Function)}
  {line : Nat} {position : Position} {m : Module}

/-! ## Functions that join others -/

/-- The table of names knows the names of the functions read so far, and no others. -/
structure Progress.Tracks (p : Progress) : Prop where
  known : ∀ name, name ≠ "" → ((p.starts.lookup name).isSome ↔ ∃ f ∈ p.functions.toList, f.name = name)
  distinct : NamesDistinct p.functions.toList

/-- What becomes of functions that join others: all of them are taken, unless two share a name. -/
inductive Joins (functions : List Function) : Except Diagnostic Progress → Prop
  | taken {p : Progress} (h : p.functions.toList = functions) (hp : p.Tracks) :
      Joins functions (.ok p)
  | refused {d : Diagnostic} (h : ¬ NamesDistinct functions) : Joins functions (.error d)

theorem tracks_empty : Progress.Tracks ⟨#[], []⟩ :=
  ⟨fun _ _ => by simp, .nil⟩

theorem namesDistinct_append_singleton : NamesDistinct (fs ++ [f])
    ↔ NamesDistinct fs ∧ ∀ g ∈ fs, g.name = f.name → g.name = "" := by
  rw [NamesDistinct, NamesDistinct, List.pairwise_append]
  simp only [List.pairwise_singleton, true_and, List.mem_singleton, forall_eq]

theorem Progress.Tracks.push (hp : p.Tracks) (f : Function) (position : Position) :
    Joins (p.functions.toList ++ [f]) (p.push f position) := by
  rw [Progress.push]
  split
  · next hname =>
    refine .taken (Array.toList_push ..) ⟨fun name hne => ?_, ?_⟩
    · rw [hp.known name hne, Array.toList_push]
      simp only [List.mem_append, List.mem_singleton, or_and_right, exists_or, exists_eq_left]
      exact ⟨.inl, fun h => h.resolve_right fun h => hne (h ▸ hname)⟩
    · rw [Array.toList_push]
      exact namesDistinct_append_singleton.mpr ⟨hp.distinct, fun g _ hg => hg.trans hname⟩
  · next hname =>
    cases hlookup : p.starts.lookup f.name with
    | some first =>
      refine .refused fun hall => ?_
      obtain ⟨g, hg, hsame⟩ := (hp.known f.name hname).mp (hlookup ▸ rfl)
      exact hname (hsame ▸ (namesDistinct_append_singleton.mp hall).2 g hg hsame)
    | none =>
      -- The names in `starts` are those of the functions so far, so a name that is not found there is new.
      have hnew : ∀ g ∈ p.functions.toList, g.name ≠ f.name := fun g hg hsame => by
        have hknown := (hp.known f.name hname).mpr ⟨g, hg, hsame⟩
        rw [hlookup] at hknown
        cases hknown
      refine .taken (Array.toList_push ..) ⟨fun name hne => ?_, ?_⟩
      · rw [Array.toList_push, List.lookup_cons]
        simp only [List.mem_append, List.mem_singleton, or_and_right, exists_or, exists_eq_left]
        by_cases hsame : name = f.name
        · rw [beq_iff_eq.mpr hsame]
          exact iff_of_true rfl (.inr hsame.symm)
        · rw [beq_eq_false_iff_ne.mpr hsame]
          exact (hp.known name hne).trans (or_iff_left (Ne.symm hsame)).symm
      · rw [Array.toList_push]
        exact namesDistinct_append_singleton.mpr
          ⟨hp.distinct, fun g hg hsame => absurd hsame (hnew g hg)⟩

/-- Functions that join others one after the other. -/
theorem Progress.Tracks.pushAll (hp : p.Tracks) (fs : List Function) (position : Position) :
    Joins (p.functions.toList ++ fs) (fs.foldlM (fun p f => p.push f position) p) := by
  induction fs generalizing p with
  | nil =>
    rw [List.append_nil]
    exact .taken rfl hp
  | cons f fs ih =>
    have hpush := hp.push f position
    rw [List.foldlM_cons]
    generalize p.push f position = e at hpush
    rw [List.append_cons]
    cases hpush with
    | @taken p' h hp' =>
      rw [← h]
      exact ih hp'
    | refused h => exact .refused fun hall => h (hall.sublist (List.sublist_append_left _ _))

/-! ## The second sweep -/

/-- The tokens of a text are those of an item, behind which others may follow. -/
structure Fits (s : Token.Stream) : Prop where
  form : IsItem s
  closes : ClosesAlone s
  lexed : ∀ t ∈ s.tokens, t.Lexed
  stop : s.stop.kind = .eof

theorem Fits.startsPart (h : Fits s) : s.StartsPart := h.form.startsPart h.stop

theorem result_readItems_of_end {t : Token} (h : c.AtRows line []) :
    (readItems ctx (t :: bound) p c).result = .ok p := by
  have hkind : c.current.kind = .eof := by
    rw [Cursor.current, h.rest_eq_nil]
    exact h.stop
  rw [readItems, hkind]
  rfl

/-- **In a text that is put together the functions of its items are read, one after the other.** -/
theorem joins_readItems (hc : c.AtRows line ss) (hss : ∀ s ∈ ss, Fits s)
    (hfss : List.Forall₂ (functionsIn ctx · = .ok ·) ss fss) (hbound : c.remaining < bound.length)
    (hp : p.Tracks) : Joins (p.functions.toList ++ fss.flatten) (readItems ctx bound p c).result := by
  induction hfss generalizing line c bound p with
  | nil =>
    obtain ⟨t, bound, rfl⟩ := List.exists_cons_of_length_pos (Nat.lt_of_le_of_lt (Nat.zero_le _) hbound)
    rw [result_readItems_of_end hc, List.flatten_nil, List.append_nil]
    exact .taken rfl hp
  | @cons s fs ss fss hfs _ ih =>
    obtain ⟨t, bound, rfl⟩ := List.exists_cons_of_length_pos (Nat.lt_of_le_of_lt (Nat.zero_le _) hbound)
    rw [List.forall_mem_cons] at hss
    obtain ⟨hfits, hss⟩ := hss
    obtain ⟨T, B, hplace⟩ := exists_isPlace hc hfits.stop fun s hs => (hss s hs).startsPart
    obtain ⟨c₁, bound₁, hc₁, hbound₁, hresult⟩ :=
      hfits.form.passes (p := p) hfits.closes hplace hc.stop hfits.stop hfits.lexed hbound hfs
    -- Reading the item is settled; what is left is whether its functions have new names.
    have hpush := hp.pushAll fs c.current.start
    rw [hresult, List.flatten_cons, ← List.append_assoc]
    generalize fs.foldlM (fun p f => p.push f c.current.start) p = e at hpush
    cases hpush with
    | @taken p' h hp' =>
      rw [← h]
      exact ih hc₁ hss hbound₁ hp'
    | refused h => exact .refused fun hall => h (hall.sublist (List.sublist_append_left _ _))

/-- If an item is refused, so is the text. -/
theorem exists_error_of_functionsIn (hc : c.AtRows line ss) (hss : ∀ s ∈ ss, Fits s)
    (hbound : c.remaining < bound.length) (h : ∃ s ∈ ss, ∀ fs, functionsIn ctx s ≠ .ok fs) :
    ∃ d, (readItems ctx bound p c).result = .error d := by
  induction ss generalizing line c bound p with
  | nil =>
    obtain ⟨_, hs, _⟩ := h
    cases hs
  | cons s ss ih =>
    obtain ⟨t, bound, rfl⟩ := List.exists_cons_of_length_pos (Nat.lt_of_le_of_lt (Nat.zero_le _) hbound)
    rw [List.forall_mem_cons] at hss
    obtain ⟨hfits, hss⟩ := hss
    obtain ⟨T, B, hplace⟩ := exists_isPlace hc hfits.stop fun s hs => (hss s hs).startsPart
    cases hread : functionsIn ctx s with
    | error d => exact hfits.form.exists_error hplace hfits.stop hread
    | ok fs =>
      obtain ⟨c₁, bound₁, hc₁, hbound₁, hresult⟩ :=
        hfits.form.passes (p := p) hfits.closes hplace hc.stop hfits.stop hfits.lexed hbound hread
      have hrest : ∃ s ∈ ss, ∀ fs, functionsIn ctx s ≠ .ok fs := by
        obtain ⟨s', hs', hrefused⟩ := h
        rcases List.mem_cons.mp hs' with rfl | hs'
        · exact absurd hread (hrefused fs)
        · exact ⟨s', hs', hrefused⟩
      rw [hresult]
      -- Even an item that is read may be refused here, for the name of its function.
      cases fs.foldlM (fun p f => p.push f c.current.start) p with
      | error d => exact ⟨d, rfl⟩
      | ok p' => exact ih hc₁ hss hbound₁ hrest

/-! ## Items -/

/-- An item of a module, as a text by itself. -/
structure Item where
  text : String
  stream : Token.Stream
  scanned : Token.scan text = .ok stream
  form : IsItem stream
  /-- If one of its structs is refused, it is not because something is missing. -/
  structs : Complete (readStructs stream.start)

variable {item : Item} {items items' : List Item}

/-- The text of items, each on lines of its own. -/
def textOf (items : List Item) : String :=
  String.ofList (items.flatMap fun item => item.text.toList ++ ['\n'])

theorem Item.lexed (item : Item) : ∀ t ∈ item.stream.tokens, t.Lexed :=
  (Token.scanFrom_spec item.scanned).lexed

theorem Item.stop (item : Item) : item.stream.stop.kind = .eof :=
  (Token.scanFrom_spec item.scanned).stop

theorem Item.startsPart (item : Item) : item.stream.StartsPart := item.form.startsPart item.stop

theorem fits_of_closesAlone (h : ∀ item ∈ items, ClosesAlone item.stream) :
    ∀ s ∈ items.map Item.stream, Fits s :=
  List.forall_mem_map.mpr fun item hitem => ⟨item.form, h item hitem, item.lexed, item.stop⟩

/-- The module that items make up. -/
structure MakeUp (items : List Item) (m : Module) : Prop where
  types : ∃ structsOf : Item → List (String × StructBody),
    (∀ item ∈ items, Defines item.stream (structsOf item))
      ∧ m.types = TypeTable.empty.insertAll (items.flatMap structsOf)
  functions : ∃ functionsOf : Item → List Function,
    (∀ item ∈ items, functionsIn ⟨m.types, m.opaquePointers⟩ item.stream = .ok (functionsOf item))
      ∧ m.functions = items.flatMap functionsOf
  distinct : NamesDistinct m.functions
  pointers : m.opaquePointers = items.any fun item => usesOpaquePointers item.stream.tokens

theorem usesOpaquePointers_of_lowered {lines : Nat} {ts us : List Token}
    (h : List.Forall₂ (Token.Lowered lines) ts us) : usesOpaquePointers us = usesOpaquePointers ts := by
  rw [usesOpaquePointers, usesOpaquePointers]
  induction h with
  | nil => rfl
  | cons ht _ ih => rw [List.any_cons, List.any_cons, ht.kind, ih]

theorem usesOpaquePointers_of_rows {ts : List Token} (h : Token.Rows line ss ts) :
    usesOpaquePointers ts = ss.any fun s => usesOpaquePointers s.tokens := by
  induction h with
  | nil => rfl
  | cons h _ _ _ ih =>
    rw [List.any_cons, ← ih, ← usesOpaquePointers_of_lowered h.tokens]
    exact List.any_append

/-- The first sweep over the text of items, and what the second one starts with. -/
theorem result_read_textOf (items : List Item) : ∃ c : Cursor,
    c.AtRows 1 (items.map Item.stream) ∧ (Module.read (textOf items)).result
      = readStructs c >>= fun x =>
        let ctx := ⟨x.1, items.any fun item => usesOpaquePointers item.stream.tokens⟩
        (readItems ctx c.bound ⟨#[], []⟩ c).result >>= fun p =>
          .ok ⟨x.1, p.functions.toList, ctx.opaquePointers⟩ := by
  have hws : List.Forall₂ (fun w s => Token.scanFrom Position.start w = .ok s)
      (items.map fun item => item.text.toList) (items.map Item.stream) := by
    rw [List.forall₂_map_left_iff, List.forall₂_map_right_iff, List.forall₂_same]
    exact fun item _ => item.scanned
  obtain ⟨x, hx, hrows, hstop⟩ := Token.exists_scan_lines (p := .start) hws rfl Nat.one_pos
  have hscan : Token.scan (textOf items) = .ok x := by
    rw [Token.scan, textOf, String.toList_ofList, ← hx, List.flatMap_map]
  have hpointers := usesOpaquePointers_of_rows hrows
  rw [List.any_map] at hpointers
  refine ⟨⟨none, x.tokens, x.stop⟩, ⟨hrows, fun _ h => (by cases h), hstop⟩, ?_⟩
  rw [Module.read, hscan, Traced.result_bind]
  change (ofStream x).result = _
  rw [ofStream, Traced.result_bind, hpointers]
  congr 1
  funext types
  rw [Traced.result_bind]
  rfl

section

variable {structsOf : Item → List (String × StructBody)} {functionsOf : Item → List Function}

/-- What is read in the text of items the structs of which are known. -/
theorem exists_result_of_defines (h : ∀ item ∈ items, Defines item.stream (structsOf item))
    {ctx : Draft.Context} (htypes : ctx.types = TypeTable.empty.insertAll (items.flatMap structsOf))
    (hpointers : ctx.opaquePointers = items.any fun item => usesOpaquePointers item.stream.tokens) :
    ∃ c : Cursor, c.AtRows 1 (items.map Item.stream) ∧ (Module.read (textOf items)).result
      = (readItems ctx c.bound ⟨#[], []⟩ c).result >>= fun p =>
        .ok ⟨ctx.types, p.functions.toList, ctx.opaquePointers⟩ := by
  obtain ⟨types, pointers⟩ := ctx
  subst htypes hpointers
  obtain ⟨c, hc, hresult⟩ := result_read_textOf items
  have hdss : List.Forall₂ Defines (items.map Item.stream) (items.map structsOf) := by
    rw [List.forall₂_map_left_iff, List.forall₂_map_right_iff, List.forall₂_same]
    exact h
  have hparts : ∀ s ∈ items.map Item.stream, s.StartsPart :=
    List.forall_mem_map.mpr fun item _ => item.startsPart
  obtain ⟨later, hstructs⟩ := readStructs_of_defines hc hparts hdss TypeTable.empty
  refine ⟨c, hc, ?_⟩
  rw [hresult, readStructs, hstructs, List.flatMap]
  rfl

/-- What is read in the text of items the structs and the functions of which are known. -/
theorem result_of_functionsIn (hcloses : ∀ item ∈ items, ClosesAlone item.stream) (h : ∀ item ∈ items, Defines item.stream (structsOf item))
    {ctx : Draft.Context} (htypes : ctx.types = TypeTable.empty.insertAll (items.flatMap structsOf))
    (hpointers : ctx.opaquePointers = items.any fun item => usesOpaquePointers item.stream.tokens)
    (hfunctions : ∀ item ∈ items, functionsIn ctx item.stream = .ok (functionsOf item)) :
    (Module.read (textOf items)).result = .ok ⟨ctx.types, items.flatMap functionsOf, ctx.opaquePointers⟩
        ∧ NamesDistinct (items.flatMap functionsOf)
      ∨ (∃ d, (Module.read (textOf items)).result = .error d)
        ∧ ¬ NamesDistinct (items.flatMap functionsOf) := by
  obtain ⟨c, hc, hresult⟩ := exists_result_of_defines h htypes hpointers
  have hfss : List.Forall₂ (functionsIn ctx · = .ok ·) (items.map Item.stream)
      (items.map functionsOf) := by
    rw [List.forall₂_map_left_iff, List.forall₂_map_right_iff, List.forall₂_same]
    exact hfunctions
  have hbound : c.remaining < c.bound.length := Nat.lt_succ_self _
  have hjoins := joins_readItems hc (fits_of_closesAlone hcloses) hfss hbound tracks_empty
  rw [hresult]
  generalize (readItems ctx c.bound ⟨#[], []⟩ c).result = e at hjoins
  rw [List.nil_append, ← List.flatMap] at hjoins
  cases hjoins with
  | @taken p hp htracks => exact .inl ⟨by rw [← hp]; rfl, hp ▸ htracks.distinct⟩
  | @refused d hd => exact .inr ⟨⟨d, rfl⟩, hd⟩

end

/-- **A text that is put together from items is the module that they make up.** -/
theorem read_textOf_iff (hcloses : ∀ item ∈ items, ClosesAlone item.stream) :
    (Module.read (textOf items)).result = .ok m ↔ MakeUp items m := by
  constructor
  · intro hread
    obtain ⟨c, hc, hresult⟩ := result_read_textOf items
    have hparts : ∀ s ∈ items.map Item.stream, s.StartsPart :=
      List.forall_mem_map.mpr fun item _ => item.startsPart
    -- As the text is read, each of its items is.
    have hstructs : ∀ item ∈ items, ∃ ds, Defines item.stream ds := by
      intro item hitem
      by_contra hnone
      obtain ⟨d, hd, _⟩ := exists_error_of_refusesStructs hc hparts
        (List.forall_mem_map.mpr fun item _ => item.structs)
        (List.forall_mem_map.mpr fun item _ => item.lexed)
        ⟨item.stream, List.mem_map_of_mem hitem, not_exists.mp hnone⟩ TypeTable.empty
      rw [hresult, readStructs, hd] at hread
      cases hread
    choose! structsOf hstructs using hstructs
    obtain ⟨ctx, htypes, hpointers⟩ : ∃ ctx : Draft.Context,
        ctx.types = TypeTable.empty.insertAll (items.flatMap structsOf)
          ∧ ctx.opaquePointers = items.any fun item => usesOpaquePointers item.stream.tokens :=
      ⟨⟨_, _⟩, rfl, rfl⟩
    obtain ⟨c', hc', hresult'⟩ := exists_result_of_defines hstructs htypes hpointers
    have hfunctions : ∀ item ∈ items, ∃ fs, functionsIn ctx item.stream = .ok fs := by
      intro item hitem
      by_contra hnone
      have hbound : c'.remaining < c'.bound.length := Nat.lt_succ_self _
      obtain ⟨d, hd⟩ := exists_error_of_functionsIn (p := ⟨#[], []⟩) hc'
        (fits_of_closesAlone hcloses) hbound
        ⟨item.stream, List.mem_map_of_mem hitem, not_exists.mp hnone⟩
      rw [hresult', hd] at hread
      cases hread
    choose! functionsOf hfunctions using hfunctions
    rcases result_of_functionsIn hcloses hstructs htypes hpointers hfunctions with
      ⟨hok, hdistinct⟩ | ⟨⟨d, hd⟩, _⟩
    · cases hok.symm.trans hread
      exact ⟨⟨structsOf, hstructs, htypes⟩, ⟨functionsOf, hfunctions, rfl⟩, hdistinct, hpointers⟩
    · cases hd.symm.trans hread
  · rintro ⟨⟨structsOf, hstructs, htypes⟩, ⟨functionsOf, hfunctions, hall⟩, hdistinct, hpointers⟩
    rcases @result_of_functionsIn items structsOf functionsOf hcloses hstructs
      ⟨m.types, m.opaquePointers⟩ htypes hpointers hfunctions with ⟨hok, _⟩ | ⟨_, hclash⟩
    · rw [hok, ← hall]
    · exact absurd (hall ▸ hdistinct) hclash

end IrRecords.Module
