import IrRecords.Extract
import IrRecords.Proofs.Module.Definitions
import IrRecords.Proofs.Module.Order

/-!
# The order of blocks

A definition that is written block by block (`Layout`) can be written with its blocks in another order.
Among other items it is then read exactly if it was before, and its record is the same but for the order
of the blocks (`Module.read_reorder`). The labels, the results and the constants have other places then,
and references forwards become references backwards, but a block is known to the others by what it
defines and asks for, and its record names no places.

The blocks must not share the name of a struct. The search for structs does not know of blocks, so that
it finds a definition at the first column also inside of a constant that is written over several lines,
and of two definitions the later one counts (`blocks_tell`).
-/

namespace IrRecords.Module

open Reader

/-! ## Definitions in fragments -/

/-- A text that makes some lines of another one. -/
structure Fragment where
  text : String
  stream : Token.Stream
  scanned : Token.scan text = .ok stream

/-- A definition that is written block by block. -/
structure Layout where
  heading : Fragment
  blocks : List Fragment
  closing : Fragment
  /-- What is known of the function in front of its blocks. -/
  opening : Draft
  isHeading : Function.IsHeading heading.stream opening
  isBlock : ∀ f ∈ blocks, Function.IsBlock f.stream
  isClosing : Function.IsClosing closing.stream
  /-- If a struct is refused in one of the fragments, it is not because something is missing. -/
  structs : ∀ f ∈ heading :: (blocks ++ [closing]), Complete (readStructs f.stream.start)

variable {f : Fragment} {l : Layout} {blocks : List Fragment} {ctx : Draft.Context}

theorem Fragment.lexed (f : Fragment) : ∀ t ∈ f.stream.tokens, t.Lexed :=
  (Token.scanFrom_spec f.scanned).lexed

theorem Fragment.stop (f : Fragment) : f.stream.stop.kind = .eof :=
  (Token.scanFrom_spec f.scanned).stop

namespace Layout

theorem form (l : Layout) : Function.MakesDefinition l.heading.stream (l.blocks.map Fragment.stream)
    l.closing.stream l.opening where
  isHeading := l.isHeading
  isBlock := List.forall_mem_map.mpr l.isBlock
  isClosing := l.isClosing
  stops := by
    rw [List.forall_mem_cons, List.forall_mem_append, List.forall_mem_singleton]
    exact ⟨l.heading.stop, List.forall_mem_map.mpr fun f _ => f.stop, l.closing.stop⟩

/-- All fragments, from top to bottom. -/
def fragments (l : Layout) : List Fragment := l.heading :: (l.blocks ++ [l.closing])

/-- The text of a definition, each fragment on lines of its own. -/
def text (l : Layout) : String :=
  String.ofList ((l.heading :: l.blocks).flatMap (fun f => f.text.toList ++ ['\n'])
    ++ l.closing.text.toList)

theorem map_stream_fragments (l : Layout) : l.fragments.map Fragment.stream
    = l.heading.stream :: (l.blocks.map Fragment.stream ++ [l.closing.stream]) := by
  rw [fragments, List.map_cons, List.map_append]
  rfl

theorem exists_scan (l : Layout) : ∃ s, Token.scan l.text = .ok s
    ∧ s.start.AtRows 1 (l.fragments.map Fragment.stream) := by
  have hws : List.Forall₂ (fun w s => Token.scanFrom Position.start w = .ok s)
      ((l.heading :: l.blocks).map fun f => f.text.toList)
      ((l.heading :: l.blocks).map Fragment.stream) := by
    rw [List.forall₂_map_left_iff, List.forall₂_map_right_iff, List.forall₂_same]
    exact fun f _ => f.scanned
  obtain ⟨s, hs, hrows, hstop⟩ := Token.exists_scan_lines_last hws l.closing.scanned
  refine ⟨s, ?_, ?_, fun _ h => (by cases h), hstop⟩
  · rw [Token.scan, text, String.toList_ofList, ← hs, List.flatMap_map]
  · rw [map_stream_fragments]
    exact hrows

/-- The tokens of a definition. -/
def stream (l : Layout) : Token.Stream :=
  (Token.scan l.text).toOption.get (by obtain ⟨s, hs, _⟩ := l.exists_scan; rw [hs]; rfl)

theorem scan_text (l : Layout) : Token.scan l.text = .ok l.stream := eq_ok_get _

theorem atRows (l : Layout) : l.stream.start.AtRows 1 (l.fragments.map Fragment.stream) := by
  obtain ⟨s, hs, hrows⟩ := l.exists_scan
  rw [l.scan_text, Except.ok.injEq] at hs
  exact hs ▸ hrows

theorem atRows' (l : Layout) : l.stream.start.AtRows 1
    (l.heading.stream :: (l.blocks.map Fragment.stream ++ [l.closing.stream])) :=
  l.map_stream_fragments ▸ l.atRows

theorem startsPart (l : Layout) : ∀ s ∈ l.fragments.map Fragment.stream, s.StartsPart := by
  have hkeyword := l.isHeading.keyword
  rw [map_stream_fragments, List.forall_mem_cons]
  refine ⟨⟨?_, ?_, fun id hid => ?_, l.heading.stop⟩, fun s hs => ?_⟩
  · exact Cursor.rest_ne_nil_of_kind (c := l.heading.stream.start) l.heading.stop
      (hkeyword ▸ TokenKind.noConfusion)
  · rw [hkeyword]
    rfl
  · rw [hkeyword] at hid
    cases hid
  · exact (Function.forall_goesOn l.form.blocks (l.isClosing.goesOn l.closing.stop) s hs).startsPart

/-! ## Layouts are items -/

/-- A definition all blocks of which are read is laid out from them. -/
theorem result_of_blocks (l : Layout) {blockOf : Fragment → Draft.Block}
    (h : ∀ f ∈ l.blocks, Function.ReadsBlock ctx f.stream (blockOf f)) :
    ∃ d c, (Function.readDefinition ctx l.stream.start.advance).result = d.finish.map (·, c)
      ∧ Function.SameFrame l.opening d ∧ d.interfaces = l.blocks.map (fun f => (blockOf f).interface)
      ∧ EndsLine c ∧ ∀ w ∈ ["attributes", "declare", "define"], c.current.kind ≠ .word w := by
  have hbs : List.Forall₂ (Function.ReadsBlock ctx) (l.blocks.map Fragment.stream)
      (l.blocks.map blockOf) := by
    rw [List.forall₂_map_left_iff, List.forall₂_map_right_iff, List.forall₂_same]
    exact h
  obtain ⟨d, c, hresult, hframe, hinterfaces, hend⟩ := l.form.result_eq l.atRows' hbs
  refine ⟨d, c, hresult, hframe, ?_, hend⟩
  rw [hinterfaces, List.map_map]
  rfl

/-- Either all blocks of a definition are read, or it is refused. -/
theorem reads_or_refused (l : Layout) (ctx : Draft.Context) :
    (∃ blockOf : Fragment → Draft.Block,
      ∀ f ∈ l.blocks, Function.ReadsBlock ctx f.stream (blockOf f))
    ∨ ∃ e, (Function.readDefinition ctx l.stream.start.advance).result = .error e
        ∧ e.fault.wantsMore = false := by
  by_cases hall : ∀ f ∈ l.blocks, ∃ b, Function.ReadsBlock ctx f.stream b
  · have : Nonempty Draft.Block := ⟨⟨.slot 0, .start, #[]⟩⟩
    choose! blockOf hblocks using hall
    exact .inl ⟨blockOf, hblocks⟩
  · simp only [not_forall, not_exists, exists_prop] at hall
    obtain ⟨f, hf, hno⟩ := hall
    exact .inr (l.form.exists_error l.atRows' ⟨_, List.mem_map_of_mem hf, hno⟩)

/-- A definition that is read ends with its line, and no other item begins on it. -/
theorem endsLine_of_read {f : Function} {c : Cursor}
    (h : (Function.readDefinition ctx l.stream.start.advance).result = .ok (f, c)) :
    EndsLine c ∧ ∀ w ∈ ["attributes", "declare", "define"], c.current.kind ≠ .word w := by
  rcases l.reads_or_refused ctx with ⟨blockOf, hblocks⟩ | ⟨e, hresult, _⟩
  · obtain ⟨d, c', hresult, _, _, hend⟩ := l.result_of_blocks hblocks
    rw [hresult] at h
    cases hf : d.finish with
    | error e => rw [hf] at h; cases h
    | ok g =>
      rw [hf] at h
      cases h
      exact hend
  · rw [hresult] at h
    cases h

theorem complete_readDefinition (l : Layout) (ctx : Draft.Context) :
    Complete (Function.readDefinition ctx l.stream.start.advance).result := by
  rcases l.reads_or_refused ctx with ⟨blockOf, hblocks⟩ | ⟨e, hresult, hfault⟩
  · obtain ⟨d, c, hresult, _⟩ := l.result_of_blocks hblocks
    rw [hresult]
    exact d.complete_finish.bind fun _ => .ok _
  · rw [hresult]
    exact .error hfault

theorem keyword (l : Layout) : l.stream.start.current.kind = .word "define" := by
  have hkeyword := l.isHeading.keyword
  have hparts := l.startsPart
  rw [map_stream_fragments, List.forall_mem_cons] at hparts
  rw [← hkeyword]
  exact l.atRows'.rows.headD_kind hparts.1.nonempty _

theorem functionsIn_stream (l : Layout) (ctx : Draft.Context) : functionsIn ctx l.stream
    = (Function.readDefinition ctx l.stream.start.advance).result.map fun x => [x.1] := by
  rw [functionsIn, l.keyword]
  rfl

theorem isItem (l : Layout) : IsItem l.stream :=
  .definition l.keyword l.complete_readDefinition fun _ _ _ hread => (endsLine_of_read hread).1

theorem closesAlone (l : Layout) : ClosesAlone l.stream :=
  fun _ _ _ _ hread => (endsLine_of_read hread).2

/-- The structs of a definition are those of its fragments. -/
theorem defines {structsOf : Fragment → List (String × StructBody)}
    (h : ∀ f ∈ l.fragments, Defines f.stream (structsOf f)) :
    Defines l.stream (l.fragments.flatMap structsOf) := by
  intro types
  have hdss : List.Forall₂ Defines (l.fragments.map Fragment.stream) (l.fragments.map structsOf) := by
    rw [List.forall₂_map_left_iff, List.forall₂_map_right_iff, List.forall₂_same]
    exact h
  exact exists_rounds_of_defines l.atRows l.startsPart hdss types

theorem exists_error_of_structs (h : ∃ f ∈ l.fragments, ∀ ds, ¬ Defines f.stream ds) (types : TypeTable) :
    ∃ d, iterate readStruct types l.stream.start = .error d ∧ d.fault.wantsMore = false := by
  obtain ⟨f, hf, hno⟩ := h
  exact exists_error_of_refusesStructs l.atRows l.startsPart
    (List.forall_mem_map.mpr l.structs) (List.forall_mem_map.mpr fun f _ => f.lexed)
    ⟨_, List.mem_map_of_mem hf, hno⟩ types

theorem usesOpaquePointers_stream (l : Layout) : usesOpaquePointers l.stream.tokens
    = l.fragments.any fun f => usesOpaquePointers f.stream.tokens := by
  have hpointers := usesOpaquePointers_of_rows l.atRows.rows
  rw [List.any_map] at hpointers
  exact hpointers

theorem stop (l : Layout) : l.stream.stop.kind = .eof := l.atRows.stop

theorem complete_structs (l : Layout) : Complete (readStructs l.stream.start) := by
  by_cases hall : ∀ f ∈ l.fragments, ∃ ds, Defines f.stream ds
  · choose! structsOf hstructs using hall
    obtain ⟨c, hrounds, hend⟩ := defines hstructs TypeTable.empty
    rw [readStructs, iterate_of_rounds hrounds hend l.stop]
    exact .ok _
  · simp only [not_forall, not_exists, exists_prop] at hall
    obtain ⟨d, hd, hfault⟩ := exists_error_of_structs hall TypeTable.empty
    rw [readStructs, hd]
    exact .error hfault

/-- If structs are found in a definition, they are found in all of its fragments. -/
theorem exists_defines {ds : List (String × StructBody)} (h : Defines l.stream ds) :
    ∀ f ∈ l.fragments, ∃ ds, Defines f.stream ds := by
  by_contra hall
  simp only [not_forall, not_exists, exists_prop] at hall
  obtain ⟨d, hd, _⟩ := exists_error_of_structs hall TypeTable.empty
  obtain ⟨c, hrounds, hend⟩ := h TypeTable.empty
  rw [iterate_of_rounds hrounds hend l.stop] at hd
  cases hd

/-- The item that a definition is. -/
def item (l : Layout) : Item := ⟨l.text, l.stream, l.scan_text, l.isItem, l.complete_structs⟩

/-- The definition with its blocks in another order. -/
def reorder (l : Layout) (blocks : List Fragment) (h : l.blocks.Perm blocks) : Layout where
  heading := l.heading
  blocks := blocks
  closing := l.closing
  opening := l.opening
  isHeading := l.isHeading
  isBlock f hf := l.isBlock f (h.mem_iff.mpr hf)
  isClosing := l.isClosing
  structs f hf := l.structs f ((((h.append_right _).cons _).mem_iff).mpr hf)

theorem blocks_subset_fragments (l : Layout) : l.blocks ⊆ l.fragments :=
  fun _ hf => List.mem_cons_of_mem _ (List.mem_append_left _ hf)

theorem fragments_perm (l : Layout) (hperm : l.blocks.Perm blocks) :
    l.fragments.Perm (l.reorder blocks hperm).fragments :=
  (hperm.append_right _).cons _

end Layout

/-! ## Blocks that change places -/

variable {before after : List Item} {m : Module}

/-- The names of the structs that are found in the fragment. -/
def Fragment.structNames (f : Fragment) : List String :=
  match readStructs f.stream.start with
  | .ok (types, _) => types.entries.map Prod.fst
  | .error _ => []

/-- No struct is defined in two of the fragments. -/
def StructsDiffer (fs : List Fragment) : Prop :=
  fs.Pairwise fun f g => ∀ name ∈ f.structNames, name ∉ g.structNames

/-- The records of two functions are the same, but for the order of the blocks: both have them in the
order of the text. -/
structure SameBlocks (l l' : Layout) (f f' : Function) : Prop where
  name : f'.name = f.name
  records : ∃ (r r' : Record.Function) (recordOf : Fragment → Record.Block), f.record? = some r
    ∧ f'.record? = some r' ∧ r' = { r with blocks := r'.blocks }
    ∧ r.blocks = l.blocks.map recordOf ∧ r'.blocks = l'.blocks.map recordOf

/-- **The function of a definition in another order of its blocks.** -/
theorem Layout.functionsIn_reorder {fs : List Function} (h : functionsIn ctx l.stream = .ok fs)
    (hperm : l.blocks.Perm blocks) : ∃ f f', fs = [f]
      ∧ functionsIn ctx (l.reorder blocks hperm).stream = .ok [f']
      ∧ SameBlocks l (l.reorder blocks hperm) f f' := by
  rw [functionsIn_stream] at h
  rcases l.reads_or_refused ctx with ⟨blockOf, hblocks⟩ | ⟨e, hresult, _⟩
  · have hblocks' : ∀ f ∈ (l.reorder blocks hperm).blocks, Function.ReadsBlock ctx f.stream (blockOf f) :=
      fun f hf => hblocks f (hperm.mem_iff.mpr hf)
    obtain ⟨d, c, hresult, hframe, hinterfaces, _⟩ := l.result_of_blocks hblocks
    obtain ⟨d', c', hresult', hframe', hinterfaces', _⟩ := Layout.result_of_blocks _ hblocks'
    -- The drafts of the two orders have one frame, and their blocks show the same interfaces in another
    -- order. Whether a draft resolves depends on no more than that.
    have hparams : d'.paramEntries = d.paramEntries := hframe'.params.trans hframe.params.symm
    have hname : d'.name = d.name := hframe'.name.trans hframe.name.symm
    have hret : d'.ret = d.ret := hframe'.ret.trans hframe.ret.symm
    have hd : d.interfaces.Perm d'.interfaces := by
      rw [hinterfaces, hinterfaces']
      exact hperm.map _
    rw [hresult] at h
    cases hf : d.finish with
    | error e => rw [hf] at h; cases h
    | ok f =>
      rw [hf] at h
      cases h
      obtain ⟨f', hf'⟩ := Draft.exists_finish_iff.mpr
        ((Draft.exists_finish_iff.mp ⟨f, hf⟩).perm hparams hd)
      have hlaid := Draft.finish_spec hf
      have hlaid' := Draft.finish_spec hf'
      refine ⟨f, f', rfl, ?_, ?_, d.record, d'.record, fun f => (blockOf f).interface.record,
        hlaid.record?_eq, hlaid'.record?_eq, ?_, ?_, ?_⟩
      · rw [functionsIn_stream, hresult', hf']
        rfl
      · rw [hlaid.name, hlaid'.name, hname]
      · rw [Draft.record_eq d, Draft.record_eq d', hparams, hname, hret]
      · rw [Draft.record_eq, hinterfaces, List.map_map]
        rfl
      · rw [Draft.record_eq, hinterfaces', List.map_map]
        rfl
  · rw [hresult] at h
    cases h

/-- Both texts are refused, or they are read as the same modules, but for the function of the layout. -/
inductive SameButOrder (l l' : Layout) : Except Diagnostic Module → Except Diagnostic Module → Prop
  | read {m m' : Module} {fs gs : List Function} {f f' : Function}
      (types : m.types.SameEntries m'.types) (pointers : m'.opaquePointers = m.opaquePointers)
      (functions : m.functions = fs ++ f :: gs) (functions' : m'.functions = fs ++ f' :: gs)
      (definition : functionsIn ⟨m.types, m.opaquePointers⟩ l.stream = .ok [f])
      (definition' : functionsIn ⟨m'.types, m'.opaquePointers⟩ l'.stream = .ok [f'])
      (same : SameBlocks l l' f f') : SameButOrder l l' (.ok m) (.ok m')
  | refused {d d' : Diagnostic} : SameButOrder l l' (.error d) (.error d')

theorem Fragment.mem_structNames {ds : List (String × StructBody)} (h : Defines f.stream ds)
    {name : String} (hname : ds.filter (·.1 == name) ≠ []) : name ∈ f.structNames := by
  obtain ⟨types, c, hread, hmem⟩ := exists_mem_entries h f.stop hname
  rw [structNames, hread]
  exact hmem

/-- The order of fragments in which different structs are defined does not matter. -/
theorem filter_flatMap_eq {fs fs' : List Fragment} {structsOf : Fragment → List (String × StructBody)}
    (h : ∀ f ∈ fs, Defines f.stream (structsOf f)) (hperm : fs.Perm fs') (hdiffer : StructsDiffer fs)
    (name : String) : (fs'.flatMap structsOf).filter (·.1 == name)
      = (fs.flatMap structsOf).filter (·.1 == name) := by
  rw [List.filter_flatMap, List.filter_flatMap]
  refine flatMap_eq_of_perm (fun _ => false) _ hperm ?_ ?_
  · rw [List.filter_eq_nil_iff.mpr fun _ _ => Bool.false_ne_true,
      List.filter_eq_nil_iff.mpr fun _ _ => Bool.false_ne_true]
  · refine hdiffer.imp_of_mem fun {f g} hf hg hno hname hname' => ?_
    exact absurd (Fragment.mem_structNames (h g hg) hname')
      (hno name (Fragment.mem_structNames (h f hf) hname))

/-- The structs of the items in front of an item, of the item itself, and of those behind it. -/
theorem insertAll_items {item : Item} {ds : List (String × StructBody)}
    {structsOf structsOf' : Item → List (String × StructBody)} (hitem : Defines item.stream ds)
    (h : ∀ x ∈ before ++ after, Defines x.stream (structsOf x))
    (h' : ∀ x ∈ before ++ item :: after, Defines x.stream (structsOf' x)) (t : TypeTable) :
    t.insertAll ((before ++ item :: after).flatMap structsOf')
      = t.insertAll (before.flatMap structsOf ++ ds ++ after.flatMap structsOf) := by
  -- The lists of structs that an item defines need not be one, but they fill a table alike.
  have hall : ∀ (items : List Item), (∀ x ∈ items, Defines x.stream (structsOf x)) →
      (∀ x ∈ items, Defines x.stream (structsOf' x)) → ∀ t : TypeTable,
      t.insertAll (items.flatMap structsOf') = t.insertAll (items.flatMap structsOf) := by
    intro items
    induction items with
    | nil => exact fun _ _ _ => rfl
    | cons x items ih =>
      intro hx hx' t
      rw [List.forall_mem_cons] at hx hx'
      rw [List.flatMap_cons, List.flatMap_cons, TypeTable.insertAll_append, TypeTable.insertAll_append,
        hx'.1.insertAll_eq hx.1 x.stop, ih hx.2 hx'.2]
  rw [List.forall_mem_append] at h h'
  rw [List.forall_mem_cons] at h'
  rw [List.flatMap_append, List.flatMap_cons, List.append_assoc, TypeTable.insertAll_append,
    TypeTable.insertAll_append, TypeTable.insertAll_append, TypeTable.insertAll_append, hall _ h.1 h'.1,
    hall _ h.2 h'.2.2, h'.2.1.insertAll_eq hitem item.stop]

theorem namesDistinct_of_map {fs fs' : List Function} (h : NamesDistinct fs)
    (hnames : fs'.map Function.name = fs.map Function.name) : NamesDistinct fs' := by
  have hmap : ∀ fs : List Function,
      NamesDistinct fs ↔ (fs.map Function.name).Pairwise fun a b => a = b → a = "" :=
    fun fs => (List.pairwise_map (R := fun a b : String => a = b → a = "")).symm
  rw [hmap, hnames, ← hmap]
  exact h

theorem forall_mem_middle {P : Item → Prop} {item : Item} :
    (∀ x ∈ before ++ item :: after, P x) ↔ P item ∧ ∀ x ∈ before ++ after, P x := by
  rw [List.forall_mem_append, List.forall_mem_append, List.forall_mem_cons, and_left_comm]

/-- What a definition makes up together with other items, it makes up in another order of its blocks. -/
theorem MakeUp.reorder (h : MakeUp (before ++ l.item :: after) m) (hperm : l.blocks.Perm blocks)
    (hdiffer : StructsDiffer l.blocks) : ∃ m', MakeUp (before ++ (l.reorder blocks hperm).item :: after) m'
      ∧ SameButOrder l (l.reorder blocks hperm) (.ok m) (.ok m') := by
  obtain ⟨⟨structsOf, hstructs, htypes⟩, ⟨functionsOf, hfunctions, hall⟩, hdistinct, hpointers⟩ := h
  obtain ⟨hdefines, hothers⟩ := forall_mem_middle.mp hstructs
  obtain ⟨hfunctionsIn, hothers'⟩ := forall_mem_middle.mp hfunctions
  -- The structs are those of the fragments, which are the same.
  choose! ofFragment hfragments using Layout.exists_defines hdefines
  have hfragments' : ∀ f ∈ (l.reorder blocks hperm).fragments, Defines f.stream (ofFragment f) :=
    fun f hf => hfragments f ((l.fragments_perm hperm).mem_iff.mpr hf)
  have hstructs' : ∀ x ∈ before ++ (l.reorder blocks hperm).item :: after, ∃ ds, Defines x.stream ds :=
    forall_mem_middle.mpr ⟨⟨_, Layout.defines hfragments'⟩, fun x hx => ⟨_, hothers x hx⟩⟩
  choose! structsOf' hstructs' using hstructs'
  have hsame : m.types.SameEntries (TypeTable.empty.insertAll
      ((before ++ (l.reorder blocks hperm).item :: after).flatMap structsOf')) := by
    rw [htypes, insertAll_items (Layout.defines hfragments) hothers hstructs,
      insertAll_items (Layout.defines hfragments') hothers hstructs']
    refine TypeTable.sameEntries_insertAll fun name => ?_
    have hblocks := filter_flatMap_eq (fun f hf => hfragments f (Layout.blocks_subset_fragments l hf))
      hperm hdiffer name
    simp only [Layout.fragments, Layout.reorder, List.flatMap_cons, List.flatMap_append,
      List.filter_append, hblocks]
  -- The function is the same, but for the order of its blocks.
  obtain ⟨f, f', hf, hf', hblocks⟩ := Layout.functionsIn_reorder hfunctionsIn hperm
  have hfunctions' : ∀ x ∈ before ++ (l.reorder blocks hperm).item :: after, ∃ fs,
      functionsIn ⟨m.types, m.opaquePointers⟩ x.stream = .ok fs :=
    forall_mem_middle.mpr ⟨⟨_, hf'⟩, fun x hx => ⟨_, hothers' x hx⟩⟩
  choose! functionsOf' hfunctions' using hfunctions'
  obtain ⟨hfunctionsIn', hrest⟩ := forall_mem_middle.mp hfunctions'
  have hfs' : functionsOf' (l.reorder blocks hperm).item = [f'] :=
    Except.ok.inj (hfunctionsIn'.symm.trans hf')
  have heq : ∀ x ∈ before ++ after, functionsOf' x = functionsOf x := fun x hx =>
    Except.ok.inj ((hrest x hx).symm.trans (hothers' x hx))
  rw [List.forall_mem_append] at heq
  have hsplit : m.functions = before.flatMap functionsOf ++ f :: after.flatMap functionsOf := by
    rw [hall, List.flatMap_append, List.flatMap_cons, hf, List.singleton_append]
  have hsplit' : (before ++ (l.reorder blocks hperm).item :: after).flatMap functionsOf'
      = before.flatMap functionsOf ++ f' :: after.flatMap functionsOf := by
    rw [List.flatMap_append, List.flatMap_cons, hfs', List.singleton_append,
      List.flatMap_congr heq.1, List.flatMap_congr heq.2]
  refine ⟨⟨_, before.flatMap functionsOf ++ f' :: after.flatMap functionsOf, m.opaquePointers⟩,
    ⟨⟨structsOf', hstructs', rfl⟩, ⟨functionsOf', fun x hx => ?_, hsplit'.symm⟩, ?_, ?_⟩,
    .read hsame rfl hsplit rfl ?_ ?_ hblocks⟩
  · exact (functionsIn_sameEntries hsame _).trans (hfunctions' x hx)
  · refine namesDistinct_of_map hdistinct ?_
    rw [hsplit, List.map_append, List.map_append, List.map_cons, List.map_cons, hblocks.name]
  · have hany : usesOpaquePointers (l.reorder blocks hperm).item.stream.tokens
        = usesOpaquePointers l.item.stream.tokens := by
      rw [Layout.item, Layout.item, Layout.usesOpaquePointers_stream, Layout.usesOpaquePointers_stream]
      exact (l.fragments_perm hperm).any_eq.symm
    rw [hpointers, List.any_append, List.any_append, List.any_cons, List.any_cons, hany]
  · exact hfunctionsIn.trans (congrArg _ hf)
  · exact (functionsIn_sameEntries hsame _).trans hf'

/-- **The order of blocks does not matter** for what is read in them. -/
theorem read_reorder (hcloses : ∀ item ∈ before ++ after, ClosesAlone item.stream)
    (hperm : l.blocks.Perm blocks) (hdiffer : StructsDiffer l.blocks) :
    SameButOrder l (l.reorder blocks hperm) (Module.read (textOf (before ++ l.item :: after))).result
      (Module.read (textOf (before ++ (l.reorder blocks hperm).item :: after))).result := by
  have hcloses₁ : ∀ item ∈ before ++ l.item :: after, ClosesAlone item.stream :=
    forall_mem_middle.mpr ⟨l.closesAlone, hcloses⟩
  have hcloses₂ : ∀ item ∈ before ++ (l.reorder blocks hperm).item :: after, ClosesAlone item.stream :=
    forall_mem_middle.mpr ⟨(l.reorder blocks hperm).closesAlone, hcloses⟩
  cases hread : (Module.read (textOf (before ++ l.item :: after))).result with
  | ok m =>
    obtain ⟨m', hm', hsame⟩ := ((read_textOf_iff hcloses₁).mp hread).reorder hperm hdiffer
    rw [(read_textOf_iff hcloses₂).mpr hm']
    exact hsame
  | error d =>
    cases hread' : (Module.read (textOf (before ++ (l.reorder blocks hperm).item :: after))).result with
    | error d' => exact .refused
    | ok m' =>
      -- In the first order the blocks would be read as well.
      obtain ⟨m, hm, _⟩ := MakeUp.reorder ((read_textOf_iff hcloses₂).mp hread') hperm.symm
        (hdiffer.perm hperm fun h name hname hname' => h name hname' hname)
      cases hread.symm.trans ((read_textOf_iff hcloses₁).mpr hm)

/-! ## Definitions in texts -/

theorem scan_eq_get (text : String) (h : (Token.scan text).toOption.isSome) :
    Token.scan text = .ok ((Token.scan text).toOption.get h) := eq_ok_get h

/-- The fragment that a text is. -/
def Fragment.ofText (text : String) (h : (Token.scan text).toOption.isSome) : Fragment where
  text := text
  stream := (Token.scan text).toOption.get h
  scanned := scan_eq_get text h

/-- The draft behind `n` more rounds of a body, and what is left then. -/
def bodyRounds (ctx : Draft.Context) : Nat → Draft → Cursor → Option (Draft × Cursor)
  | 0, d, c => some (d, c)
  | n + 1, d, c =>
    match Function.readBodyItem ctx d c with
    | .ok (.again d, c) => bodyRounds ctx n d c
    | _ => none

theorem rounds_of_bodyRounds {n : Nat} {d d' : Draft} {c c' : Cursor}
    (h : bodyRounds ctx n d c = some (d', c')) : Rounds (Function.readBodyItem ctx) d c d' c' := by
  induction n generalizing d c with
  | zero =>
    cases h
    exact .refl _ _
  | succ n ih =>
    rw [bodyRounds] at h
    split at h
    · exact .again ‹_› (ih h)
    · cases h

/-- A block that is read in `n` rounds. -/
theorem isBlock_of_bodyRounds {s : Token.Stream} (text : String) (n : Nat)
    (hlabel : s.start.current.kind = .label text)
    (h : ∀ ctx, ((bodyRounds ctx n .blank s.start).map fun x => x.2.rest.isEmpty
      && x.1.blocks.size == 1 && x.1 == { Draft.blank with blocks := x.1.blocks }) = some true) :
    Function.IsBlock s := by
  refine ⟨⟨text, hlabel⟩, fun ctx => .inl ?_⟩
  obtain ⟨⟨d, c⟩, hrounds, hall⟩ := Option.map_eq_some_iff.mp (h ctx)
  simp only [Bool.and_eq_true, beq_iff_eq, List.isEmpty_iff] at hall
  obtain ⟨⟨hend, hsize⟩, hd⟩ := hall
  obtain ⟨b, hb⟩ := Array.size_eq_one_iff.mp hsize
  refine ⟨b, c, ?_, hend⟩
  rw [← hb, ← hd]
  exact rounds_of_bodyRounds hrounds

/-- A heading that ends with the brace. -/
theorem isHeading_of_end {s : Token.Stream} {d : Draft} (hkeyword : s.start.current.kind = .word "define")
    (h : (Function.readOpening s.start.advance).toOption.map (fun x => (x.1, x.2.rest)) = some (d, []))
    (hnamed : d.nextSlot = 0) : Function.IsHeading s d := by
  refine ⟨hkeyword, ?_, hnamed⟩
  obtain ⟨⟨d', c⟩, hopening, h⟩ := exists_ok_of_toOption h
  rw [Prod.mk.injEq] at h
  obtain ⟨rfl, hend⟩ := h
  exact ⟨c, hopening, fun ctx => ⟨c, .refl d' c, hend⟩⟩

/-- The heading of a function with a loop. -/
def loopHeading : Fragment := .ofText "define void @f(i32 %n) \x7b" (by decide +kernel)

/-- The blocks of a loop, one after the other. -/
def loopBlocks : List Fragment :=
  [.ofText "a:\n  br label %b" (by decide +kernel),
    .ofText "b:\n  %i = phi i32 [ 0, %a ], [ %j, %b ]\n  %j = add i32 %i, %n\n  br label %b"
      (by decide +kernel)]

/-- The line that closes a function. -/
def loopClosing : Fragment := .ofText "\x7d" (by decide +kernel)

theorem isHeading_loopHeading : Function.IsHeading loopHeading.stream
    ⟨"f", .void, false, #[⟨.named "n", .int 32, ⟨15, 1, 16⟩⟩], #[], 0⟩ :=
  isHeading_of_end (by decide +kernel) (by decide +kernel) rfl

theorem isBlock_of_mem_loopBlocks : ∀ f ∈ loopBlocks, Function.IsBlock f.stream := by
  simp only [loopBlocks, List.forall_mem_cons]
  exact ⟨isBlock_of_bodyRounds "a" 2 (by decide +kernel) fun ctx => by cbv,
    isBlock_of_bodyRounds "b" 4 (by decide +kernel) fun ctx => by cbv, List.forall_mem_nil _⟩

theorem isClosing_loopClosing : Function.IsClosing loopClosing.stream :=
  ⟨by decide +kernel, by decide +kernel, by decide +kernel⟩

theorem complete_of_mem_loop :
    ∀ f ∈ loopHeading :: (loopBlocks ++ [loopClosing]), Complete (readStructs f.stream.start) := by
  simp only [loopBlocks, List.forall_mem_cons, List.cons_append, List.nil_append]
  exact ⟨complete_of_isSome (by decide +kernel), complete_of_isSome (by decide +kernel),
    complete_of_isSome (by decide +kernel), complete_of_isSome (by decide +kernel),
    List.forall_mem_nil _⟩

/-- A function with a loop, block by block. -/
def loopLayout : Layout where
  heading := loopHeading
  blocks := loopBlocks
  closing := loopClosing
  opening := ⟨"f", .void, false, #[⟨.named "n", .int 32, ⟨15, 1, 16⟩⟩], #[], 0⟩
  isHeading := isHeading_loopHeading
  isBlock := isBlock_of_mem_loopBlocks
  isClosing := isClosing_loopClosing
  structs := complete_of_mem_loop

theorem read_reorder_loop :
    (∀ item ∈ [structItem] ++ [], ClosesAlone item.stream)
      ∧ StructsDiffer loopLayout.blocks
      ∧ (Module.read (textOf ([structItem] ++ [loopLayout.item]))).result.toOption.isSome
      ∧ SameButOrder loopLayout (loopLayout.reorder loopBlocks.reverse (List.reverse_perm _).symm)
        (Module.read (textOf ([structItem] ++ [loopLayout.item]))).result
        (Module.read (textOf ([structItem]
          ++ [(loopLayout.reorder loopBlocks.reverse (List.reverse_perm _).symm).item]))).result := by
  have hcloses : ∀ item ∈ [structItem] ++ [], ClosesAlone item.stream :=
    List.forall_mem_singleton.mpr (closesAlone_of_ne (by decide +kernel))
  have hdiffer : StructsDiffer loopLayout.blocks := by
    have hnone : ∀ f ∈ loopLayout.blocks, f.structNames = [] := by decide +kernel
    refine List.pairwise_of_forall_mem_list fun f hf g _ name hname => ?_
    rw [hnone f hf] at hname
    cases hname
  exact ⟨hcloses, hdiffer, by decide +kernel, read_reorder hcloses _ hdiffer⟩

/-! ## Where the order of blocks tells -/

/-- The types of the results in the blocks of the functions that are extracted. -/
def resultTypes (text : String) : Option (List (String × List String)) :=
  (extract text ⟨none, false⟩).toOption.map fun rs =>
    rs.flatMap fun r => r.blocks.map fun b => (b.name, b.instrs.map (·.ty))

/-- **The order of blocks tells** where a struct is defined in two of them, inside of constants that are
written over several lines. -/
theorem blocks_tell : ∃ heading a b closing : String,
    resultTypes (heading ++ a ++ b ++ closing) = some [("a", ["Pointer-I64", "Void"]), ("b", ["Void"])]
      ∧ resultTypes (heading ++ b ++ a ++ closing)
        = some [("b", ["Void"]), ("a", ["Pointer-I32", "Void"])] :=
  ⟨"define \x7b\x7d @f(%T* %p) \x7b\n",
    "a:\n  %q = getelementptr %T, %T* %p, i32 0, i32 0\n  ret \x7b\x7d \x7b\n%T = type \x7b i32 \x7d\n  \x7d\n",
    "b:\n  ret \x7b\x7d \x7b\n%T = type \x7b i64 \x7d\n  \x7d\n", "\x7d\n",
    by decide +kernel, by decide +kernel⟩

end IrRecords.Module
