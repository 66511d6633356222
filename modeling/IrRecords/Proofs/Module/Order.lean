import IrRecords.Proofs.Module.Composition
import Mathlib

/-!
# The order of items

The order of the items of a module matters for its functions only, which are read in the order of the
text. The other items may stand anywhere (`Module.read_textOf_perm`). A function does not see where a
struct is defined, as the structs are collected before; it only looks at the answers of their table.

Two things keep the items from being independent altogether. The search for structs does not know of
functions, so that it also finds the definition of a struct that stands at the first column inside of a
function, where the function passes it over; if its name is that of another struct, the later one counts.
And what stands behind the brace that closes a function is read as an item of its own, which may go on
with the next lines. `order_tells` has a text of either kind.
-/

namespace IrRecords

/-! ## Readers that look at the answers of a table -/

variable {types types' : TypeTable} {pointers : Bool}

theorem Draft.readOperation_sameEntries (h : types.SameEntries types') (position : Position)
    (op : Opcode) :
    readOperation ⟨types', pointers⟩ position op = readOperation ⟨types, pointers⟩ position op := by
  cases op with
  | getelementptr =>
    simp only [readOperation, readGetelementptr, addressType, h.indexed]
  | extractvalue => simp only [readOperation, readExtractvalue, h.indexed]
  | _ => rfl

theorem Function.readDefinition_sameEntries (h : types.SameEntries types') (c : Cursor) :
    readDefinition ⟨types', pointers⟩ c = readDefinition ⟨types, pointers⟩ c := by
  have hinstr : Draft.readInstr ⟨types', pointers⟩ = Draft.readInstr ⟨types, pointers⟩ := by
    simp only [Draft.readInstr, Draft.readOperation_sameEntries h]
  have hitem : readBodyItem ⟨types', pointers⟩ = readBodyItem ⟨types, pointers⟩ := by
    funext d
    simp only [readBodyItem, readStatement, hinstr]
  simp only [readDefinition, readBody, hitem]

namespace Module

open Reader

/-- What is read in an item depends on the answers of the table of structs only. -/
theorem functionsIn_sameEntries (h : types.SameEntries types') (s : Token.Stream) :
    functionsIn ⟨types', pointers⟩ s = functionsIn ⟨types, pointers⟩ s := by
  simp only [functionsIn, Function.readDefinition_sameEntries h]

/-! ## Members that may change places -/

/-- Lists put together from those of the members of a list do not depend on the order of the members,
if all members that have something to put in keep their order as soon as there are two of them. -/
theorem flatMap_eq_of_perm {α β : Type} {l l' : List α} (p : α → Bool) (f : α → List β)
    (hperm : l.Perm l') (hkept : l'.filter p = l.filter p)
    (happart : l.Pairwise fun a b => f a ≠ [] → f b ≠ [] → p a ∧ p b) :
    l'.flatMap f = l.flatMap f := by
  have hfilled : ∀ l : List α, l.flatMap f = (l.filter fun a => !(f a).isEmpty).flatMap f := by
    intro l
    induction l with
    | nil => rfl
    | cons a l ih =>
      rw [List.flatMap_cons, List.filter_cons, ih]
      cases h : f a with
      | nil => rfl
      | cons b bs => rw [List.isEmpty_cons, Bool.not_false, if_pos rfl, List.flatMap_cons, h]
  rw [hfilled l, hfilled l']
  have hperm' := hperm.filter fun a => !(f a).isEmpty
  generalize hrow : l.filter (fun a => !(f a).isEmpty) = row at hperm' ⊢
  match row with
  | [] => rw [List.nil_perm.mp hperm']
  | [a] => rw [List.singleton_perm.mp hperm']
  | a :: b :: rest =>
    -- Every member of the row is one of two, so all of them keep their order.
    have hboth : (a :: b :: rest).Pairwise fun a b => p a ∧ p b := by
      rw [← hrow, List.pairwise_filter]
      exact happart.imp fun h ha hb => h (by simpa using ha) (by simpa using hb)
    have hall : ∀ x ∈ a :: b :: rest, p x = true := by
      obtain ⟨ha, _⟩ := List.pairwise_cons.mp hboth
      refine List.forall_mem_cons.mpr ⟨(ha b List.mem_cons_self).1, fun x hx => (ha x hx).2⟩
    have hkept' : ∀ l : List α, (∀ x ∈ l.filter (fun a => !(f a).isEmpty), p x = true) →
        l.filter (fun a => !(f a).isEmpty) = (l.filter p).filter (fun a => !(f a).isEmpty) := by
      intro l h
      rw [List.filter_comm, List.filter_eq_self.mpr h]
    rw [hkept' l' fun x hx => hall x (hperm'.mem_iff.mpr hx), hkept, ← hkept' l (hrow ▸ hall), hrow]

/-! ## Items that may change places -/

variable {items items' : List Item} {item : Item} {ds : List (String × StructBody)} {m : Module}

/-- Whether the item is a declaration or a definition. -/
def Item.isFunction (item : Item) : Bool :=
  item.stream.start.current.kind == .word "define" || item.stream.start.current.kind == .word "declare"

/-- The names of the structs that are found in the item. -/
def Item.structNames (item : Item) : List String :=
  match readStructs item.stream.start with
  | .ok (types, _) => types.entries.map Prod.fst
  | .error _ => []

/-- A struct that is defined in two items is defined in functions. -/
def StructsApart (items : List Item) : Prop :=
  items.Pairwise fun item other =>
    (∃ name ∈ item.structNames, name ∈ other.structNames) → item.isFunction ∧ other.isFunction

/-- Both texts are refused, or they are read as modules with the same structs and the same functions. -/
inductive SameModule : Except Diagnostic Module → Except Diagnostic Module → Prop
  | read {m m' : Module} (types : m.types.SameEntries m'.types) (functions : m'.functions = m.functions)
      (pointers : m'.opaquePointers = m.opaquePointers) : SameModule (.ok m) (.ok m')
  | refused {d d' : Diagnostic} : SameModule (.error d) (.error d')

/-- A name is found where a struct of the name is defined. -/
theorem exists_mem_entries {s : Token.Stream} (h : Defines s ds) (hs : s.stop.kind = .eof) {name : String}
    (hname : ds.filter (·.1 == name) ≠ []) :
    ∃ types c, readStructs s.start = .ok (types, c) ∧ name ∈ types.entries.map Prod.fst := by
  obtain ⟨c, hrounds, hend⟩ := h TypeTable.empty
  refine ⟨_, c, iterate_of_rounds hrounds hend hs, ?_⟩
  cases hbody : (TypeTable.empty.insertAll ds).get? name with
  | none => exact absurd (TypeTable.filter_eq_nil_of_get?_insertAll hbody).2 hname
  | some body =>
    have hmem := (TypeTable.distinct_empty.insertAll ds).mem_entries_iff.mpr hbody
    exact List.mem_map_of_mem hmem

theorem Item.mem_structNames (h : Defines item.stream ds) {name : String}
    (hname : ds.filter (·.1 == name) ≠ []) : name ∈ item.structNames := by
  obtain ⟨types, c, hread, hmem⟩ := exists_mem_entries h item.stop hname
  rw [structNames, hread]
  exact hmem

/-- Only declarations and definitions have functions. -/
theorem functionsIn_eq_nil_of_not_isFunction {ctx : Draft.Context} {fs : List Function}
    (h : functionsIn ctx item.stream = .ok fs) (hfs : fs ≠ []) : item.isFunction = true := by
  by_contra hno
  rw [Item.isFunction, Bool.or_eq_true, beq_iff_eq, beq_iff_eq, not_or] at hno
  rw [functionsIn_eq_nil hno.1 hno.2] at h
  cases h
  exact hfs rfl

/-- What the items make up, they make up in another order. -/
theorem MakeUp.perm (h : MakeUp items m) (hperm : items.Perm items')
    (hkept : items'.filter Item.isFunction = items.filter Item.isFunction)
    (happart : StructsApart items) : ∃ m', MakeUp items' m' ∧ SameModule (.ok m) (.ok m') := by
  obtain ⟨⟨structsOf, hstructs, htypes⟩, ⟨functionsOf, hfunctions, hall⟩, hdistinct, hpointers⟩ := h
  -- What a table has for a name is told by the structs of this name alone, and their order is kept: no
  -- two of the items that change places define a struct of one name.
  have hsame : m.types.SameEntries (TypeTable.empty.insertAll (items'.flatMap structsOf)) := by
    rw [htypes]
    refine TypeTable.sameEntries_insertAll fun name => ?_
    rw [List.filter_flatMap, List.filter_flatMap]
    refine flatMap_eq_of_perm Item.isFunction _ hperm hkept ?_
    refine happart.imp_of_mem fun {item other} hitem hother h hname hname' => ?_
    exact h ⟨name, Item.mem_structNames (hstructs item hitem) hname,
      Item.mem_structNames (hstructs other hother) hname'⟩
  have hfunctions' : items'.flatMap functionsOf = m.functions := by
    rw [hall]
    refine flatMap_eq_of_perm Item.isFunction _ hperm hkept ?_
    refine List.pairwise_of_forall_mem_list fun item hitem other hother hfs hfs' => ?_
    exact ⟨functionsIn_eq_nil_of_not_isFunction (hfunctions item hitem) hfs,
      functionsIn_eq_nil_of_not_isFunction (hfunctions other hother) hfs'⟩
  refine ⟨⟨TypeTable.empty.insertAll (items'.flatMap structsOf), m.functions, m.opaquePointers⟩, ⟨⟨structsOf, ?_, rfl⟩, ⟨functionsOf, ?_, ?_⟩, ?_, ?_⟩,
    .read hsame rfl rfl⟩
  · exact fun item hitem => hstructs item (hperm.mem_iff.mpr hitem)
  · intro item hitem
    rw [functionsIn_sameEntries hsame]
    exact hfunctions item (hperm.mem_iff.mpr hitem)
  · exact hfunctions'.symm
  · exact hdistinct
  · rw [hpointers]
    exact hperm.any_eq

theorem StructsApart.perm (h : StructsApart items) (hperm : items.Perm items') : StructsApart items' := by
  refine (hperm.pairwise_iff fun {item other} h hname => ?_).mp h
  obtain ⟨name, hitem, hother⟩ := hname
  exact (h ⟨name, hother, hitem⟩).symm

/-- **The order of items matters for functions only.** -/
theorem read_textOf_perm (hcloses : ∀ item ∈ items, ClosesAlone item.stream)
    (hperm : items.Perm items')
    (hkept : items'.filter Item.isFunction = items.filter Item.isFunction)
    (happart : StructsApart items) :
    SameModule (Module.read (textOf items)).result (Module.read (textOf items')).result := by
  have hcloses' : ∀ item ∈ items', ClosesAlone item.stream :=
    fun item hitem => hcloses item (hperm.mem_iff.mpr hitem)
  cases hread : (Module.read (textOf items)).result with
  | ok m =>
    obtain ⟨m', hm', hsame⟩ := ((read_textOf_iff hcloses).mp hread).perm hperm hkept happart
    rw [(read_textOf_iff hcloses').mpr hm']
    exact hsame
  | error d =>
    cases hread' : (Module.read (textOf items')).result with
    | error d' => exact .refused
    | ok m' =>
      obtain ⟨m, hm, _⟩ := ((read_textOf_iff hcloses').mp hread').perm hperm.symm hkept.symm
        (happart.perm hperm)
      rw [(read_textOf_iff hcloses).mpr hm] at hread
      cases hread

/-! ## Items in texts -/

instance (s : Token.Stream) : Decidable (OneLine s) :=
  inferInstanceAs (Decidable (∀ t ∈ s.tokens, ∀ u ∈ s.tokens, t.line = u.line))

theorem complete_of_isSome {α : Type} {e : Except Diagnostic α} (h : e.toOption.isSome) : Complete e := by
  rintro d rfl
  cases h

/-- What does not fail is what it answers. -/
theorem eq_ok_get {ε α : Type} : ∀ {e : Except ε α} (h : e.toOption.isSome), e = .ok (e.toOption.get h)
  | .ok _, _ => rfl

/-- The item that a text is. -/
def Item.ofText (text : String) (h : (Token.scan text).toOption.isSome)
    (form : IsItem ((Token.scan text).toOption.get h))
    (structs : Complete (readStructs ((Token.scan text).toOption.get h).start)) : Item where
  text := text
  stream := (Token.scan text).toOption.get h
  scanned := eq_ok_get h
  form := form
  structs := structs

/-- A definition behind the closing brace of which at most the rest of a line is left. -/
theorem IsItem.of_endsLine {s : Token.Stream} (h : s.start.current.kind = .word "define")
    (hends : ∀ ctx, ((Function.readDefinition ctx s.start.advance).result.toOption.map fun x =>
      x.2.rest.all fun t => x.2.lastLine? == some t.line) = some true) : IsItem s := by
  refine .definition h (fun ctx => complete_of_isSome ?_) fun ctx f c hread t ht => ?_
  · rw [← Option.isSome_map, hends ctx]
    rfl
  · have hall := hends ctx
    rw [hread, Except.toOption, Option.map_some, Option.some.injEq, List.all_eq_true] at hall
    exact beq_iff_eq.mp (hall t ht)

theorem closesAlone_of_end {s : Token.Stream}
    (hends : ∀ ctx, ((Function.readDefinition ctx s.start.advance).result.toOption.map fun x =>
      x.2.current.kind) = some .eof) : ClosesAlone s := by
  intro _ ctx f c hread w _ hw
  have heof := hends ctx
  rw [hread, Except.toOption, Option.map_some, Option.some.injEq, hw] at heof
  cases heof

theorem closesAlone_of_ne {s : Token.Stream} (h : s.start.current.kind ≠ .word "define") :
    ClosesAlone s := fun hdefine => absurd hdefine h

/-- A struct. -/
def structItem : Item :=
  .ofText "%T = type \x7b i32 \x7d" (by decide +kernel) (.struct (by decide +kernel) (by decide +kernel))
    (complete_of_isSome (by decide +kernel))

/-- A global. -/
def globalItem : Item :=
  .ofText "@x = global \x7b\x7d zeroinitializer" (by decide +kernel)
    (.line (by decide +kernel) (by decide +kernel)) (complete_of_isSome (by decide +kernel))

/-- A function that speaks of the struct. -/
def pointedItem : Item :=
  .ofText "define void @g(%T* %p) \x7b\n  ret void\n\x7d" (by decide +kernel)
    (.of_endsLine (by decide +kernel) fun ctx => by cbv) (complete_of_isSome (by decide +kernel))

/-- A function in which the same struct is defined. -/
def hidingItem : Item :=
  .ofText "define void @f()\n%T = type opaque\n\x7b\n  ret void\n\x7d" (by decide +kernel)
    (.of_endsLine (by decide +kernel) fun ctx => by cbv) (complete_of_isSome (by decide +kernel))

/-- A function behind the closing brace of which another item begins. -/
def trailingItem : Item :=
  .ofText "define void @f() \x7b\n  ret void\n\x7d attributes" (by decide +kernel)
    (.of_endsLine (by decide +kernel) fun ctx => by cbv) (complete_of_isSome (by decide +kernel))

theorem isFunction_items : structItem.isFunction = false ∧ globalItem.isFunction = false
    ∧ pointedItem.isFunction = true ∧ hidingItem.isFunction = true ∧ trailingItem.isFunction = true := by
  decide +kernel

theorem structNames_items : structItem.structNames = ["T"] ∧ globalItem.structNames = []
    ∧ pointedItem.structNames = [] ∧ trailingItem.structNames = [] := by
  decide +kernel

theorem read_textOf_perm_struct :
    (∀ item ∈ [pointedItem, structItem, globalItem], ClosesAlone item.stream)
      ∧ [pointedItem, structItem, globalItem].Perm [structItem, globalItem, pointedItem]
      ∧ StructsApart [pointedItem, structItem, globalItem]
      ∧ SameModule (Module.read (textOf [pointedItem, structItem, globalItem])).result
        (Module.read (textOf [structItem, globalItem, pointedItem])).result := by
  have hcloses : ∀ item ∈ [pointedItem, structItem, globalItem], ClosesAlone item.stream := by
    simp only [List.forall_mem_cons]
    exact ⟨closesAlone_of_end fun ctx => by cbv, closesAlone_of_ne (by decide +kernel),
      closesAlone_of_ne (by decide +kernel), List.forall_mem_nil _⟩
  have hperm : ∀ a b c : Item, [a, b, c].Perm [b, c, a] := fun a b c =>
    (List.perm_append_singleton a [b, c]).symm
  have hkept : [structItem, globalItem, pointedItem].filter Item.isFunction
      = [pointedItem, structItem, globalItem].filter Item.isFunction := by
    simp [isFunction_items]
  have happart : StructsApart [pointedItem, structItem, globalItem] := by
    simp [StructsApart, structNames_items]
  exact ⟨hcloses, hperm _ _ _, happart, read_textOf_perm hcloses (hperm _ _ _) hkept happart⟩

/-! ## Where the order tells -/

theorem SameModule.get?_eq {e e' : Except Diagnostic Module} (h : SameModule e e') (name : String) :
    e'.toOption.map (·.types.get? name) = e.toOption.map (·.types.get? name) := by
  cases h with
  | read types _ _ => exact congrArg some (types.get? name)
  | refused => rfl

theorem SameModule.functions_eq {e e' : Except Diagnostic Module} (h : SameModule e e') :
    e'.toOption.map (·.functions) = e.toOption.map (·.functions) := by
  cases h with
  | read _ functions _ => exact congrArg some functions
  | refused => rfl

/-- **The order tells** where a function hides the definition of a struct, and where another item begins
behind the brace that closes a function. -/
theorem order_tells :
    ((∀ item ∈ [hidingItem, structItem], ClosesAlone item.stream)
      ∧ [hidingItem, structItem].Perm [structItem, hidingItem]
      ∧ [structItem, hidingItem].filter Item.isFunction = [hidingItem, structItem].filter Item.isFunction
      ∧ ¬ SameModule (Module.read (textOf [hidingItem, structItem])).result
        (Module.read (textOf [structItem, hidingItem])).result)
    ∧ StructsApart [trailingItem, globalItem, pointedItem]
      ∧ [trailingItem, globalItem, pointedItem].Perm [trailingItem, pointedItem, globalItem]
      ∧ [trailingItem, pointedItem, globalItem].filter Item.isFunction
        = [trailingItem, globalItem, pointedItem].filter Item.isFunction
      ∧ ¬ SameModule (Module.read (textOf [trailingItem, globalItem, pointedItem])).result
        (Module.read (textOf [trailingItem, pointedItem, globalItem])).result := by
  refine ⟨⟨?_, .swap _ _ _, ?_, fun h => ?_⟩, ?_, .cons _ (.swap _ _ _), ?_, fun h => ?_⟩
  · simp only [List.forall_mem_cons]
    exact ⟨closesAlone_of_end fun ctx => by cbv, closesAlone_of_ne (by decide +kernel),
      List.forall_mem_nil _⟩
  · simp [isFunction_items]
  · have hget := h.get?_eq "T"
    revert hget
    decide +kernel
  · simp [StructsApart, structNames_items]
  · simp [isFunction_items]
  · have hcount := congrArg (Option.map List.length) h.functions_eq
    revert hcount
    decide +kernel

end Module

end IrRecords
