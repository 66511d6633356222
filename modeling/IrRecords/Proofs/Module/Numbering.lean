import IrRecords.Proofs.Draft.Numbering
import IrRecords.Proofs.Module.Parts
import IrRecords.Proofs.Record.References

/-!
# Slots are handed out in the order of the text

What a function shows of the numbering is the row of its entries: its arguments, and then for each
block its label and the results of the instructions in it, without the void ones. Laying out a draft
takes the identifiers apart, arguments from labels from results, and the row of entries puts them
together again (`LaidOut.forall₂_entries`). So what is known of the identifiers of a draft is known
of the entries: those with a slot count up from zero, and an entry has a slot just when the text
gives it a number or nothing at all (`Function.NumberedAs`).

What an instruction line says behind its first instruction is passed over, and defines no entry.
-/

namespace IrRecords

/-- The value shows this identifier. -/
def Value.Shows (id : Ident) (v : Value) : Prop := v.name = id.name ∧ v.slot? = id.slot?

/-- The value of a definition for which the text gives `given`: its name or number, or a number and
no name if the text gives none. -/
def Value.IsGiven (given : Option Ident) (v : Value) : Prop :=
  match given with
  | some id => v.Shows id
  | none => v.name = "" ∧ v.slot?.isSome

namespace Function

/-! ## Entries -/

/-- The value that an instruction defines. -/
def resultOf? (f : Function) (i : InstrId) : Option Value :=
  (f.instrs[i]?).bind fun instr => f.values[instr.result]?

/-- The label of a block and the results of its instructions that are not void. -/
def blockEntries (f : Function) (b : Block) : List Value :=
  (f.values[b.label]?).toList ++ (b.instrs.filterMap f.resultOf?).filter (·.ty ≠ .void)

/-- All that takes part in the numbering, in the order of the text. -/
def entries (f : Function) : List Value :=
  f.args.filterMap (f.values[·]?) ++ f.blocks.toList.flatMap f.blockEntries

/-- The entries of the function are those for which the text gives `given`, and their slots count
up from zero. -/
structure NumberedAs (given : List (Option Ident)) (f : Function) : Prop where
  /-- An entry has the name or the number that the text gives, and a number if it gives none. -/
  entries : List.Forall₂ Value.IsGiven given f.entries
  /-- The slots are 0, 1, 2 and so on. -/
  slots : f.entries.filterMap (·.slot?) = List.range (f.entries.filterMap (·.slot?)).length
  /-- A number that is given is the next one: there are as many slots in front of it. -/
  explicit : ∀ {k n : Nat}, given[k]? = some (some (.slot n)) →
    ((f.entries.take k).filterMap (·.slot?)).length = n
  /-- Void results have no slots, and no names. -/
  void : ∀ i ∈ f.instrs, ∀ v, f.values[i.result]? = some v → v.ty = .void →
    v.slot? = none ∧ v.name = ""

end Function

/-! ## Laying out -/

/-- Along a range of places, what is found at them. -/
theorem forall₂_filterMap_range' {α β : Type} {R : α → β → Prop} {g : Nat → Option β}
    {xs : List α} {start : Nat}
    (h : ∀ n x, xs[n]? = some x → ∃ y, g (start + n) = some y ∧ R x y) :
    List.Forall₂ R xs ((List.range' start xs.length).filterMap g) := by
  induction xs generalizing start with
  | nil => exact .nil
  | cons x xs ih =>
    obtain ⟨y, hy, hxy⟩ : ∃ y, g start = some y ∧ R x y := h 0 x rfl
    have hrest : ∀ n x, xs[n]? = some x → ∃ y, g (start + 1 + n) = some y ∧ R x y := by
      intro n x hx
      rw [Nat.add_assoc, Nat.add_comm 1 n]
      exact h (n + 1) x hx
    rw [List.length_cons, List.range'_succ, List.filterMap_cons_some hy]
    exact .cons hxy (ih hrest)

namespace Draft

variable {d : Draft} {f : Function}

/-- A statement is void just when it has no result. -/
def Statement.ResultFits (s : Statement) : Prop := s.result? = none ↔ s.instr.ty = .void

/-- The value is the result of the statement. -/
def Statement.Defines (s : Statement) (v : Value) : Prop :=
  v.ty = s.instr.ty ∧ ∀ id, s.result? = some id → v.Shows id

/-- The results that are not void are those of the statements that have one. -/
theorem forall₂_results {ss : List Statement} {vs : List Value}
    (h : List.Forall₂ Statement.Defines ss vs) (hfits : ∀ s ∈ ss, s.ResultFits) :
    List.Forall₂ Value.Shows (ss.filterMap (·.result?)) (vs.filter (·.ty ≠ .void)) := by
  induction h with
  | nil => exact .nil
  | @cons s v ss vs hsv _ ih =>
    obtain ⟨hs, hss⟩ := List.forall_mem_cons.mp hfits
    obtain ⟨hty, hshows⟩ := hsv
    cases hid : s.result? with
    | none =>
      rw [List.filterMap_cons_none hid, List.filter_cons_of_neg (by simp [hty, hs.mp hid])]
      exact ih hss
    | some id =>
      have hne : v.ty ≠ .void := fun h => by
        have := hs.mpr (hty.symm.trans h)
        rw [hid] at this
        cases this
      rw [List.filterMap_cons_some hid, List.filter_cons_of_pos (by simpa using hne)]
      exact .cons (hshows id hid) (ih hss)

/-- The entries of blocks whose labels have the places from `label` on and whose instructions those
from `instr` on. -/
theorem forall₂_blockEntries {bs : List Block} {label instr : Nat}
    (hlabel : ∀ n b, bs[n]? = some b → ∃ v, f.values[label + n]? = some v ∧ v.Shows b.id)
    (hresult : ∀ n s, (bs.flatMap (·.statements.toList))[n]? = some s →
      ∃ v, f.resultOf? (instr + n) = some v ∧ s.Defines v)
    (hfits : ∀ s ∈ bs.flatMap (·.statements.toList), s.ResultFits) :
    List.Forall₂ Value.Shows (bs.flatMap Block.ids)
      ((layBlocks label instr bs).flatMap f.blockEntries) := by
  induction bs generalizing label instr with
  | nil => exact .nil
  | cons b bs ih =>
    rw [List.flatMap_cons] at hfits hresult
    obtain ⟨hb, hbs⟩ := List.forall_mem_append.mp hfits
    -- The first block, whose statements are in front in the row of all of them.
    obtain ⟨v, hv, hshows⟩ := hlabel 0 b rfl
    have hdefines : List.Forall₂ Statement.Defines b.statements.toList
        ((List.range' instr b.statements.size).filterMap f.resultOf?) :=
      forall₂_filterMap_range' fun n s hs => hresult n s (by
        rwa [List.getElem?_append_left (List.getElem?_eq_some_iff.mp hs).1])
    have hfirst : List.Forall₂ Value.Shows b.ids
        (f.blockEntries ⟨b.id.name, label, List.range' instr b.statements.size⟩) := by
      rw [Function.blockEntries, Block.ids]
      rw [Nat.add_zero] at hv
      simp only [hv]
      exact .cons hshows (forall₂_results hdefines hb)
    -- The others, with all places moved on.
    have hlabel' : ∀ n b, bs[n]? = some b → ∃ v, f.values[label + 1 + n]? = some v ∧ v.Shows b.id := by
      intro n b hb
      rw [Nat.add_assoc, Nat.add_comm 1 n]
      exact hlabel (n + 1) b hb
    have hresult' : ∀ n s, (bs.flatMap (·.statements.toList))[n]? = some s →
        ∃ v, f.resultOf? (instr + b.statements.size + n) = some v ∧ s.Defines v := by
      intro n s hs
      rw [Nat.add_assoc]
      refine hresult (b.statements.size + n) s ?_
      rw [List.getElem?_append_right (by simp)]
      simpa using hs
    rw [layBlocks, List.flatMap_cons, List.flatMap_cons]
    exact List.rel_append hfirst (ih hlabel' hresult' hbs)

/-- **The entries of a function show the identifiers of its draft.** -/
theorem LaidOut.forall₂_entries (h : LaidOut d f) (hfits : ∀ s ∈ d.statements, s.ResultFits) :
    List.Forall₂ Value.Shows d.ids f.entries := by
  refine List.rel_append ?_ ?_
  · have hlength : (d.params.toList.map (·.id)).length = d.params.size := by simp
    rw [h.args, List.range_eq_range', ← hlength]
    refine forall₂_filterMap_range' fun n id hid => ?_
    rw [List.getElem?_map, Option.map_eq_some_iff] at hid
    obtain ⟨p, hp, rfl⟩ := hid
    have harg : d.argDefinitions[n]? = some ⟨some p.id, p.ty, .argument n, p.position⟩ := by
      rw [argDefinitions, List.getElem?_mapIdx, hp]
      rfl
    rw [Nat.zero_add]
    exact ⟨_, h.value_of_definition (definitions_getElem?_arg harg), rfl, rfl⟩
  · rw [h.blocks]
    refine forall₂_blockEntries (fun n b hb => ?_) (fun n s hs => ?_) hfits
    · rw [Array.getElem?_toList] at hb
      exact ⟨_, h.value_of_definition (definitions_getElem?_label hb), rfl, rfl⟩
    · have hlt : n < f.instrs.size := by
        rw [h.size_instrs]
        exact (List.getElem?_eq_some_iff.mp hs).1
      obtain ⟨s', hs', -, hvalue⟩ := h.value_of_result (Array.getElem?_eq_getElem hlt)
      have hsame : s' = s := Option.some.inj (hs'.symm.trans hs)
      rw [Nat.zero_add, Function.resultOf?, Array.getElem?_eq_getElem hlt, Option.bind_some]
      refine ⟨_, hvalue, by rw [← hsame]; rfl, fun id hid => ?_⟩
      rw [hsame, Definition.value, hid]
      exact ⟨rfl, rfl⟩

end Draft

/-! ## The numbering of a function -/

/-- In a row whose numbers count up from zero, there are `n` numbers in front of the number `n`. -/
theorem length_filterMap_take {α : Type} {g : α → Option Nat} {xs : List α} {k n m : Nat} {x : α}
    (h : xs.filterMap g = List.range m) (hx : xs[k]? = some x) (hn : g x = some n) :
    ((xs.take k).filterMap g).length = n := by
  have hsplit : xs = xs.take k ++ x :: xs.drop (k + 1) := by
    obtain ⟨hk, rfl⟩ := List.getElem?_eq_some_iff.mp hx
    rw [← List.drop_eq_getElem_cons hk, List.take_append_drop]
  have hplace : (xs.filterMap g)[((xs.take k).filterMap g).length]? = some n := by
    conv_lhs => rw [hsplit]
    rw [List.filterMap_append, List.filterMap_cons_some hn,
      List.getElem?_append_right (Nat.le_of_eq (by rw [← hsplit])), ← hsplit, Nat.sub_self]
    rfl
  rw [h] at hplace
  exact (eq_of_getElem?_range hplace).symm

/-- Values that show identifiers have their slots. -/
theorem filterMap_slot?_of_shows {ids : List Ident} {vs : List Value}
    (h : List.Forall₂ Value.Shows ids vs) :
    vs.filterMap (·.slot?) = ids.filterMap Ident.slot? := by
  induction h with
  | nil => rfl
  | cons hv _ ih => rw [List.filterMap_cons, List.filterMap_cons, hv.2, ih]

/-- A value that shows an identifier for which the text gives `given`. -/
theorem Value.Shows.isGiven {given : Option Ident} {id : Ident} {v : Value} (h : v.Shows id)
    (hid : id.IsGiven given) : v.IsGiven given := by
  cases given with
  | some id' => exact (show id = id' from hid) ▸ h
  | none =>
    cases id with
    | named name => cases hid
    | slot n => exact ⟨h.1, by rw [h.2]; rfl⟩

/-- A draft that has numbered what the text gives is laid out as a function that is numbered so. -/
theorem Draft.LaidOut.numberedAs {d : Draft} {f : Function} {given : List (Option Ident)}
    {isOpen : Bool} (h : LaidOut d f) (hd : d.Numbered given isOpen) : f.NumberedAs given := by
  have hshows := h.forall₂_entries hd.results
  have hslots : f.entries.filterMap (·.slot?) = List.range d.nextSlot := by
    rw [filterMap_slot?_of_shows hshows, hd.slots]
  have hentries : List.Forall₂ Value.IsGiven given f.entries :=
    forall₂_of_forall₂ hd.ids hshows fun _ _ _ _ hid hv => hv.isGiven hid
  refine ⟨hentries, by rw [hslots, List.length_range], fun {k n} hk => ?_, fun i hi v hv hty => ?_⟩
  · obtain ⟨v, hv, hgiven⟩ := exists_getElem?_of_forall₂ hentries.flip hk
    exact length_filterMap_take hslots hv hgiven.2
  · obtain ⟨n, hn⟩ := Array.mem_iff_getElem?.mp hi
    obtain ⟨s, hs, -, hvalue⟩ := h.value_of_result hn
    rw [hv, Option.some.injEq] at hvalue
    have hnone : s.result? = none := (hd.results s (List.mem_of_getElem? hs)).mpr (by
      rw [hvalue] at hty
      exact hty)
    rw [hvalue, Definition.value, hnone]
    exact ⟨rfl, rfl⟩

namespace Module

/-- The tokens that the header of a part is read from. -/
def Part.head : Part → List Token
  | definition D => D.head
  | declaration D => D.head
  | _ => []

/-- The body of a part. -/
def Part.body : Part → List BodyPart
  | definition D => D.parts
  | _ => []

/-- **Slots are handed out in the order of the text.** Every source text that is read falls into
parts, and each function is numbered as the header and the body of its part give it. -/
theorem numberedAs_of_read {source : String} {m : Module}
    (h : (Module.read source).result = .ok m) : ∃ parts, FallsInto source m parts
      ∧ ∀ part ∈ parts, ∀ f, part.function? = some f →
        ∃ header, Function.readHeader.Reads part.head header
          ∧ f.NumberedAs (header.params.map (·.2.1) ++ BodyPart.givenAll false part.body) := by
  obtain ⟨parts, hparts⟩ := exists_parts_of_read h
  refine ⟨parts, hparts, fun part hpart f hf => ?_⟩
  cases hparts.valid part hpart with
  | @definition D hD =>
    cases hf
    obtain ⟨header, d, d', hreads, hheader, hadds, hfinish⟩ := hD.body
    exact ⟨header, hreads, (Draft.finish_spec hfinish).numberedAs
      ((Draft.numbered_ofHeader hheader).addsAll hadds)⟩
  | @declaration D hD =>
    cases hf
    obtain ⟨header, d, hreads, hheader, hfinish⟩ := hD.function
    refine ⟨header, hreads, ?_⟩
    have hbody : BodyPart.givenAll false (Part.declaration D).body = [] := rfl
    rw [hbody, List.append_nil]
    exact (Draft.finish_spec hfinish).numberedAs (Draft.numbered_ofHeader hheader)
  | attributes _ => cases hf
  | line _ _ => cases hf

/-- A source text whose definitions have names, numbers or neither: an argument and the first block
without, a block with a number, and a result without. -/
def mixedSource : String :=
  "define i8 @f(i8, i8 %x) \x7b
 br label %2
2:
 %y = add i8 %0, %x
 add i8 %y, 1
 ret i8 %3
\x7d
"

/-- The entries of the function that is read from `mixedSource`. -/
theorem numberedAs_of_read_mixed : ∃ m parts f given, (Module.read mixedSource).result = .ok m
    ∧ FallsInto mixedSource m parts ∧ m.functions = [f]
    ∧ f.entries.map (fun v => (v.name, v.slot?))
      = [("", some 0), ("x", none), ("", some 1), ("", some 2), ("y", none), ("", some 3)]
    ∧ f.NumberedAs given := by
  have hread : ((Module.read mixedSource).result.toOption.map fun m =>
      m.functions.map fun f => f.entries.map fun v => (v.name, v.slot?)) = some
        [[("", some 0), ("x", none), ("", some 1), ("", some 2), ("y", none), ("", some 3)]] := by
    decide +kernel
  cases hm : (Module.read mixedSource).result with
  | error e => rw [hm] at hread; cases hread
  | ok m =>
    rw [hm, Except.toOption, Option.map_some, Option.some.injEq] at hread
    obtain ⟨f, hf, hentries⟩ := List.map_eq_singleton_iff.mp hread
    obtain ⟨parts, hparts, hnumbered⟩ := numberedAs_of_read hm
    obtain ⟨part, hpart, hfunction⟩ : ∃ part ∈ parts, part.function? = some f := by
      rw [← List.mem_filterMap, ← hparts.functions, hf]
      exact List.mem_singleton_self f
    obtain ⟨header, -, hgiven⟩ := hnumbered part hpart f hfunction
    exact ⟨m, parts, f, _, rfl, hparts, hf, hentries, hgiven⟩

end Module

end IrRecords
