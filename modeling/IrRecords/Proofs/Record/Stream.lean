import IrRecords.Proofs.Extract.Agreement
import IrRecords.Proofs.Json.Layout
import IrRecords.Proofs.Text.Quoted

/-!
# Reading a stream back

What the extractor writes can be taken apart again. No document of the compact layout has a line
break, so the stream is cut into documents at line breaks; a document is read as a tree; and the
fields of the tree are looked up by their keys. A field that may be left out has no empty value, so
that nothing is taken for something.

Keys are in strictly ascending order in all objects, so no lookup has a choice, and white space is
all that the pretty stream adds.
-/

namespace IrRecords

/-! ## Fields -/

namespace Json

/-- In every object the keys are in strictly ascending order. -/
inductive Sorted : Json → Prop
  | str (s : String) : Sorted (str s)
  | arr {items : List Json} (h : ∀ item ∈ items, Sorted item) : Sorted (arr items)
  | obj {fields : List (String × Json)} (hkeys : (fields.map Prod.fst).Pairwise (· < ·))
      (h : ∀ field ∈ fields, Sorted field.2) : Sorted (obj fields)

/-- The value of a field. -/
def field? (key : String) : Json → Option Json
  | obj fields => fields.lookup key
  | _ => none

/-- The string that a document is. -/
def str? : Json → Option String
  | str s => some s
  | _ => none

/-- The list that a document is. -/
def arr? : Json → Option (List Json)
  | arr items => some items
  | _ => none

/-- The value of a field that holds a string. -/
def text? (key : String) (j : Json) : Option String := (j.field? key).bind str?

/-- The value of a field that holds a list. -/
def items? (key : String) (j : Json) : Option (List Json) := (j.field? key).bind arr?

theorem bind_str? (value? : Option String) : (value?.map str).bind str? = value? := by
  cases value? with
  | none => rfl
  | some value => rfl

end Json

namespace Record

/-! ## Records -/

/-- Reads the record of an argument. -/
def Argument.ofJson? (j : Json) : Option Argument := do
  let name ← j.text? "name"
  let ty ← j.text? "type"
  let value ← j.text? "value"
  return ⟨name, ty, value⟩

/-- Reads the record of an operand. -/
def Operand.ofJson? (j : Json) : Option Operand := do
  let name ← j.text? "name"
  let ty ← j.text? "type"
  let value ← j.text? "value"
  return ⟨name, j.text? "prev_block", ty, value⟩

/-- Reads the record of an instruction. -/
def Instr.ofJson? (j : Json) : Option Instr := do
  let name ← j.text? "name"
  let opcode ← j.text? "opcode"
  let operands ← (← j.items? "operands").mapM Operand.ofJson?
  let ty ← j.text? "type"
  return {
    allocaSize? := j.text? "alloca_size"
    allocaType? := j.text? "alloca_type"
    name := name
    opcode := opcode
    operands := operands
    predicate? := j.text? "predicate"
    ty := ty }

/-- Reads the record of a block. -/
def Block.ofJson? (j : Json) : Option Block := do
  let instrs ← (← j.items? "insts").mapM Instr.ofJson?
  let name ← j.text? "name"
  return ⟨instrs, name⟩

/-- Reads the record of a function. -/
def Function.ofJson? (j : Json) : Option Function := do
  let args ← (← j.items? "args").mapM Argument.ofJson?
  let blocks ← (← j.items? "basic_blocks").mapM Block.ofJson?
  let name ← j.text? "name"
  let ret ← j.text? "ret_type"
  return ⟨args, blocks, name, ret⟩

/-- Lists of records are read if each record is. -/
theorem mapM_ofJson {α : Type} {toJson : α → Json} {ofJson? : Json → Option α}
    (h : ∀ a, ofJson? (toJson a) = some a) (as : List α) :
    (as.map toJson).mapM ofJson? = some as := by
  induction as with
  | nil => rfl
  | cons a as ih =>
    rw [List.map_cons, List.mapM_cons, h, ih]
    rfl

/-- A field that may be left out is found by its key, if it is there. -/
theorem lookup_optionalField (k key : String) (value? : Option String) :
    (optionalField key value?).lookup k = if k = key then value?.map .str else none := by
  cases value? with
  | none => simp [optionalField]
  | some value =>
    by_cases h : k = key
    · simp [optionalField, h]
    · simp [optionalField, List.lookup_cons, beq_false_of_ne h, h]

theorem Argument.ofJson?_toJson (a : Argument) : ofJson? a.toJson = some a := rfl

theorem Operand.ofJson?_toJson (o : Operand) : ofJson? o.toJson = some o := by
  simp [ofJson?, toJson, Json.text?, Json.field?, List.lookup_append, List.lookup_cons,
    lookup_optionalField, Json.bind_str?, Json.str?]

theorem Instr.ofJson?_toJson (i : Instr) : ofJson? i.toJson = some i := by
  simp [ofJson?, toJson, Json.text?, Json.items?, Json.field?, List.lookup_append, List.lookup_cons,
    lookup_optionalField, Json.bind_str?, Json.str?, Json.arr?, mapM_ofJson Operand.ofJson?_toJson]

theorem Block.ofJson?_toJson (b : Block) : ofJson? b.toJson = some b := by
  simp [ofJson?, toJson, Json.text?, Json.items?, Json.field?, List.lookup_cons, Json.str?,
    Json.arr?, mapM_ofJson Instr.ofJson?_toJson]

/-- **Records are read from their documents.** -/
theorem Function.ofJson?_toJson (f : Function) : ofJson? f.toJson = some f := by
  simp [ofJson?, toJson, Json.text?, Json.items?, Json.field?, List.lookup_cons, Json.str?,
    Json.arr?, mapM_ofJson Argument.ofJson?_toJson, mapM_ofJson Block.ofJson?_toJson]

/-! ## Keys -/

theorem keys_optionalField (key : String) (value? : Option String) :
    ((optionalField key value?).map Prod.fst).Sublist [key] := by
  cases value? with
  | none => exact List.nil_sublist _
  | some value => exact List.Sublist.refl _

/-- Fields that may be left out hold strings. -/
theorem sorted_optionalField (key : String) (value? : Option String) :
    ∀ field ∈ optionalField key value?, field.2.Sorted := by
  cases value? with
  | none => exact List.forall_mem_nil _
  | some value => exact List.forall_mem_singleton.mpr (.str value)

/-- A list of documents is sorted if each of them is. -/
theorem sorted_map {α : Type} {toJson : α → Json} (h : ∀ a, (toJson a).Sorted) (as : List α) :
    (Json.arr (as.map toJson)).Sorted := .arr (List.forall_mem_map.mpr fun a _ => h a)

theorem Argument.sorted_toJson (a : Argument) : a.toJson.Sorted := by
  refine .obj ?_ ?_
  · change ["name", "type", "value"].Pairwise (· < ·)
    decide
  · simp [Json.Sorted.str]

theorem Operand.sorted_toJson (o : Operand) : o.toJson.Sorted := by
  refine .obj ?_ ?_
  · have hkeys : ["name", "prev_block", "type", "value"].Pairwise (· < ·) := by decide
    rw [List.map_append, List.map_append]
    exact hkeys.sublist (((List.Sublist.refl ["name"]).append (keys_optionalField _ _)).append
      (List.Sublist.refl _))
  · simp only [List.forall_mem_append]
    exact ⟨⟨by simp [Json.Sorted.str], sorted_optionalField _ _⟩, by simp [Json.Sorted.str]⟩

theorem Instr.sorted_toJson (i : Instr) : i.toJson.Sorted := by
  refine .obj ?_ ?_
  · have hkeys : ["alloca_size", "alloca_type", "name", "opcode", "operands", "predicate",
        "type"].Pairwise (· < ·) := by decide
    simp only [List.map_append]
    exact hkeys.sublist (((((keys_optionalField _ _).append (keys_optionalField _ _)).append
      (List.Sublist.refl _)).append (keys_optionalField _ _)).append (List.Sublist.refl _))
  · simp only [List.forall_mem_append]
    exact ⟨⟨⟨⟨sorted_optionalField _ _, sorted_optionalField _ _⟩,
      by simp [Json.Sorted.str, sorted_map Operand.sorted_toJson]⟩, sorted_optionalField _ _⟩,
      by simp [Json.Sorted.str]⟩

theorem Block.sorted_toJson (b : Block) : b.toJson.Sorted := by
  refine .obj ?_ ?_
  · change ["insts", "name"].Pairwise (· < ·)
    decide
  · simp [Json.Sorted.str, sorted_map Instr.sorted_toJson]

/-- **Documents have their keys in strictly ascending order.** -/
theorem Function.sorted_toJson (f : Function) : f.toJson.Sorted := by
  refine .obj ?_ ?_
  · change ["args", "basic_blocks", "name", "ret_type"].Pairwise (· < ·)
    decide
  · simp [Json.Sorted.str, sorted_map Argument.sorted_toJson, sorted_map Block.sorted_toJson]

/-! ## Streams -/

/-- The bytes of the compact document of a record. -/
def Function.document (f : Function) : List UInt8 := Utf8.encode f.toJson.compact.toList

/-- Reads a document from its bytes. -/
def readDocument? (bytes : List UInt8) : Option Json :=
  (Utf8.decode? bytes).bind fun text => Json.read? text.toList

/-- Reads a record from the bytes of its document. -/
def Function.decode? (bytes : List UInt8) : Option Function :=
  (readDocument? bytes).bind Function.ofJson?

theorem readDocument?_document (f : Function) : readDocument? f.document = some f.toJson := by
  rw [readDocument?, Function.document, Utf8.decode?_encode, Option.bind_some,
    String.toList_ofList, Json.read?_compact]

theorem Function.decode?_document (f : Function) : decode? f.document = some f := by
  rw [decode?, readDocument?_document, Option.bind_some, ofJson?_toJson]

/-- A line of a stream has its line break at its end only. -/
theorem newline_not_mem_document (f : Function) : 0x0A ∉ f.document := fun h =>
  Json.newline_not_mem_compact f.toJson (Utf8.mem_of_mem_encode (c := '\n') (by decide) h)

/-- **A stream is cut into its documents at line breaks**, with nothing behind the last of them. -/
theorem splitOn_documents (fs : List Function) :
    (documents false fs).splitOn 0x0A = fs.map Function.document ++ [[]] := by
  induction fs with
  | nil => rfl
  | cons f fs ih =>
    have hcons : documents false (f :: fs) = f.document ++ 0x0A :: documents false fs := by
      rw [documents, List.flatMap_cons, Function.line, String.toList_append, Utf8.encode_append,
        List.append_assoc]
      rfl
    rw [hcons, List.splitOn_append_cons_self_of_not_mem (newline_not_mem_document f), ih]
    rfl

/-- **The pretty stream is the compact documents and white space.** -/
theorem squeeze_documents (fs : List Function) :
    Json.squeeze .outside (documents true fs) = fs.flatMap Function.document := by
  induction fs with
  | nil => rfl
  | cons f fs ih =>
    have hline : Json.Squeezes (f.line true) f.toJson.compact :=
      (Json.squeezes_prettyAt f.toJson 0).append_blank fun _ => rfl
    rw [documents, List.flatMap_cons, hline, List.flatMap_cons]
    exact congrArg _ ih

end Record

/-- **Streams are read back.** The compact stream of a list of records has a line for each of them
and nothing else; each line is read as its record, and as a document whose keys are in strictly
ascending order in every object. So two lists with one stream are one list. Without the white space
outside of its strings the pretty stream is the compact documents, one behind the other. -/
theorem stream_read_back (rs : List Record.Function) :
    (documents false rs).splitOn 0x0A = rs.map Record.Function.document ++ [[]]
      ∧ (∀ r ∈ rs, Record.Function.decode? r.document = some r
        ∧ ∃ j, Record.readDocument? r.document = some j ∧ j.Sorted)
      ∧ (∀ rs', documents false rs' = documents false rs → rs' = rs)
      ∧ Json.squeeze .outside (documents true rs) = rs.flatMap Record.Function.document := by
  refine ⟨Record.splitOn_documents rs, fun r _ => ⟨r.decode?_document, r.toJson,
    Record.readDocument?_document r, r.sorted_toJson⟩, fun rs' h => ?_, Record.squeeze_documents rs⟩
  have hinjective : Function.Injective Record.Function.document := by
    intro r r' h
    rw [← Option.some_inj, ← r.decode?_document, h, r'.decode?_document]
  have hlines : rs'.map Record.Function.document ++ [[]]
      = rs.map Record.Function.document ++ [[]] := by
    rw [← Record.splitOn_documents, h, Record.splitOn_documents]
  exact hinjective.list_map (List.append_cancel_right hlines)

end IrRecords
