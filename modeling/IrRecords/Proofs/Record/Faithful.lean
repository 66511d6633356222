import IrRecords.Proofs.Record.Constants
import IrRecords.Proofs.Token.Faithful

/-!
# Constants are shown faithfully

What is shown of a row of tokens is enough to have the row again: the text is cut into the same tokens,
and there is nothing left to collapse in it (`Token.Retells`). A comment in the row is the exception, since
it would reach to the end of the line that everything is shown on, and so is a blank that is a token of
its own, since it would be shown as a space. So the first half is about rows whose text is plain.

`faithful_of_read` says it of the constants and the metadata among the operands of a function, whose
texts are shown in this way, and of all other rows of neighbouring tokens. Some constants are read and
then dropped, such as the mask of a shuffle, and they are among these rows.
-/

namespace IrRecords

namespace Token

/-- The text shows the row `ts`: it is the text of the row on one line. If the text of the row is plain
then it is cut into tokens of the same kinds again; and it is collapsed to itself. -/
structure Retells (text : String) (ts : List Token) : Prop where
  text_eq : text = rowText ts
  kinds_eq : Text.isPlain (spanText ts) = true → kinds text = .ok (ts.map kind ++ [.eof])
  collapse_eq : Text.collapse text.toList = text.toList

/-- A part of a text is shown. -/
theorem rowText_retells {source : String} {s : Stream} {ts : List Token} (h : scan source = .ok s)
    (hts : ts <:+: s.tokens) : Retells (rowText ts) ts where
  text_eq := rfl
  kinds_eq := kinds_rowText h hts
  collapse_eq := by rw [rowText, String.toList_ofList, Text.collapse_collapse]

end Token

namespace Function

variable {f : Function} {i : Instr} {ts slice : List Token} {id : ValueId}

/-- If the operand `id` is a constant then it is read from `slice`, and its text shows the slice. -/
def KeepsOperand (f : Function) (slice : List Token) (id : ValueId) : Prop :=
  ∀ v text, f.values[id]? = some v → v.origin = .constant text →
    Draft.ReadsConstant v slice ∧ Token.Retells text slice

/-- The operands of `i` are read from rows that stand one behind the other in `ts`. The count of an
allocation need not be written. -/
def KeepsOperands (f : Function) (ts : List Token) (i : Instr) : Prop :=
  (∃ slices, Token.Slices ts slices
    ∧ List.Forall₂ f.KeepsOperand slices (i.opcode.textOrder i.operands))
  ∨ i.opcode = .alloca ∧ ∃ id, i.operands = [id]
    ∧ f.values[id]? = some (.constant (.int 32) "1")

theorem ShowsOperand.keepsOperand (h : f.ShowsOperand i slice id)
    (hslice : Token.Retells (Token.rowText slice) slice) : f.KeepsOperand slice id := by
  intro v text hv horigin
  obtain ⟨rfl, hreads, _⟩ := h v text hv horigin
  exact ⟨hreads, hslice⟩

theorem ShowsOperands.keepsOperands (h : f.ShowsOperands ts i)
    (hts : ∀ slice, slice <:+: ts → Token.Retells (Token.rowText slice) slice) :
    f.KeepsOperands ts i := by
  rcases h with ⟨slices, hslices, hshows⟩ | himplied
  · have hself : List.Forall₂ (fun slice slice' => slice = slice') slices slices :=
      List.forall₂_same.mpr fun _ _ => rfl
    refine .inl ⟨slices, hslices, forall₂_of_forall₂ hself hshows ?_⟩
    rintro slice hslice _ id rfl hid
    exact hid.keepsOperand (hts slice (hslices.infix_of_mem hslice))
  · exact .inr himplied

end Function

namespace Module

/-- **Constants are shown faithfully.** Every row of neighbouring tokens is shown by its text on one
line, and so are the constants and the metadata among the operands of all instructions by their texts,
which are read from such rows. -/
theorem faithful_of_read {source : String} {m : Module} (h : (Module.read source).result = .ok m) :
    ∃ parts, FallsInto source m parts
      ∧ (∀ ts, ts <:+: parts.flatMap Part.tokens → Token.Retells (Token.rowText ts) ts)
      ∧ ∀ D, .definition D ∈ parts →
        List.Forall₂ (fun s i => D.function.KeepsOperands s.tokens i) D.statements
          D.function.instrs.toList := by
  obtain ⟨parts, hparts⟩ := exists_parts_of_read h
  obtain ⟨stop, hscan⟩ := hparts.scan
  have hrows : ∀ ts, ts <:+: parts.flatMap Part.tokens → Token.Retells (Token.rowText ts) ts :=
    fun ts hts => Token.rowText_retells hscan hts
  refine ⟨parts, hparts, hrows, fun D hD => ?_⟩
  cases hparts.valid _ hD with
  | definition hvalid =>
    obtain ⟨d, hlaid, hbecomes⟩ := hvalid.exists_becomes
    have hself : List.Forall₂ (fun s s' => s' = s) D.statements D.statements :=
      List.forall₂_same.mpr fun _ _ => rfl
    refine forall₂_of_forall₂ hself hbecomes ?_
    rintro s hs _ i rfl hi
    refine (hi.showsOperands hlaid (hparts.lexed hD hs)).keepsOperands fun slice hslice => ?_
    exact hrows slice (hslice.trans (infix_of_mem_statements hD hs))

/-- A constant on two lines, with two spaces in a string, and a node of metadata. -/
def aggregateSource : String :=
  "declare void @g(metadata)
define void @f(\x7b i8, [3 x i8] \x7d* %p) \x7b
  store \x7b i8, [3 x i8] \x7d \x7b i8  -2,
    [3 x i8] c\"a  \" \x7d, \x7b i8, [3 x i8] \x7d* %p
  call void @g(metadata !\x7b !7,\tfloat 1.5 \x7d)
  ret void
\x7d
"

/-- The constants of `aggregateSource`, and the tokens that the second of them is cut into. -/
theorem faithful_of_read_aggregate : ∃ m parts, (Module.read aggregateSource).result = .ok m
    ∧ FallsInto aggregateSource m parts
    ∧ (∀ ts, ts <:+: parts.flatMap Part.tokens → Token.Retells (Token.rowText ts) ts)
    ∧ (∀ D, .definition D ∈ parts → List.Forall₂ (fun s i => D.function.KeepsOperands s.tokens i)
      D.statements D.function.instrs.toList)
    ∧ m.functions.map (fun f => f.values.toList.filterMap fun v =>
        match v.origin with
        | .constant text => some text
        | _ => none)
      = [[], ["\x7b i8 -2, [3 x i8] c\"a  \" \x7d", "!\x7b !7, float 1.5 \x7d"]]
    ∧ (Token.kinds "!\x7b !7, float 1.5 \x7d").toOption
      = some [.bang, .opener .curly, .metadata "7", .comma, .word "float", .float "1.5",
        .closer .curly, .eof] := by
  have hread : ((Module.read aggregateSource).result.toOption.map fun m =>
      m.functions.map fun f => f.values.toList.filterMap fun v =>
        match v.origin with
        | .constant text => some text
        | _ => none)
      = some [[], ["\x7b i8 -2, [3 x i8] c\"a  \" \x7d", "!\x7b !7, float 1.5 \x7d"]] := by
    decide +kernel
  obtain ⟨m, hm, hread⟩ := exists_ok_of_toOption hread
  obtain ⟨parts, hparts, hrows, hkeeps⟩ := faithful_of_read hm
  exact ⟨m, parts, hm, hparts, hrows, hkeeps, hread, by decide +kernel⟩

end Module

end IrRecords
