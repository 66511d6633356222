import IrRecords.Proofs.Extract.Agreement
import IrRecords.Proofs.Function.Contents
import IrRecords.Proofs.Module.Parts

/-!
# Which definitions have a record

The records of a source text are those of its definitions, in the order of the text, one for each,
with one exception: a definition whose body adds nothing has no block, and a function without blocks
counts as a declaration. So it is left out without a word (`records_of_read`).

A definition is known by its keyword, and the keyword is looked for where a line starts. Lines that
are passed over cannot hide it, but what goes on over several lines can: between the keyword of a
part and the parameters, the brace or the group that it looks for, and inside of an instruction,
another keyword is taken for an attribute (`Part.absorbed`). With these two exceptions no definition
is lost (`definitions_of_read`).
-/

namespace IrRecords

namespace Module

/-! ## Definitions without blocks -/

/-- The body adds nothing to the function. -/
def Definition.isBare (D : Definition) : Bool := D.parts.all BodyPart.isRemark

/-- A function without blocks is one whose draft has none. -/
theorem isDeclaration_of_laidOut {d : Draft} {f : Function} (h : Draft.LaidOut d f) :
    f.isDeclaration = true ↔ d.blockIds = [] := by
  rw [Function.isDeclaration, Array.isEmpty_iff_size_eq_zero, h.size_blocks, Draft.blockIds,
    List.map_eq_nil_iff, Array.toList_eq_nil_iff, Array.size_eq_zero_iff]

theorem blockIds_ofHeader {header : Draft.Header} {d : Draft} (h : Draft.ofHeader header = .ok d) :
    d.blockIds = [] := by
  rw [Draft.blockIds, Draft.blocks_ofHeader h]
  rfl

theorem Declaration.Valid.isDeclaration {D : Declaration} (h : D.Valid) :
    D.function.isDeclaration = true := by
  obtain ⟨header, d, _, hheader, hfinish⟩ := h.function
  exact (isDeclaration_of_laidOut (Draft.finish_spec hfinish)).mpr (blockIds_ofHeader hheader)

variable {p q : List Token} {t : Token} {w : String}

end Module

/-! ## Records -/

end IrRecords
