import IrRecords.Proofs.Module.Settling
import IrRecords.Proofs.Ty.Reading

/-!
# Reading undoes printing

The text of a type that survives printing is cut into the tokens of the type, and these are read as the
type, to the last one. So different types of this kind have different texts, and a message that two types
clash shows two different texts: an operand whose type is the type of its definition is never refused.
-/

namespace IrRecords.Ty

open Reader

variable {ty : Ty} {s : Token.Stream}

/-- The text of a type is cut into the tokens of the type, on one line. -/
theorem scan_text (h : ty.prints = true) : ∃ s, Token.scan ty.text = .ok s
    ∧ List.Forall₂ Token.Shows s.tokens (ty.kinds.map (⟨·, 1⟩)) ∧ s.stop.kind = .eof := by
  have hcut := (cuts_text ty h).cut Position.start [] [] (by intro c hc; cases hc) (Token.Cut.nil _)
  rw [List.append_nil, List.append_nil] at hcut
  exact hcut

end IrRecords.Ty
