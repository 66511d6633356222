/-!
# Blank characters

`isBlank` is the property `White_Space` of the Unicode standard, twenty-five characters in ten
ranges. It serves one purpose: the text of a constant is shown on one line, with each run of
blanks outside double quotes written as one space.
-/

namespace IrRecords.Text

/-- The ranges of the property `White_Space`, first and last code point. -/
def blankRanges : List (Nat × Nat) :=
  [(0x09, 0x0D), (0x20, 0x20), (0x85, 0x85), (0xA0, 0xA0), (0x1680, 0x1680), (0x2000, 0x200A),
    (0x2028, 0x2029), (0x202F, 0x202F), (0x205F, 0x205F), (0x3000, 0x3000)]

/-- Whether `c` has the property `White_Space`. -/
def isBlank (c : Char) : Bool :=
  blankRanges.any fun (first, last) => first ≤ c.toNat && c.toNat ≤ last

/-- The rest of a collapsed text: `quoted` tells whether an odd number of double quotes lies
behind, `pending` whether a run of blanks does that is not written yet. -/
def collapseFrom (quoted pending : Bool) : List Char → List Char
  | [] => []
  | c :: cs =>
    if !quoted && isBlank c then collapseFrom quoted true cs
    else
      let rest := c :: collapseFrom (quoted ^^ (c == '"')) false cs
      if pending then ' ' :: rest else rest

/-- Writes each run of blanks outside double quotes as one space, and none at the end. -/
def collapse (cs : List Char) : List Char := collapseFrom false false cs

end IrRecords.Text
