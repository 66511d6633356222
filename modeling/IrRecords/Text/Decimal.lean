/-!
# Decimal numerals

Numerals are read into natural numbers under a bound: slot numbers, bit widths, vector lengths and
address spaces fit 32 bits, array lengths and field numbers fit 64. A numeral is a non-empty row
of ASCII digits; leading zeros are allowed, signs are not.
-/

namespace IrRecords.Text

/-- One more than the greatest 32-bit number. -/
def bound32 : Nat := UInt32.size

/-- One more than the greatest 64-bit number. -/
def bound64 : Nat := UInt64.size

/-- The number below `bound` that the digits `cs` write. -/
def decimal? (bound : Nat) (cs : List Char) : Option Nat :=
  if cs.isEmpty || !cs.all Char.isDigit then none
  else
    let n := Nat.ofDigitChars 10 cs 0
    if n < bound then some n else none

end IrRecords.Text
