/-!
# Comparison predicates

Integer and floating-point comparisons have predicates of their own. Some words, such as `ugt`,
name a predicate of either kind, so a word alone does not tell which one is meant.
-/

namespace IrRecords

/-- Predicates of integer comparisons. -/
inductive IntPredicate where
  | eq | ne | ugt | uge | ult | ule | sgt | sge | slt | sle
  deriving Repr, DecidableEq

namespace IntPredicate

/-- Every integer predicate. -/
def all : List IntPredicate := [eq, ne, ugt, uge, ult, ule, sgt, sge, slt, sle]

/-- The word of an integer predicate. -/
def name : IntPredicate → String
  | eq => "eq"
  | ne => "ne"
  | ugt => "ugt"
  | uge => "uge"
  | ult => "ult"
  | ule => "ule"
  | sgt => "sgt"
  | sge => "sge"
  | slt => "slt"
  | sle => "sle"

/-- The integer predicate that a word names. -/
def ofName? (word : String) : Option IntPredicate := all.find? (·.name == word)

theorem ofName?_name (p : IntPredicate) : ofName? p.name = some p := by
  cases p <;> decide

end IntPredicate

/-- Predicates of floating-point comparisons: `o` ones are false on unordered operands, `u` ones
are true. -/
inductive FloatPredicate where
  | never | oeq | ogt | oge | olt | ole | one | ord | uno | ueq | ugt | uge | ult | ule | une
  | always
  deriving Repr, DecidableEq

namespace FloatPredicate

/-- Every floating-point predicate. -/
def all : List FloatPredicate :=
  [never, oeq, ogt, oge, olt, ole, one, ord, uno, ueq, ugt, uge, ult, ule, une, always]

/-- The word of a floating-point predicate. -/
def name : FloatPredicate → String
  | never => "false"
  | oeq => "oeq"
  | ogt => "ogt"
  | oge => "oge"
  | olt => "olt"
  | ole => "ole"
  | one => "one"
  | ord => "ord"
  | uno => "uno"
  | ueq => "ueq"
  | ugt => "ugt"
  | uge => "uge"
  | ult => "ult"
  | ule => "ule"
  | une => "une"
  | always => "true"

/-- The floating-point predicate that a word names. -/
def ofName? (word : String) : Option FloatPredicate := all.find? (·.name == word)

theorem ofName?_name (p : FloatPredicate) : ofName? p.name = some p := by
  cases p <;> decide

end FloatPredicate

/-- The predicate of a comparison. -/
inductive Predicate where
  | int (p : IntPredicate)
  | float (p : FloatPredicate)
  deriving Repr, DecidableEq

/-- The word of a predicate. -/
def Predicate.name : Predicate → String
  | int p => p.name
  | float p => p.name

end IrRecords
