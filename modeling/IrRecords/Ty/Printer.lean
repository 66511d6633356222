import IrRecords.Ty.Basic

/-!
# Types as text

`Ty.text` writes a type the way source texts spell it. Names of identified structs are written as
they are, without quotes, so that the text of a type with an odd name cannot always be read back;
for the rest, reading the text gives the type again.
-/

namespace IrRecords.Ty

/-- The suffix of a pointer type; address space 0 is not mentioned. -/
def spaceSuffix (space : Nat) : String :=
  if space = 0 then "" else s!" addrspace({space})"

mutual

/-- The type as source texts spell it. -/
def text : Ty → String
  | primitive p => p.keyword
  | int bits => "i" ++ toString bits
  | function ret params vararg =>
    let dots := if vararg then (if params.isEmpty then "..." else ", ...") else ""
    text ret ++ " (" ++ listText params ++ dots ++ ")"
  | pointer pointee space => text pointee ++ spaceSuffix space ++ "*"
  | bare space => "ptr" ++ spaceSuffix space
  | named name => "%" ++ name
  | literal fields packed =>
    let body := if fields.isEmpty then "\x7b\x7d" else "\x7b " ++ listText fields ++ " \x7d"
    if packed then "<" ++ body ++ ">" else body
  | array length elem => "[" ++ toString length ++ " x " ++ text elem ++ "]"
  | vector scalable length elem =>
    "<" ++ (if scalable then "vscale x " else "") ++ toString length ++ " x " ++ text elem ++ ">"

/-- The types of a list, separated by commas. -/
def listText : List Ty → String
  | [] => ""
  | [ty] => text ty
  | ty :: rest => text ty ++ ", " ++ listText rest

end

end IrRecords.Ty
