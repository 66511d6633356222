import IrRecords.Function.Basic
import IrRecords.Proofs.Ty.Spelling

/-!
# Listings

A listing is a function the way it is written down: values have names instead of places, and each
instruction is a line. It covers the instructions on values, memory and control that need no more
than the values of the function and decimal constants (`Listing.Form`).

Three things are said of a listing. Its text (`Listing.text`) is written with the spellings of types
and the renderings of operands. Its outline (`Listing.outline`) is what the function is apart from
where its values lie, with the operands in the order in which a function holds them; a function has
an outline as well (`Function.outline?`), and a function is written as a listing if the two outlines
agree. And a listing can be well-formed (`Listing.WellFormed`): names are distinct and bare, blocks
end in their only terminator, operands are used at the types that they are defined at, and types
survive printing.
-/

namespace IrRecords

namespace Listing

/-! ## Instructions -/

/-- An operand as it is written. -/
inductive Operand where
  /-- A value of the function. -/
  | reference (name : String)
  /-- A decimal constant, possibly signed. -/
  | numeral (text : String)
  deriving Repr, DecidableEq

/-- An operand and the type that it is used at. -/
structure Use where
  ty : Ty
  operand : Operand
  deriving Repr, DecidableEq

/-- The block `name` as an operand. -/
def target (name : String) : Use := ⟨.label, .reference name⟩

/-- The forms of instructions, with what they hold in the order of the text. -/
inductive Form where
  | binary (op : BinaryOp) (ty : Ty) (lhs rhs : Operand)
  | compare (p : Predicate) (ty : Ty) (lhs rhs : Operand)
  | cast (op : CastOp) (value : Use) (ty : Ty)
  | select (condition onTrue onFalse : Use)
  | freeze (value : Use)
  | load (ty : Ty) (address : Use)
  | store (value address : Use)
  /-- The edges are operands and the blocks that they flow in from. -/
  | phi (ty : Ty) (edges : List (Operand × String))
  | br (block : String)
  | condBr (condition : Use) (onTrue onFalse : String)
  | switch (condition : Use) (otherwise : String) (cases : List (Use × String))
  | ret (value? : Option Use)
  deriving Repr, DecidableEq

namespace Form

def opcode : Form → Opcode
  | binary op .. => .binary op
  | compare (.int _) .. => .icmp
  | compare (.float _) .. => .fcmp
  | cast op .. => .cast op
  | select .. => .select
  | freeze _ => .freeze
  | load .. => .load
  | store .. => .store
  | phi .. => .phi
  | br _ | condBr .. => .br
  | switch .. => .switch
  | ret _ => .ret

/-- The type of the result, `void` if there is none. -/
def ty : Form → Ty
  | binary _ ty .. | cast _ _ ty | load ty _ | phi ty _ => ty
  | compare _ ty .. => ty.reshape (.int 1)
  | select _ onTrue _ => onTrue.ty
  | freeze value => value.ty
  | store .. | br _ | condBr .. | switch .. | ret _ => .void

/-- The operands in the order in which a function holds them. A conditional branch has the target
for false in front of the one for true. -/
def uses : Form → List Use
  | binary _ ty lhs rhs | compare _ ty lhs rhs => [⟨ty, lhs⟩, ⟨ty, rhs⟩]
  | cast _ value _ | freeze value => [value]
  | select condition onTrue onFalse => [condition, onTrue, onFalse]
  | load _ address => [address]
  | store value address => [value, address]
  | phi ty edges => edges.map fun e => ⟨ty, e.1⟩
  | br block => [target block]
  | condBr condition onTrue onFalse => [condition, target onFalse, target onTrue]
  | switch condition otherwise cases =>
    condition :: target otherwise :: cases.flatMap fun c => [c.1, target c.2]
  | ret value? => value?.toList

/-- The predicate of a comparison. -/
def predicate? : Form → Option Predicate
  | compare p .. => some p
  | _ => none

/-- The blocks that the operands of a phi flow in from. -/
def incoming : Form → List String
  | phi _ edges => edges.map (·.2)
  | _ => []

/-- The types that are written, apart from those of targets. -/
def types : Form → List Ty
  | binary _ ty .. | compare _ ty .. | phi ty _ => [ty]
  | cast _ value ty => [value.ty, ty]
  | select condition onTrue onFalse => [condition.ty, onTrue.ty, onFalse.ty]
  | freeze value => [value.ty]
  | load ty address => [ty, address.ty]
  | store value address => [value.ty, address.ty]
  | br _ => []
  | condBr condition .. => [condition.ty]
  | switch condition _ cases => condition.ty :: cases.map (·.1.ty)
  | ret value? => value?.toList.map (·.ty)

end Form

/-- An instruction and the name of its result, if it has one. -/
structure Statement where
  result? : Option String
  form : Form
  deriving Repr, DecidableEq

/-- A block. -/
structure Block where
  name : String
  statements : List Statement
  deriving Repr, DecidableEq

end Listing

/-- A function as it is written down. -/
structure Listing where
  name : String
  ret : Ty
  vararg : Bool
  params : List (String × Ty)
  blocks : List Listing.Block
  deriving Repr, DecidableEq

namespace Listing

/-- All statements in the order of the text. -/
def statements (l : Listing) : List Statement := l.blocks.flatMap (·.statements)

/-- The names that a function defines, with their types: parameters, blocks and results. -/
def definitions (l : Listing) : List (String × Ty) :=
  l.params ++ l.blocks.map (fun b => (b.name, .label))
    ++ l.statements.filterMap fun s => s.result?.map (·, s.form.ty)

/-! ## Text -/

/-- An operand is written the way values are rendered. -/
def Operand.text : Operand → String
  | reference name => "%" ++ Text.quoteName name
  | numeral text => text

/-- What a line is made of. -/
inductive Piece where
  | word (text : String)
  | spelling (ty : Ty)
  | operand (o : Operand)
  | comma | equal | opener | closer

def Piece.text : Piece → String
  | word text => text
  | spelling ty => ty.text
  | operand o => o.text
  | comma => ","
  | equal => "="
  | opener => "["
  | closer => "]"

/-- Pieces in a row, each with a blank in front of it, apart from commas. -/
def spaced : List Piece → String
  | [] => ""
  | .comma :: rest => "," ++ spaced rest
  | piece :: rest => " " ++ piece.text ++ spaced rest

def Use.pieces (u : Use) : List Piece := [.spelling u.ty, .operand u.operand]

/-- The edges of a phi, each in brackets, with commas between them. -/
def edgePieces : List (Operand × String) → List Piece
  | [] => []
  | [(o, block)] => [.opener, .operand o, .comma, .operand (.reference block), .closer]
  | (o, block) :: rest =>
    [.opener, .operand o, .comma, .operand (.reference block), .closer] ++ .comma :: edgePieces rest

/-- What stands behind the word of an instruction. -/
def Form.arguments : Form → List Piece
  | binary _ ty lhs rhs => [.spelling ty, .operand lhs, .comma, .operand rhs]
  | compare p ty lhs rhs => [.word p.name, .spelling ty, .operand lhs, .comma, .operand rhs]
  | cast _ value ty => value.pieces ++ [.word "to", .spelling ty]
  | select condition onTrue onFalse =>
    condition.pieces ++ .comma :: (onTrue.pieces ++ .comma :: onFalse.pieces)
  | freeze value => value.pieces
  | load ty address => .spelling ty :: .comma :: address.pieces
  | store value address => value.pieces ++ .comma :: address.pieces
  | phi ty edges => .spelling ty :: edgePieces edges
  | br block => (target block).pieces
  | condBr condition onTrue onFalse =>
    condition.pieces ++ .comma :: ((target onTrue).pieces ++ .comma :: (target onFalse).pieces)
  | switch condition otherwise cases =>
    condition.pieces ++ .comma :: ((target otherwise).pieces ++ .opener ::
      (cases.flatMap (fun c => c.1.pieces ++ .comma :: (target c.2).pieces) ++ [.closer]))
  | ret none => [.spelling .void]
  | ret (some value) => value.pieces

def Form.pieces (form : Form) : List Piece := .word form.opcode.mnemonic :: form.arguments

def Statement.pieces (s : Statement) : List Piece :=
  match s.result? with
  | none => s.form.pieces
  | some name => .operand (.reference name) :: .equal :: s.form.pieces

/-- A line of a body. -/
inductive Line where
  | label (name : String)
  | statement (s : Statement)

def Line.text : Line → String
  | label name => name ++ ":"
  | statement s => " " ++ spaced s.pieces

/-- The lines of a body: for each block its label and one line for each statement. -/
def lines (l : Listing) : List Line :=
  l.blocks.flatMap fun b => .label b.name :: b.statements.map .statement

/-- A list with commas between its elements, and three points at its end if there may be more. -/
def listed : List String → Bool → String
  | [], false => ""
  | [], true => "..."
  | [text], false => text
  | text :: rest, vararg => text ++ ", " ++ listed rest vararg

def paramText (p : String × Ty) : String := p.2.text ++ " %" ++ Text.quoteName p.1

/-- The line in front of the body. -/
def header (l : Listing) : String :=
  "define " ++ l.ret.text ++ " @" ++ Text.quoteName l.name ++ "("
    ++ listed (l.params.map paramText) l.vararg ++ ") \x7b"

/-- The function as a text. -/
def text (l : Listing) : String :=
  l.header ++ "\n" ++ String.join (l.lines.map fun line => line.text ++ "\n") ++ "\x7d\n"

end Listing

/-! ## Outlines -/

/-- What an instruction is, apart from where its operands lie. -/
structure Outline.Instr where
  /-- The name of the result, if it has a value. -/
  result? : Option String
  opcode : Opcode
  ty : Ty
  uses : List Listing.Use
  predicate? : Option Predicate
  incoming : List String
  deriving Repr, DecidableEq

/-- What a function is, apart from where its values lie. -/
structure Outline where
  name : String
  ret : Ty
  vararg : Bool
  params : List (String × Ty)
  blocks : List (String × List Outline.Instr)
  deriving Repr, DecidableEq

namespace Listing

def Statement.outline (s : Statement) : Outline.Instr where
  result? := s.result?
  opcode := s.form.opcode
  ty := s.form.ty
  uses := s.form.uses
  predicate? := s.form.predicate?
  incoming := s.form.incoming

/-- The outline of the function that is written down. -/
def outline (l : Listing) : Outline where
  name := l.name
  ret := l.ret
  vararg := l.vararg
  params := l.params
  blocks := l.blocks.map fun b => (b.name, b.statements.map Statement.outline)

/-- A value as it is used; globals and values without a name can not be written in a listing. -/
def Use.of? (v : Value) : Option Use :=
  match v.origin with
  | .constant text => some ⟨v.ty, .numeral text⟩
  | .global => none
  | .argument _ | .instruction _ | .block _ =>
    if v.name = "" then none else some ⟨v.ty, .reference v.name⟩

/-- A use is written like the value that it is a use of. -/
theorem Use.text_of? {v : Value} {u : Use} (h : Use.of? v = some u) :
    u.ty = v.ty ∧ u.operand.text = v.rendering := by
  obtain ⟨name, slot?, ty, origin⟩ := v
  have hlocal : (if name = "" then none else some (⟨ty, .reference name⟩ : Use)) = some u →
      u.ty = ty ∧ u.operand.text = Value.reference ⟨name, slot?, ty, origin⟩ '%' := by
    intro h
    by_cases hname : name = ""
    · rw [if_pos hname] at h
      cases h
    · rw [if_neg hname] at h
      cases h
      exact ⟨rfl, by rw [Value.reference, if_pos hname]; rfl⟩
  cases origin with
  | constant text => cases h; exact ⟨rfl, rfl⟩
  | global => cases h
  | argument n => exact hlocal h
  | instruction n => exact hlocal h
  | block n => exact hlocal h

end Listing

/-- The predicate of a comparison. -/
def Detail.predicate? : Detail → Option Predicate
  | compare p => some p
  | _ => none

/-- The names of the blocks that the operands of a phi flow in from. -/
def Detail.incoming? (name? : BlockId → Option String) : Detail → Option (List String)
  | phi blocks => blocks.mapM name?
  | _ => some []

namespace Function

open Listing

/-- The outline of an instruction of the function; `none` if a place does not exist, or if an
operand can not be written in a listing. -/
def instrOutline? (f : Function) (i : Instr) : Option Outline.Instr := do
  let result ← f.values[i.result]?
  let uses ← i.operands.mapM fun id => f.values[id]? >>= Use.of?
  let incoming ← i.detail.incoming? fun b => (f.blocks[b]?).map (·.name)
  return ⟨if result.ty = .void then none else some result.name, i.opcode, result.ty, uses,
    i.detail.predicate?, incoming⟩

/-- The outline of a function. -/
def outline? (f : Function) : Option Outline := do
  let params ← f.args.mapM fun id => (f.values[id]?).map fun v => (v.name, v.ty)
  let blocks ← f.blocks.toList.mapM fun b => do
    let instrs ← b.instrs.mapM fun id => f.instrs[id]? >>= f.instrOutline?
    return (b.name, instrs)
  return ⟨f.name, f.ret, f.vararg, params, blocks⟩

/-- No two values share a name, so that the name in an outline stands for one value. -/
def HasDistinctNames (f : Function) : Prop :=
  ((f.values.toList.map (·.name)).filter (· ≠ "")).Nodup

end Function

namespace Listing

/-! ## Well-formed listings -/

/-- A type that values can have. -/
def IsValueTy (ty : Ty) : Prop :=
  ty.prints = true ∧ ty ≠ .void ∧ ty ≠ .label ∧ ty ≠ .metadata
    ∧ ∀ ret params vararg, ty ≠ .function ret params vararg

/-- A row of digits, possibly with a sign. -/
def IsInteger (text : String) : Prop :=
  Text.IsNumeral text.toList ∨ ∃ w, text.toList = '-' :: w ∧ Text.IsNumeral w

/-- A value is used at the type that it is defined at. -/
def Use.WellFormed (defs : List (String × Ty)) (u : Use) : Prop :=
  match u.operand with
  | .reference name => (name, u.ty) ∈ defs
  | .numeral text => IsInteger text

structure Statement.WellFormed (defs : List (String × Ty)) (s : Statement) : Prop where
  result : s.result? = none ↔ s.form.ty = .void
  uses : ∀ u ∈ s.form.uses, u.WellFormed defs
  incoming : ∀ block ∈ s.form.incoming, (block, .label) ∈ defs
  types : ∀ ty ∈ s.form.types, IsValueTy ty

/-- The block is not empty and ends in its only terminator. -/
structure Block.Terminated (b : Block) : Prop where
  last : (b.statements.getLast?).any (·.form.opcode.isTerminator) = true
  body : ∀ s ∈ b.statements.dropLast, s.form.opcode.isTerminator = false

structure WellFormed (l : Listing) : Prop where
  distinct : (l.definitions.map (·.1)).Nodup
  names : ∀ d ∈ l.definitions, Token.IsWord d.1.toList
  ret : l.ret.prints = true
  params : ∀ p ∈ l.params, IsValueTy p.2
  blocks : ∀ b ∈ l.blocks, b.Terminated
  statements : ∀ s ∈ l.statements, s.WellFormed l.definitions

theorem Block.Terminated.exists_split {b : Block} (h : b.Terminated) :
    ∃ body last, b.statements = body ++ [last]
      ∧ ∀ s ∈ body, s.form.opcode.isTerminator = false := by
  have hlast := h.last
  cases hs : b.statements.getLast? with
  | none => rw [hs] at hlast; cases hlast
  | some last =>
    obtain ⟨body, hbody⟩ := List.getLast?_eq_some_iff.mp hs
    refine ⟨body, last, hbody, ?_⟩
    have hrest := h.body
    rwa [hbody, List.dropLast_concat] at hrest

/-! All of this can be decided. -/

instance (ty : Ty) : Decidable (∀ ret params vararg, ty ≠ .function ret params vararg) :=
  match ty with
  | .function ret params vararg => .isFalse fun h => h ret params vararg rfl
  | .primitive _ | .int _ | .pointer .. | .bare _ | .named _ | .literal .. | .array ..
  | .vector .. => .isTrue fun _ _ _ => nofun

instance (ty : Ty) : Decidable (IsValueTy ty) := inferInstanceAs (Decidable (_ ∧ _))

instance (cs : List Char) : Decidable (∃ w, cs = '-' :: w ∧ Text.IsNumeral w) :=
  match cs with
  | [] => .isFalse fun ⟨_, h, _⟩ => nomatch h
  | c :: w => decidable_of_iff (c = '-' ∧ Text.IsNumeral w) <| by
    refine ⟨fun ⟨hc, hw⟩ => ⟨w, by rw [hc], hw⟩, ?_⟩
    rintro ⟨w, h, hw⟩
    cases h
    exact ⟨rfl, hw⟩

instance (text : String) : Decidable (IsInteger text) := inferInstanceAs (Decidable (_ ∨ _))

instance (defs : List (String × Ty)) (u : Use) : Decidable (u.WellFormed defs) :=
  match u with
  | ⟨ty, .reference name⟩ => inferInstanceAs (Decidable ((name, ty) ∈ defs))
  | ⟨_, .numeral text⟩ => inferInstanceAs (Decidable (IsInteger text))

instance (defs : List (String × Ty)) (s : Statement) : Decidable (s.WellFormed defs) :=
  decidable_of_iff ((s.result? = none ↔ s.form.ty = .void) ∧ (∀ u ∈ s.form.uses, u.WellFormed defs)
    ∧ (∀ block ∈ s.form.incoming, (block, .label) ∈ defs) ∧ ∀ ty ∈ s.form.types, IsValueTy ty)
    ⟨fun ⟨h₁, h₂, h₃, h₄⟩ => ⟨h₁, h₂, h₃, h₄⟩, fun ⟨h₁, h₂, h₃, h₄⟩ => ⟨h₁, h₂, h₃, h₄⟩⟩

instance (b : Block) : Decidable b.Terminated :=
  decidable_of_iff ((b.statements.getLast?).any (·.form.opcode.isTerminator) = true
    ∧ ∀ s ∈ b.statements.dropLast, s.form.opcode.isTerminator = false)
    ⟨fun ⟨h₁, h₂⟩ => ⟨h₁, h₂⟩, fun ⟨h₁, h₂⟩ => ⟨h₁, h₂⟩⟩

instance (l : Listing) : Decidable l.WellFormed :=
  decidable_of_iff ((l.definitions.map (·.1)).Nodup ∧ (∀ d ∈ l.definitions, Token.IsWord d.1.toList)
    ∧ l.ret.prints = true ∧ (∀ p ∈ l.params, IsValueTy p.2) ∧ (∀ b ∈ l.blocks, b.Terminated)
    ∧ ∀ s ∈ l.statements, s.WellFormed l.definitions)
    ⟨fun ⟨h₁, h₂, h₃, h₄, h₅, h₆⟩ => ⟨h₁, h₂, h₃, h₄, h₅, h₆⟩,
      fun ⟨h₁, h₂, h₃, h₄, h₅, h₆⟩ => ⟨h₁, h₂, h₃, h₄, h₅, h₆⟩⟩

end Listing

end IrRecords
