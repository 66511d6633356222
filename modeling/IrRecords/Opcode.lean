/-!
# Opcodes

The instructions of the language, by their first word. The binary operations and the casts each
share one form and one typing rule, so they are families of their own.
-/

namespace IrRecords

/-- Operations on two operands of one type. -/
inductive BinaryOp where
  | add | fadd | sub | fsub | mul | fmul | udiv | sdiv | fdiv | urem | srem | frem
  | shl | lshr | ashr | and | or | xor
  deriving Repr, DecidableEq

namespace BinaryOp

/-- Every binary operation. -/
def all : List BinaryOp :=
  [add, fadd, sub, fsub, mul, fmul, udiv, sdiv, fdiv, urem, srem, frem, shl, lshr, ashr, and, or,
    xor]

/-- The word of a binary operation. -/
def mnemonic : BinaryOp → String
  | add => "add"
  | fadd => "fadd"
  | sub => "sub"
  | fsub => "fsub"
  | mul => "mul"
  | fmul => "fmul"
  | udiv => "udiv"
  | sdiv => "sdiv"
  | fdiv => "fdiv"
  | urem => "urem"
  | srem => "srem"
  | frem => "frem"
  | shl => "shl"
  | lshr => "lshr"
  | ashr => "ashr"
  | and => "and"
  | or => "or"
  | xor => "xor"

end BinaryOp

/-- Conversions of one operand to a given type. -/
inductive CastOp where
  | trunc | zext | sext | fptoui | fptosi | uitofp | sitofp | fptrunc | fpext
  | ptrtoint | inttoptr | bitcast | addrspacecast
  deriving Repr, DecidableEq

namespace CastOp

/-- Every conversion. -/
def all : List CastOp :=
  [trunc, zext, sext, fptoui, fptosi, uitofp, sitofp, fptrunc, fpext, ptrtoint, inttoptr, bitcast,
    addrspacecast]

/-- The word of a conversion. -/
def mnemonic : CastOp → String
  | trunc => "trunc"
  | zext => "zext"
  | sext => "sext"
  | fptoui => "fptoui"
  | fptosi => "fptosi"
  | uitofp => "uitofp"
  | sitofp => "sitofp"
  | fptrunc => "fptrunc"
  | fpext => "fpext"
  | ptrtoint => "ptrtoint"
  | inttoptr => "inttoptr"
  | bitcast => "bitcast"
  | addrspacecast => "addrspacecast"

end CastOp

/-- The kinds of instructions. -/
inductive Opcode where
  | ret | br | switch | indirectbr | unreachable
  | fneg
  | binary (op : BinaryOp)
  | alloca | load | store | getelementptr | fence | cmpxchg | atomicrmw
  | cast (op : CastOp)
  | icmp | fcmp | phi | call | select | vaArg
  | extractelement | insertelement | shufflevector | extractvalue | insertvalue
  | freeze
  deriving Repr, DecidableEq

namespace Opcode

/-- Every opcode. -/
def all : List Opcode :=
  [ret, br, switch, indirectbr, unreachable, fneg] ++ BinaryOp.all.map binary
    ++ [alloca, load, store, getelementptr, fence, cmpxchg, atomicrmw] ++ CastOp.all.map cast
    ++ [icmp, fcmp, phi, call, select, vaArg, extractelement, insertelement, shufflevector,
      extractvalue, insertvalue, freeze]

/-- The word that starts an instruction. -/
def mnemonic : Opcode → String
  | ret => "ret"
  | br => "br"
  | switch => "switch"
  | indirectbr => "indirectbr"
  | unreachable => "unreachable"
  | fneg => "fneg"
  | binary op => op.mnemonic
  | alloca => "alloca"
  | load => "load"
  | store => "store"
  | getelementptr => "getelementptr"
  | fence => "fence"
  | cmpxchg => "cmpxchg"
  | atomicrmw => "atomicrmw"
  | cast op => op.mnemonic
  | icmp => "icmp"
  | fcmp => "fcmp"
  | phi => "phi"
  | call => "call"
  | select => "select"
  | vaArg => "va_arg"
  | extractelement => "extractelement"
  | insertelement => "insertelement"
  | shufflevector => "shufflevector"
  | extractvalue => "extractvalue"
  | insertvalue => "insertvalue"
  | freeze => "freeze"

/-- The opcode that a word names. -/
def ofMnemonic? (word : String) : Option Opcode := all.find? (·.mnemonic == word)

/-- Whether the instruction ends its block. -/
def isTerminator : Opcode → Bool
  | ret | br | switch | indirectbr | unreachable => true
  | _ => false

theorem mem_all (op : Opcode) : op ∈ all := by
  cases op with
  | binary op => cases op <;> decide
  | cast op => cases op <;> decide
  | _ => decide

set_option maxRecDepth 4000 in
theorem ofMnemonic?_mnemonic (op : Opcode) : ofMnemonic? op.mnemonic = some op := by
  cases op with
  | binary op => cases op <;> decide
  | cast op => cases op <;> decide
  | _ => decide

theorem eq_mnemonic_of_ofMnemonic? {word : String} {op : Opcode} (h : ofMnemonic? word = some op) :
    word = op.mnemonic :=
  (beq_iff_eq.mp (List.find?_some (p := fun op : Opcode => op.mnemonic == word) h)).symm

end Opcode

end IrRecords
