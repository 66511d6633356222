import IrRecords.Proofs.Draft.Addresses
import IrRecords.Proofs.Reader.Splices
import IrRecords.Proofs.Token.Insertions

/-!
# Flags

Behind the word of an opcode there may be flags (`flags`). They are the first thing that is read of what
follows the opcode, and nothing is made of them: the same instruction is read with any number of them in
front (`readOperation_flags`).
-/

namespace IrRecords

namespace Draft

open Reader

/-- The flags that an opcode may have behind its word, in any number. (An `atomicrmw` may have one `volatile` there,
and no more.) -/
def flags : Opcode → List String
  | .binary _ | .cast _ | .icmp | .fcmp => arithmeticFlags
  | .fneg | .select | .phi | .call => fastMathFlags
  | .load | .store => memoryFlags
  | .cmpxchg => ["weak", "volatile"]
  | .getelementptr => ["inbounds", "nuw", "nusw"]
  | .alloca => ["inalloca", "swifterror"]
  | _ => []

/-- A flag is a word of its own, and nothing that a reader looks for. -/
theorem isFlag_of_mem_flags {op : Opcode} {w : String} (h : w ∈ flags op) :
    Token.IsFlag w ∧ (TokenKind.word w).isInert = true := by
  have harithmetic : ∀ w ∈ arithmeticFlags, Token.IsFlag w ∧ (TokenKind.word w).isInert = true := by
    decide
  cases op with
  | binary op => exact harithmetic w h
  | cast op => exact harithmetic w h
  | _ =>
    revert w
    decide

variable {ctx : Context} {p : Position} {last? : Option Nat} {is us : List Token} {stop : Token}
  {later : Cursor} {i : Instr}

/-- What is read behind the words `ws` is read behind any number of them. -/
theorem skipWords_bind {α : Type} {ws : List String} (f : Unit → Reader α)
    (hws : ∀ t ∈ is, isWordOf ws t = true) (hline : ∀ t ∈ is, last? = some t.line) :
    (skipWords ws >>= f) ⟨last?, is ++ us, stop⟩ = (skipWords ws >>= f) ⟨last?, us, stop⟩ := by
  have hskip : ∀ c : Cursor, skipWords ws c = .ok ((), c.advanceWhile (isWordOf ws)) := fun _ => rfl
  rw [bind_of_ok (hskip _), bind_of_ok (hskip _), Cursor.advanceWhile_append hws hline]

/-- The place of an address computation is told only where it fails. -/
theorem readGetelementptr_flags (hws : ∀ t ∈ is, isWordOf (flags .getelementptr) t = true)
    (hline : ∀ t ∈ is, last? = some t.line)
    (h : readGetelementptr ctx ⟨last?, us, stop⟩ = .ok (i, later)) :
    readGetelementptr ctx ⟨last?, is ++ us, stop⟩ = .ok (i, later) := by
  obtain ⟨a, ha⟩ := exists_readAddress h
  have ha' : readAddress ⟨last?, is ++ us, stop⟩ = .ok (a, later) := by
    rw [readAddress, ← ha, readAddress]
    exact skipWords_bind _ hws hline
  have hposition : ∀ c, position c = .ok (c.current.start, c) := fun _ => rfl
  rw [readGetelementptr_eq, bind_of_ok (hposition _), bind_of_ok ha] at h
  rw [readGetelementptr_eq, bind_of_ok (hposition _), bind_of_ok ha']
  generalize addressType ctx.types a.source a.baseTy.scalar (a.indices.map (·.2)) = result at h ⊢
  cases result with
  | error fault => cases h
  | ok ty => exact h

/-- **The same instruction is read with flags in front.** -/
theorem readOperation_flags {op : Opcode} (hws : ∀ t ∈ is, isWordOf (flags op) t = true)
    (hline : ∀ t ∈ is, last? = some t.line)
    (h : readOperation ctx p op ⟨last?, us, stop⟩ = .ok (i, later)) :
    readOperation ctx p op ⟨last?, is ++ us, stop⟩ = .ok (i, later) := by
  cases op with
  | getelementptr => exact readGetelementptr_flags hws hline h
  | binary op => exact (skipWords_bind _ hws hline).trans h
  | cast op => exact (skipWords_bind _ hws hline).trans h
  | icmp => exact (skipWords_bind _ hws hline).trans h
  | fcmp => exact (skipWords_bind _ hws hline).trans h
  | fneg => exact (skipWords_bind _ hws hline).trans h
  | select => exact (skipWords_bind _ hws hline).trans h
  | phi => exact (skipWords_bind _ hws hline).trans h
  | call => exact (skipWords_bind _ hws hline).trans h
  | load => exact (skipWords_bind _ hws hline).trans h
  | store => exact (skipWords_bind _ hws hline).trans h
  | cmpxchg => exact (skipWords_bind _ hws hline).trans h
  | alloca => exact (skipWords_bind _ hws hline).trans h
  | _ =>
    -- Nothing is a flag here.
    obtain rfl : is = [] := List.eq_nil_iff_forall_not_mem.mpr fun t ht => by
      have hword := hws t ht
      rw [isWordOf] at hword
      split at hword
      · cases hword
      · cases hword
    exact h

end Draft

end IrRecords
