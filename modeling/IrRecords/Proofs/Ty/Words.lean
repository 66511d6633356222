import IrRecords.Opcode
import IrRecords.Proofs.Reader.Passes
import IrRecords.Ty.Reader

/-!
# The words of types

No word is both an opcode and part of a type. So a reader of types never passes the word of an opcode
(`opcodeFree_read`), and where such a word stands in a text, no type goes on from in front of it to behind it.
-/

namespace IrRecords

/-- Whether a token of this kind is the word of an opcode. -/
def TokenKind.isOpcode : TokenKind → Bool
  | .word w => (Opcode.ofMnemonic? w).isSome
  | _ => false

theorem Opcode.isTypeWord_mnemonic (op : Opcode) : isTypeWord op.mnemonic = false := by
  cases op with
  | binary op => cases op <;> decide
  | cast op => cases op <;> decide
  | _ => decide

theorem TokenKind.isOpcode_of_isTypeWord {w : String} (h : isTypeWord w = true) :
    (TokenKind.word w).isOpcode = false := by
  rw [TokenKind.isOpcode, ← Bool.not_eq_true, Option.isSome_iff_exists]
  rintro ⟨op, hop⟩
  rw [Opcode.eq_mnemonic_of_ofMnemonic? hop, op.isTypeWord_mnemonic] at h
  cases h

namespace Reader

variable {α β σ : Type} {c : Cursor} {k : TokenKind}

/-- From `c` the reader passes no word of an opcode. -/
def OpcodeFree (c : Cursor) (r : Reader α) : Prop :=
  PassesFrom c r fun _ ts => ∀ t ∈ ts, t.kind.isOpcode = false

theorem OpcodeFree.pure (a : α) : OpcodeFree c (Pure.pure a) := PassesFrom.pure (List.forall_mem_nil _)

theorem OpcodeFree.unexpected {what : String} : OpcodeFree c (Reader.unexpected what : Reader α) :=
  PassesFrom.unexpected

theorem OpcodeFree.kind {f : TokenKind → Reader β} (h : OpcodeFree c (f c.current.kind)) :
    OpcodeFree c (Reader.kind >>= f) := h

theorem OpcodeFree.isAt {f : Bool → Reader β} (h : OpcodeFree c (f (c.current.kind == k))) :
    OpcodeFree c (Reader.isAt k >>= f) := h

theorem OpcodeFree.bind {r : Reader α} {f : α → Reader β} (hr : OpcodeFree c r)
    (hf : ∀ a c, OpcodeFree c (f a)) : OpcodeFree c (r >>= f) :=
  PassesFrom.bind hr fun a _ c₁ hts =>
    (hf a c₁).mono fun _ _ hus => List.forall_mem_append.mpr ⟨hts, hus⟩

theorem OpcodeFree.advance {f : Unit → Reader β} (hc : c.current.kind = k) (heof : k ≠ .eof)
    (hk : k.isOpcode = false) (hf : ∀ c, OpcodeFree c (f ())) : OpcodeFree c (Reader.advance >>= f) :=
  PassesFrom.advance (hc ▸ heof) fun c₁ _ =>
    (hf c₁).mono fun _ _ hus => List.forall_mem_cons.mpr ⟨hc ▸ hk, hus⟩

theorem opcodeFree_expect (heof : k ≠ .eof) (hk : k.isOpcode = false) (what : String) :
    OpcodeFree c (expect k what) := by
  refine (passesFrom_expect heof what).mono fun _ ts hts => ?_
  rw [hts.1, List.forall_mem_singleton, hts.2]
  exact hk

theorem opcodeFree_accept (heof : k ≠ .eof) (hk : k.isOpcode = false) : OpcodeFree c (accept k) := by
  rw [accept]
  refine .isAt ?_
  split
  · next hc => exact .advance (beq_iff_eq.mp hc) heof hk fun _ => .pure _
  · exact .pure _

theorem opcodeFree_expectNumber (bound : Nat) (what : String) :
    OpcodeFree c (expectNumber bound what) := by
  rw [expectNumber]
  refine .kind ?_
  split
  · next hc =>
    split
    · exact .advance hc TokenKind.noConfusion rfl fun _ => .pure _
    · exact .unexpected
  · exact .unexpected

theorem OpcodeFree.iterate {step : σ → Reader (Round σ α)} (hstep : ∀ s c, OpcodeFree c (step s))
    (s : σ) : OpcodeFree c (Reader.iterate step s) := by
  refine PassesFrom.iterate (I := fun _ ts => ∀ t ∈ ts, t.kind.isOpcode = false)
    (fun s ts c hts => (hstep s c).mono fun round us hus => ?_) (List.forall_mem_nil _)
  cases round <;> exact List.forall_mem_append.mpr ⟨hts, hus⟩

theorem OpcodeFree.commaSeparated {item : Reader α} (hitem : ∀ c, OpcodeFree c item) :
    OpcodeFree c (Reader.commaSeparated item) := by
  rw [Reader.commaSeparated]
  refine OpcodeFree.bind (.iterate (fun items c => (hitem c).bind fun a c => ?_) #[]) fun _ _ => .pure _
  refine (opcodeFree_accept TokenKind.noConfusion rfl).bind fun more c => ?_
  split <;> exact .pure _

end Reader

namespace Ty

open Reader

variable {c : Cursor} {item : Reader Ty}

theorem opcodeFree_readSpace : OpcodeFree c readSpace := by
  rw [readSpace]
  refine OpcodeFree.bind (opcodeFree_expect TokenKind.noConfusion (by decide) _) fun _ c => ?_
  refine (opcodeFree_expect TokenKind.noConfusion rfl _).bind fun _ c => ?_
  refine (opcodeFree_expectNumber _ _).bind fun _ c => ?_
  exact (opcodeFree_expect TokenKind.noConfusion rfl _).bind fun _ _ => .pure _

theorem opcodeFree_readFields (hitem : ∀ c, OpcodeFree c item) : OpcodeFree c (readFields item) := by
  rw [readFields]
  refine (opcodeFree_expect TokenKind.noConfusion rfl _).bind fun _ c => ?_
  refine (opcodeFree_accept TokenKind.noConfusion rfl).bind fun empty c => ?_
  split
  · exact .pure _
  · refine (OpcodeFree.commaSeparated hitem).bind fun _ c => ?_
    exact (opcodeFree_expect TokenKind.noConfusion rfl _).bind fun _ _ => .pure _

theorem opcodeFree_readParams (hitem : ∀ c, OpcodeFree c item) : OpcodeFree c (readParams item) := by
  rw [readParams]
  refine (opcodeFree_expect TokenKind.noConfusion rfl _).bind fun _ c => ?_
  refine (opcodeFree_accept TokenKind.noConfusion rfl).bind fun empty c => ?_
  split
  · exact .pure _
  · refine OpcodeFree.bind (.iterate (fun params c => ?_) #[]) fun _ c =>
      (opcodeFree_expect TokenKind.noConfusion rfl _).bind fun _ _ => .pure _
    refine (opcodeFree_accept TokenKind.noConfusion rfl).bind fun ellipsis c => ?_
    split
    · exact .pure _
    · refine (hitem c).bind fun param c => ?_
      refine (opcodeFree_accept TokenKind.noConfusion rfl).bind fun more c => ?_
      split <;> exact .pure _

theorem opcodeFree_readLength (bound : Nat) (what : String) : OpcodeFree c (readLength bound what) := by
  rw [readLength]
  refine (opcodeFree_expectNumber _ _).bind fun _ c => ?_
  exact OpcodeFree.bind (opcodeFree_expect TokenKind.noConfusion (by decide) _) fun _ _ => .pure _

theorem opcodeFree_readWord {w : String} (hc : c.current.kind = .word w) :
    OpcodeFree c (readWord w) := by
  have hpass : isTypeWord w = true → ∀ {f : Unit → Reader Ty}, (∀ c, OpcodeFree c (f ())) →
      OpcodeFree c (advance >>= f) := fun hw _ hf =>
    .advance hc TokenKind.noConfusion (TokenKind.isOpcode_of_isTypeWord hw) hf
  rw [readWord]
  split
  · next hptr =>
    refine hpass (by rw [isTypeWord, hptr, Bool.or_true, Bool.true_or]) fun c => .isAt ?_
    split
    · exact opcodeFree_readSpace.bind fun _ _ => .pure _
    · exact .pure _
  · split
    · next hp => exact hpass (by rw [isTypeWord, hp]; rfl) fun _ => .pure _
    · split
      · next hbits => exact hpass (by rw [isTypeWord, hbits]; exact Bool.or_true _) fun _ => .pure _
      · exact .unexpected

theorem opcodeFree_readArray (hitem : ∀ c, OpcodeFree c item) : OpcodeFree c (readArray item) := by
  rw [readArray]
  refine (opcodeFree_readLength _ _).bind fun _ c => (hitem c).bind fun _ c => ?_
  exact (opcodeFree_expect TokenKind.noConfusion rfl _).bind fun _ _ => .pure _

theorem opcodeFree_readAngled (hitem : ∀ c, OpcodeFree c item) : OpcodeFree c (readAngled item) := by
  have hrest : ∀ (scalable : Bool) (c : Cursor), OpcodeFree c (do
      let length ← readLength Text.bound32 "a vector length"
      let elem ← item
      expect (.closer .angle) "'>'"
      return vector scalable length elem) := by
    intro scalable c
    refine (opcodeFree_readLength _ _).bind fun _ c => (hitem c).bind fun _ c => ?_
    exact (opcodeFree_expect TokenKind.noConfusion rfl _).bind fun _ _ => .pure _
  rw [readAngled]
  refine .isAt ?_
  split
  · refine (opcodeFree_readFields hitem).bind fun _ c => ?_
    exact (opcodeFree_expect TokenKind.noConfusion rfl _).bind fun _ _ => .pure _
  · refine OpcodeFree.bind (opcodeFree_accept TokenKind.noConfusion (by decide)) fun scalable c => ?_
    dsimp only
    split
    · exact OpcodeFree.bind (opcodeFree_expect TokenKind.noConfusion (by decide) _) fun _ c => hrest _ c
    · exact hrest _ c

theorem opcodeFree_readBase (hitem : ∀ c, OpcodeFree c item) : OpcodeFree c (readBase item) := by
  rw [readBase]
  refine .kind ?_
  split
  · next hc => exact opcodeFree_readWord hc
  · next hc => exact .advance hc TokenKind.noConfusion rfl fun _ => opcodeFree_readArray hitem
  · next hc => exact .advance hc TokenKind.noConfusion rfl fun _ => opcodeFree_readAngled hitem
  · exact (opcodeFree_readFields hitem).bind fun _ _ => .pure _
  · next hc => exact .advance hc TokenKind.noConfusion rfl fun _ => .pure _
  · exact .unexpected

theorem opcodeFree_readSuffix (hitem : ∀ c, OpcodeFree c item) (ty : Ty) :
    OpcodeFree c (readSuffix item ty) := by
  rw [readSuffix]
  refine .kind ?_
  split
  · next hc => exact .advance hc TokenKind.noConfusion rfl fun _ => .pure _
  · refine opcodeFree_readSpace.bind fun _ c => ?_
    exact (opcodeFree_expect TokenKind.noConfusion rfl _).bind fun _ _ => .pure _
  · exact (opcodeFree_readParams hitem).bind fun _ _ => .pure _
  · exact .pure _

/-- **No type contains the word of an opcode.** -/
theorem opcodeFree_read : OpcodeFree c Ty.read := by
  have hwithin : ∀ (bound : List Token) (c : Cursor), OpcodeFree c (readWithin bound) := by
    intro bound
    induction bound with
    | nil => intro c _ a later h; cases h
    | cons t bound ih =>
      intro c
      rw [readWithin]
      exact (opcodeFree_readBase ih).bind fun base _ => .iterate (fun ty _ => opcodeFree_readSuffix ih ty) base
  intro hstop ty later h
  rw [Ty.read] at h
  exact hwithin c.bound c hstop ty later h

end Ty

end IrRecords
