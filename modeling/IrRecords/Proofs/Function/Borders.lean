import IrRecords.Function.Reader
import IrRecords.Proofs.Draft.Borders
import IrRecords.Proofs.Function.Body

/-!
# Functions end where a part ends

The readers of headers and bodies come to the same at the end of a text and in front of another part
(`extends_readHeader`, `extends_readBody`), and so do those of declarations and definitions. In a row of
attributes a reader may go on into the next part, but then what a header needs behind them is missing where the
text ends. A body has a brace that closes it, so the comma that instructions can be trapped by does no harm.
-/

namespace IrRecords.Function

open Reader Draft

variable {B : Border}

/-! ## Headers -/

/-- Behind the end of a part an attribute may follow that does not belong to it. -/
theorem strays_skipHeaderAttributes :
    Strays B (fun _ => True) skipHeaderAttributes skipHeaderAttributes := by
  rw [skipHeaderAttributes]
  refine (strays_skipAttributes _ _).bind (fun _ => (extends_skipWhile fun t ht => ?_).strays)
    fun _ _ => ends_skipWhile _
  rw [isGroupReference]
  split
  · next hk =>
    rw [hk] at ht
    cases ht
  · rfl

theorem extends_readName : Local B readName := by
  rw [readName]
  refine .kind_of_starves (fun k => ?_) (starves_unexpected _)
  split
  · exact extendsInside_advance.bind fun _ => extends_pure _
  · exact (extends_unexpected _).inside

theorem strays_readParam : Strays B (fun _ => True) readParam readParam := by
  rw [readParam]
  refine .position (fun p => ?_) fun p => Starves.bind Ty.starves_read
  refine Strays.bind (P := fun _ => False) Ty.extends_read.strays (fun ty => ?_) fun _ h => h.elim
  refine strays_skipHeaderAttributes.bind (fun _ => ?_) fun _ _ => .kind (.pure trivial)
  refine ExtendsInside.strays (.kind fun k => ?_) (.kind (.pure trivial))
  split
  · exact extendsInside_advance.bind fun _ => extends_pure _
  · exact (extends_pure _).inside

theorem extends_readParams : Local B readParams := by
  rw [readParams]
  refine (extends_expect TokenKind.noConfusion _).bind fun _ => (extends_accept rfl).bind fun _ => ?_
  split
  · exact extends_pure _
  · refine Strays.extends (P := fun _ => True) (.iterate (fun params => ?_) #[]) (fun _ => ?_)
      fun _ _ => Starves.bind (starves_expect TokenKind.noConfusion _)
    · refine Strays.bind (P := fun _ => False) (extends_accept rfl).strays (fun dots => ?_)
        fun _ h => h.elim
      split
      · exact (extends_pure _).strays
      · refine strays_readParam.bind (fun param => ?_) fun param _ => ?_
        · refine Extends.strays ((extends_accept rfl).bind fun more => ?_)
          split <;> exact extends_pure _
        · refine (ends_accept TokenKind.noConfusion).bind fun more hmore => ?_
          rw [hmore]
          exact .pure ⟨_, rfl, trivial⟩
    · exact (extends_expect TokenKind.noConfusion _).bind fun _ => extends_pure _

/-- **A header is the same at the end of a text and in front of another part.** -/
theorem extends_readHeader : Local B readHeader := by
  rw [readHeader]
  refine strays_skipHeaderAttributes.extends (fun _ => ?_) fun _ _ => Starves.bind Ty.starves_read
  refine Ty.extends_read.bind fun ret => extends_readName.bind fun name => ?_
  exact extends_readParams.bind fun _ => extends_pure _

/-! ## Bodies -/

theorem extendsInside_readResult? : ExtendsInside B readResult? readResult? := by
  rw [readResult?]
  refine .kind fun k => .nextKind_pair (fun next c c' hc htwo => ?_) ?_ fun next hnext => ?_
  · split
    · exact outcome_advance_two hc htwo (extends_pure _)
    · exact extends_pure _ c c' hc
  · split
    · next h => cases h
    · exact (extends_pure _).inside
  · split
    · cases hnext
    · cases k <;> rfl

theorem dooms_readStatement (ctx : Context) (d : Draft) :
    DoomsInside B (readStatement ctx d) (readStatement ctx d) := by
  rw [readStatement]
  refine .position fun p => extendsInside_readResult?.bind_dooms fun result? => ?_
  refine (dooms_readInstr ctx).bind (fun instr => Extends.dooms ?_) fun instr c => ?_
  · exact extends_skipRestOfLine.bind fun _ => extends_lift _
  · exact passesFrom_skipRestOfLine.bind fun _ _ _ _ => .lift fun _ _ => trivial

theorem dooms_readBodyItem (ctx : Context) (d : Draft) :
    Dooms B (readBodyItem ctx d) (readBodyItem ctx d) := by
  rw [readBodyItem]
  refine .kind_of_starves (fun k => ?_) (starves_unexpected _)
  split
  · exact (extendsInside_advance.bind fun _ => extends_pure _).dooms
  · exact (extends_unexpected _).inside.dooms
  · refine .position fun p => ExtendsInside.dooms (extendsInside_advance.bind fun _ => ?_)
    exact (extends_lift _).bind fun _ => extends_pure _
  · exact (extendsInside_skipLine.bind fun _ => extends_pure _).dooms
  · exact (dooms_readStatement ctx d).bind (fun _ => (extends_pure _).dooms) fun _ _ => .pure trivial

/-- **A body is the same at the end of a text and in front of another part.** -/
theorem extends_readBody (ctx : Context) (h : Header) : Local B (readBody ctx h) := by
  rw [readBody]
  refine (strays_skipWhile _).extends (fun _ => ?_)
    fun _ _ => Starves.bind (starves_expect TokenKind.noConfusion _)
  refine (extends_expect TokenKind.noConfusion _).bind fun _ => (extends_lift _).bind fun d => ?_
  refine Extends.bind (Dooms.extends_iterate (dooms_readBodyItem ctx) (fun d c => ?_) ?_ d)
    fun _ => extends_lift _
  · refine (passesFrom_readBodyItem ctx d c).mono fun round ts hround d' hd' => ?_
    cases hd'
    obtain ⟨_, t, rfl, ht⟩ := hround
    exact ⟨t, List.mem_singleton_self t, ht⟩
  · intro d c c' d' c₁ hc hread e he
    obtain ⟨ts, hts, _, t, rfl, ht⟩ := passesFrom_readBodyItem ctx d c hc.eof _ _ hread
    have hkind : Reader.kind c' = .ok (.closer .curly, c') := by
      rw [Reader.kind, Cursor.current, hc.rest, hts.rest, ← ht]
      rfl
    rw [readBodyItem, bind_of_ok hkind] at he
    cases he

/-! ## Functions -/

/-- What follows both runs of a traced computation. -/
theorem Border.Outcome.traced_bind {α β : Type} {t t' : Traced Diagnostic (α × Cursor)}
    {f f' : α × Cursor → Traced Diagnostic (β × Cursor)} (ht : B.Outcome t.result t'.result)
    (hf : ∀ a c c', B.Beside c c' → B.Outcome (f (a, c)).result (f' (a, c')).result) :
    B.Outcome (t >>= f).result (t' >>= f').result := by
  obtain ⟨log, result⟩ := t
  obtain ⟨log', result'⟩ := t'
  cases ht with
  | same h => exact hf _ _ _ h
  | refused h => exact .refused h
  | wants h => exact .wants h

variable {c c' : Cursor}

/-- **A declaration ends with its line.** -/
theorem outcome_readDeclaration (hc : B.Beside c c') :
    B.Outcome (readDeclaration c).result (readDeclaration c').result := by
  rw [readDeclaration, readDeclaration]
  refine Border.Outcome.traced_bind (extends_readHeader c c' hc) fun h c₁ c₁' hc₁ => ?_
  dsimp only
  cases Draft.ofHeader h >>= Draft.finish with
  | error d => exact .fails d
  | ok f => exact .same hc₁.skipRestOfLine

/-- **A definition ends with its body.** -/
theorem outcome_readDefinition (ctx : Context) (hc : B.Beside c c') :
    B.Outcome (readDefinition ctx c).result (readDefinition ctx c').result := by
  rw [readDefinition, readDefinition]
  refine Border.Outcome.traced_bind (extends_readHeader c c' hc) fun h _ _ hc₁ => ?_
  exact extends_readBody ctx h _ _ hc₁

end IrRecords.Function
