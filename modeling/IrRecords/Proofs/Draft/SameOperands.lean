import IrRecords.Proofs.Draft.Spelling
import IrRecords.Proofs.Token.Lexemes
import IrRecords.Proofs.Ty.Steady

/-!
# Operands are read alike

In two texts with the same tokens the same operands are read (`SameOperand`): a reference stands in
another place, and the text of a constant may be shown in another way. The number that a constant
selects a field by is the same nevertheless. A numeral is one token, and nothing else that is read as
a constant is taken for a number (`decimal?_rowText_of_not_isNumeric`).
-/

namespace IrRecords

/-- The value `v'` is the value `v`, but the text of a constant that satisfies `X` may be another. -/
def Value.SameBut (X : String → Prop) (v v' : Value) : Prop :=
  v' = v ∨ ∃ text text', X text ∧ v.origin = .constant text
    ∧ v' = { v with origin := .constant text' }

/-- Whether the text of a token of this kind may begin with a digit. -/
def TokenKind.isNumeric : TokenKind → Bool
  | .int _ | .float _ | .label _ => true
  | _ => false

theorem isNumeric_numeralKind (isFloat : Bool) (cs : List Char) :
    (Token.numeralKind isFloat cs).isNumeric = true := by
  cases isFloat <;> rfl

/-- What begins with a digit is a numeral or a label. -/
theorem Token.isNumeric_lexeme {c : Char} {cs : List Char} {kind : TokenKind} {used : Nat}
    (h : lexeme c cs = .ok (kind, used)) (hc : c.isDigit = true) : kind.isNumeric = true := by
  rw [lexeme_of_isDigit hc] at h
  dsimp only at h
  split at h
  · cases h
    rfl
  · cases h
    exact isNumeric_numeralKind _ _

namespace Draft

open Reader

variable {T : Twins}

/-! ## Constants and operands -/

/-- Blanks are shown as one space, or not at all. -/
theorem collapseFrom_pending (cs : List Char) :
    Text.collapseFrom false true cs = [] ∨ ∃ ds, Text.collapseFrom false true cs = ' ' :: ds := by
  induction cs with
  | nil => exact .inl rfl
  | cons c cs ih =>
    rw [Text.collapseFrom]
    split
    · exact ih
    · exact .inr ⟨_, rfl⟩

/-- A text that does not begin with a digit writes no number, also on one line. -/
theorem decimal?_collapse {c : Char} (hc : c.isDigit = false) (cs : List Char) (bound : Nat) :
    Text.decimal? bound (Text.collapse (c :: cs)) = none := by
  have hspace : ∀ ds, Text.decimal? bound (' ' :: ds) = none := fun ds => rfl
  rw [Text.collapse, Text.collapseFrom]
  split
  · rcases collapseFrom_pending cs with h | ⟨ds, h⟩
    · rw [h]
      rfl
    · rw [h]
      exact hspace ds
  · rw [Text.decimal?]
    simp [hc]

/-- A row whose first token is no numeral writes no number. -/
theorem decimal?_rowText_of_not_isNumeric {t : Token} (ht : t.Lexed)
    (hkind : t.kind.isNumeric = false) (us : List Token) (bound : Nat) :
    Text.decimal? bound (Token.rowText (t :: us)).toList = none := by
  obtain ⟨c, rest, used, htext, hlex⟩ := ht
  have hc : c.isDigit = false := by
    cases hc : c.isDigit with
    | false => rfl
    | true => rw [Token.isNumeric_lexeme hlex hc] at hkind; cases hkind
  rw [Token.rowText, String.toList_ofList, Token.spanText, htext]
  exact decimal?_collapse hc _ bound

/-- What stands for a constant is one token, or it does not begin with a numeral. -/
def Plain (ts : List Token) : Prop :=
  ts.length = 1 ∨ ∃ t us, ts = t :: us ∧ t.kind.isNumeric = false

theorem passes_passConstant : passConstant.Passes fun _ ts => Plain ts := by
  intro c
  cases hk : c.current.kind.isNumeric with
  | false =>
    exact (passesFrom_passConstant c).mono fun _ ts ⟨⟨us, hus⟩, _⟩ => .inr ⟨_, us, hus, hk⟩
  | true =>
    have hadvance : c.current.kind ≠ .eof → PassesFrom c advance fun _ ts => Plain ts := fun heof =>
      PassesFrom.advance heof (f := Pure.pure) fun _ _ => .pure (.inl rfl)
    rw [passConstant]
    refine .kind ?_
    split
    case h_1 hc => exact hadvance (by rw [hc]; exact TokenKind.noConfusion)
    case h_2 hc => exact hadvance (by rw [hc]; exact TokenKind.noConfusion)
    case h_3 hc => exact hadvance (by rw [hc]; exact TokenKind.noConfusion)
    case h_8 => exact .unexpected
    all_goals
      next hc => rw [hc] at hk; cases hk

theorem passes_passMetadata : passMetadata.Passes fun _ ts => Plain ts := by
  intro c
  refine (passesFrom_passMetadata c).mono fun _ ts ⟨⟨us, hus⟩, hk⟩ => .inr ⟨_, us, hus, ?_⟩
  generalize c.current.kind = k at hk
  cases k <;> first | rfl | cases hk

/-- The same operand in the two texts. -/
inductive SameOperand (T : Twins) : Operand → Operand → Prop
  | reference (id : Ident) (ty : Ty) {p p' : Position} (h : T.At p p') :
      SameOperand T (.reference id ty p) (.reference id ty p')
  | known {v v' : Value} (h : v.SameBut T.Loose v')
      (index : (Operand.known v').constantIndex? = (Operand.known v).constantIndex?) :
      SameOperand T (.known v) (.known v')

variable {o o' : Operand}

theorem SameOperand.refl (T : Twins) (v : Value) : SameOperand T (.known v) (.known v) :=
  .known (.inl rfl) rfl

theorem SameOperand.constantIndex? (h : SameOperand T o o') :
    o'.constantIndex? = o.constantIndex? := by
  cases h with
  | reference => rfl
  | known _ index => exact index

theorem constantIndex?_withTy (o : Operand) (ty : Ty) :
    (o.withTy ty).constantIndex? = o.constantIndex? := by
  cases o with
  | reference => rfl
  | known v =>
    obtain ⟨name, slot?, ty', origin⟩ := v
    cases origin <;> rfl

theorem SameOperand.withTy (h : SameOperand T o o') (ty : Ty) :
    SameOperand T (o.withTy ty) (o'.withTy ty) := by
  cases h with
  | reference id _ h => exact .reference id ty h
  | known h index =>
    refine .known ?_ (((constantIndex?_withTy _ ty).trans index).trans
      (constantIndex?_withTy _ ty).symm)
    rcases h with rfl | ⟨text, text', hX, horigin, rfl⟩
    · exact .inl rfl
    · exact .inr ⟨text, text', hX, horigin, rfl⟩

/-- Constants that are passed alike are the same operand. -/
theorem keeps_constant {r : Reader Unit} (hr : Steady T r) (hplain : r.Passes fun _ ts => Plain ts)
    (ty : Ty) : Keeps T (SameOperand T) (do return .known (.constant ty (← passedText r))) := by
  have htext := (keeps_passedText hr).and_passes fun c => PassesFrom.passedText (hplain c)
  refine Agrees.bind htext fun text text' h => .pure ?_
  obtain ⟨hsame, ts, ts', ⟨hplain, -, rfl⟩, ⟨-, -, rfl⟩, hrows, hslice, hslice'⟩ := h
  have hvalue : Value.SameBut T.Loose (.constant ty (Token.rowText ts))
      (.constant ty (Token.rowText ts')) := by
    rcases hsame with hsame | hloose
    · exact .inl (by rw [hsame])
    · exact .inr ⟨_, _, hloose, rfl, rfl⟩
  refine .known hvalue ?_
  rcases hplain with hsingle | ⟨t, us, rfl, hkind⟩
  · -- A token by itself has the same text in both.
    obtain ⟨t, rfl⟩ := List.length_eq_one_iff.mp hsingle
    cases hrows with
    | @cons _ t' _ _ ht hrest =>
      cases hrest
      have hspan : Token.spanText [t'] = Token.spanText [t] :=
        congrArg (· ++ []) ht.2.1
      rw [Token.rowText, Token.rowText, hspan]
  · cases hrows with
    | @cons _ t' _ us' ht hrest =>
      have hlexed := T.lexed t (hslice.subset List.mem_cons_self)
      have hlexed' := T.lexed' t' (hslice'.subset List.mem_cons_self)
      have hindex := decimal?_rowText_of_not_isNumeric hlexed hkind us Text.bound64
      have hindex' := decimal?_rowText_of_not_isNumeric hlexed' (ht.1 ▸ hkind) us' Text.bound64
      exact hindex'.trans hindex.symm

theorem steady_passString (what : String) : Steady T (passString what) := by
  rw [passString]
  refine steady_kind.bind fun k => ?_
  split
  · exact steady_advance
  · exact keeps_unexpected what

theorem steady_passGlobal : Steady T passGlobal := by
  rw [passGlobal]
  refine steady_kind.bind fun k => ?_
  split
  · exact steady_advance
  · exact keeps_unexpected _

theorem steady_skipWhile_isWord : Steady T (skipWhile isWord) :=
  steady_skipWhile fun t t' h => by rw [isWord, isWord, h.1]

theorem steady_passWordConstant (w : String) : Steady T (passWordConstant w) := by
  rw [passWordConstant]
  split
  · exact steady_advance
  split
  · refine steady_advance.bind fun _ => (steady_skipWords _).bind fun _ => ?_
    refine (steady_passString _).bind fun _ => steady_expectComma.bind fun _ => ?_
    exact steady_passString _
  split
  · exact steady_advance.bind fun _ => steady_passGlobal
  · refine steady_skipWhile_isWord.bind fun _ => (steady_isAt _).bind fun opens => ?_
    split
    · exact steady_skipGroup
    · exact keeps_unexpected _

theorem steady_passConstant : Steady T passConstant := by
  rw [passConstant]
  refine steady_kind.bind fun k => ?_
  split
  · exact steady_advance
  · exact steady_advance
  · exact steady_advance
  · exact steady_skipGroup
  · exact steady_skipGroup
  · exact steady_skipGroup
  · exact steady_passWordConstant _
  · exact keeps_unexpected _

theorem steady_passMetadata : Steady T passMetadata := by
  rw [passMetadata]
  refine steady_kind.bind fun k => ?_
  split
  · refine steady_advance.bind fun _ => (steady_isAt _).bind fun opens => ?_
    split
    · exact steady_skipGroup
    · exact .pure rfl
  · refine steady_advance.bind fun _ => steady_kind.bind fun k => ?_
    split
    · exact steady_skipGroup
    · exact steady_advance
    · exact keeps_unexpected _
  · refine Ty.steady_read.bind fun _ => steady_kind.bind fun k => ?_
    split
    · exact steady_advance
    · exact steady_advance
    · exact steady_passConstant

theorem keeps_readOperand (ty : Ty) : Keeps T (SameOperand T) (readOperand ty) := by
  rw [readOperand]
  split
  · exact keeps_constant steady_passMetadata passes_passMetadata ty
  · refine Agrees.bind keeps_position fun p p' hp => .after steady_kind fun k => ?_
    split
    · exact .after steady_advance fun _ => .pure (.reference _ ty hp)
    · exact .after steady_advance fun _ => .pure (.refl T _)
    · exact keeps_constant steady_passConstant passes_passConstant ty

/-- A typed operand is read, of the same type in both texts. -/
theorem agrees_readTypedOperand {β β' : Type} {B : β → β' → Prop} {f : Ty × Operand → Reader β}
    {f' : Ty × Operand → Reader β'}
    (h : ∀ ty o o', SameOperand T o o' → Agrees T B (f (ty, o)) (f' (ty, o'))) :
    Agrees T B (readTypedOperand >>= f) (readTypedOperand >>= f') := by
  rw [readTypedOperand, bind_assoc, bind_assoc]
  refine .after Ty.steady_read fun ty => ?_
  rw [bind_assoc, bind_assoc]
  exact Agrees.bind (keeps_readOperand ty) fun o o' ho => h ty o o' ho

/-- The same operand of the same type. -/
structure SameTyped (T : Twins) (x x' : Ty × Operand) : Prop where
  ty : x'.1 = x.1
  operand : SameOperand T x.2 x'.2

theorem keeps_readTypedOperand : Keeps T (SameTyped T) readTypedOperand := by
  have h : Agrees T (SameTyped T) (readTypedOperand >>= Pure.pure) (readTypedOperand >>= Pure.pure) :=
    agrees_readTypedOperand fun ty o o' ho => .pure ⟨rfl, ho⟩
  rwa [bind_pure] at h

theorem operands_eq {xs xs' : List (Ty × Operand)} (h : List.Forall₂ (SameTyped T) xs xs') :
    xs'.map (·.1) = xs.map (·.1)
      ∧ List.Forall₂ (SameOperand T) (xs.map (·.2)) (xs'.map (·.2)) := by
  induction h with
  | nil => exact ⟨rfl, .nil⟩
  | cons hx _ ih =>
    simp only [List.map_cons, hx.ty, ih.1]
    exact ⟨trivial, .cons hx.operand ih.2⟩

end Draft

end IrRecords
