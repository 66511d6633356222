import IrRecords.Proofs.Reader.Passes
import Mathlib.Data.List.Forall2

/-!
# Keeping account of what is passed

To say of a reader which brackets it leaves open and what it has made of which tokens, the tokens
passed so far would have to be carried through every line of it. They are not needed: what counts
is which brackets are open and what has been noted (`Ledger`). `Writes W c l r Q` is the judgement
that `r`, started from `c` with the ledger `l`, leaves a ledger that is right for the tokens it has
passed, and that this ledger and the answer satisfy `Q`. What is noted, and for which slices of the
tokens, is up to the relation `W`.

The rules follow the readers line by line, as those of `Yields` do. Most readers leave the ledger
alone (`Neutral`). Brackets are entered when they are passed and crossed out when they are closed,
and a loop has an invariant on ledgers.
-/

namespace IrRecords

/-- Whether a token of this kind stands by itself: it is no bracket, and neither a label nor an
equals sign, which belong to the statements of a body. -/
def TokenKind.isLoose : TokenKind → Bool
  | .label _ | .equal | .opener _ | .closer _ | .eof => false
  | _ => true

theorem TokenKind.isQuiet_of_isLoose {k : TokenKind} (h : k.isLoose = true) : k.isQuiet = true := by
  cases k <;> first | rfl | cases h

theorem TokenKind.isBracket_of_isLoose {k : TokenKind} (h : k.isLoose = true) :
    k.isBracket = false := by
  cases k <;> first | rfl | cases h

theorem TokenKind.ne_eof_of_isLoose {k : TokenKind} (h : k.isLoose = true) : k ≠ .eof := by
  rintro rfl
  cases h

namespace Token

theorem bracketsAfter_of_isLoose {t : Token} (h : t.kind.isLoose = true) (S : List Bracket) :
    Cursor.bracketsAfter S t = S :=
  bracketsAfter_plain (TokenKind.isBracket_of_isLoose h) S

/-- Tokens that stand by themselves leave the brackets alone. -/
theorem Quiet.of_forall_isLoose {ts : List Token} (h : ∀ t ∈ ts, t.kind.isLoose = true)
    (S : List Bracket) : Quiet S ts S := by
  induction ts with
  | nil => exact .nil
  | cons t ts ih =>
    obtain ⟨ht, hts⟩ := List.forall_mem_cons.mp h
    refine .cons (.inr (TokenKind.isQuiet_of_isLoose ht)) ?_
    rw [bracketsAfter_of_isLoose ht]
    exact ih hts

end Token

/-! ## Ledgers -/

/-- What is kept of the tokens passed so far. -/
structure Ledger (ω : Type) where
  /-- The brackets that are open, innermost first. -/
  brackets : List Bracket
  /-- What has been noted, in the order of the text. -/
  notes : List ω

namespace Ledger

variable {ω : Type}

/-- One more bracket is open. -/
def enter (l : Ledger ω) (b : Bracket) : Ledger ω := { l with brackets := b :: l.brackets }

/-- More has been noted. -/
def note (l : Ledger ω) (ws : List ω) : Ledger ω := { l with notes := l.notes ++ ws }

@[simp] theorem note_nil (l : Ledger ω) : l.note [] = l := by simp [note]

@[simp] theorem note_note (l : Ledger ω) (ws vs : List ω) :
    (l.note ws).note vs = l.note (ws ++ vs) := by
  simp [note]

/-- What has been noted does not depend on the open brackets. -/
@[simp] theorem enter_note (l : Ledger ω) (b : Bracket) (ws : List ω) :
    (l.enter b).note ws = (l.note ws).enter b := rfl

/-- The ledger `l'` is right behind the row `ts` if `l` is right in front of it: the brackets are
those that the row leaves open, and each note is about a slice of the row. -/
structure Leads (W : List Token → ω → Prop) (l : Ledger ω) (ts : List Token) (l' : Ledger ω) :
    Prop where
  quiet : Token.Quiet l.brackets ts l'.brackets
  notes : ∃ slices new, Token.Slices ts slices ∧ List.Forall₂ W slices new
    ∧ l'.notes = l.notes ++ new

variable {W : List Token → ω → Prop} {l l' l'' : Ledger ω} {ts us : List Token}

theorem Leads.refl (l : Ledger ω) : l.Leads W [] l :=
  ⟨.nil, [], [], .nil, .nil, (List.append_nil _).symm⟩

theorem Leads.trans (h : l.Leads W ts l') (h' : l'.Leads W us l'') : l.Leads W (ts ++ us) l'' := by
  obtain ⟨slices, new, hslices, hnew, hnotes⟩ := h.notes
  obtain ⟨slices', new', hslices', hnew', hnotes'⟩ := h'.notes
  refine ⟨h.quiet.append h'.quiet, slices ++ slices', new ++ new', hslices.append hslices',
    List.rel_append hnew hnew', ?_⟩
  rw [hnotes', hnotes, List.append_assoc]

/-- A row about which nothing is noted. -/
theorem Leads.of_quiet {S : List Bracket} (h : Token.Quiet l.brackets ts S) :
    l.Leads W ts { l with brackets := S } :=
  ⟨h, [], [], .none ts, .nil, (List.append_nil _).symm⟩

/-- A row that leaves the brackets alone and is noted as a whole. -/
theorem Leads.of_slice {w : ω} (hquiet : Token.Quiet [] ts []) (hw : W ts w) :
    l.Leads W ts (l.note [w]) := by
  refine ⟨hquiet.above l.brackets, [ts], [w], ?_, .cons hw .nil, rfl⟩
  have h := Token.Slices.slice (s := ts) .nil
  rwa [List.append_nil] at h

end Ledger

namespace Reader

variable {α β σ ω : Type} {W : List Token → ω → Prop} {c : Cursor} {l l' : Ledger ω}
  {P P' : α → Ledger ω → Prop} {Q : β → Ledger ω → Prop}

/-! ## The judgement -/

/-- Started from `c` with the ledger `l`, the reader leaves a ledger that is right and satisfies `Q`
together with the answer. -/
def Writes (W : List Token → ω → Prop) (c : Cursor) (l : Ledger ω) (r : Reader α)
    (Q : α → Ledger ω → Prop) : Prop :=
  PassesFrom c r fun a ts => ∃ l', l.Leads W ts l' ∧ Q a l'

/-- The reader leaves the brackets alone, and in what it passes there are labels and equals signs
inside of brackets only. -/
def Neutral (r : Reader α) : Prop := r.Passes fun _ ts => Token.Quiet [] ts []

theorem Writes.mono {r : Reader α} (hr : Writes W c l r P) (h : ∀ a l, P a l → P' a l) :
    Writes W c l r P' :=
  PassesFrom.mono hr fun a _ ⟨l', hl', hP⟩ => ⟨l', hl', h a l' hP⟩

/-- The answer may be judged as well. -/
theorem Writes.and_yields {r : Reader α} {A : α → Prop} (hr : Writes W c l r P) (hA : r.Yields A) :
    Writes W c l r fun a l' => P a l' ∧ A a :=
  (PassesFrom.and_yields hr hA).mono fun _ _ ⟨⟨l', hl', hP⟩, ha⟩ => ⟨l', hl', hP, ha⟩

/-- A reader is neutral if it leaves the brackets of an empty ledger alone. -/
theorem Neutral.of_writes {r : Reader α}
    (h : ∀ c, Writes W c ⟨[], []⟩ r fun _ l' => l'.brackets = []) : Neutral r := by
  intro c
  refine PassesFrom.mono (h c) fun a ts hts => ?_
  obtain ⟨l', hl', hbrackets⟩ := hts
  exact hbrackets ▸ hl'.quiet

/-- A neutral reader leaves every ledger alone. -/
theorem Neutral.writes {r : Reader α} (hr : Neutral r) : Writes W c l r fun _ l' => l' = l :=
  (hr c).mono fun _ _ hts => ⟨l, .of_quiet (hts.above l.brackets), rfl⟩

theorem Writes.passes {r : Reader α} (hr : Writes W c l r P) : PassesFrom c r fun _ _ => True :=
  PassesFrom.mono hr fun _ _ _ => trivial

theorem Neutral.passes {r : Reader α} (hr : Neutral r) (c : Cursor) :
    PassesFrom c r fun _ _ => True :=
  PassesFrom.mono (hr c) fun _ _ _ => trivial

/-! ## Sequencing -/

theorem Writes.pure {a : α} (h : P a l) : Writes W c l (Pure.pure a) P :=
  PassesFrom.pure ⟨l, .refl l, h⟩

/-- The rule for sequencing: the second reader goes on with the ledger of the first. -/
theorem Writes.bind {r : Reader α} {f : α → Reader β} (hr : Writes W c l r P)
    (hf : ∀ a l₁ c₁, P a l₁ → Writes W c₁ l₁ (f a) Q) : Writes W c l (r >>= f) Q := by
  refine PassesFrom.bind hr fun a ts c₁ ⟨l₁, hl₁, hP⟩ => ?_
  exact PassesFrom.mono (hf a l₁ c₁ hP) fun b us ⟨l', hl', hQ⟩ => ⟨l', hl₁.trans hl', hQ⟩

/-- The rule for sequencing after a neutral reader. -/
theorem Writes.skip {r : Reader α} {f : α → Reader β} (hr : Neutral r)
    (hf : ∀ a c₁, Writes W c₁ l (f a) Q) : Writes W c l (r >>= f) Q :=
  hr.writes.bind fun a _ c₁ hl => hl ▸ hf a c₁

theorem Writes.failAt {p : Position} {fault : Fault} :
    Writes W c l (Reader.failAt p fault : Reader α) P :=
  PassesFrom.failAt

theorem Writes.unexpected {what : String} : Writes W c l (Reader.unexpected what : Reader α) P :=
  PassesFrom.unexpected

/-! ## Looking -/

theorem Writes.current {f : Token → Reader β} (h : Writes W c l (f c.current) Q) :
    Writes W c l (Reader.current >>= f) Q := h

theorem Writes.kind {f : TokenKind → Reader β} (h : Writes W c l (f c.current.kind) Q) :
    Writes W c l (Reader.kind >>= f) Q := h

theorem Writes.nextKind {f : TokenKind → Reader β} (h : Writes W c l (f (c.lookahead 1).kind) Q) :
    Writes W c l (Reader.nextKind >>= f) Q := h

theorem Writes.position {f : Position → Reader β} (h : Writes W c l (f c.current.start) Q) :
    Writes W c l (Reader.position >>= f) Q := h

theorem Writes.isAt {k : TokenKind} {f : Bool → Reader β}
    (h : Writes W c l (f (c.current.kind == k)) Q) : Writes W c l (Reader.isAt k >>= f) Q := h

/-! ## Moving on -/

/-- A token that was seen is passed; the ledger `l'` is right behind it. -/
theorem Writes.advance_of_leads {f : Unit → Reader β} (hc : c.current.kind ≠ .eof)
    (hl : l.Leads W [c.current] l')
    (h : ∀ c₁, c₁.current = c.lookahead 1 → Writes W c₁ l' (f ()) Q) :
    Writes W c l (Reader.advance >>= f) Q := by
  refine PassesFrom.advance hc fun c₁ hc₁ => PassesFrom.mono (h c₁ hc₁) fun b us hus => ?_
  obtain ⟨l'', hl'', hQ⟩ := hus
  exact ⟨l'', hl.trans hl'', hQ⟩

theorem leads_of_isLoose {t : Token} (ht : t.kind.isLoose = true) : l.Leads W [t] l :=
  .of_quiet (.of_forall_isLoose (by simpa using ht) _)

theorem leads_of_opener {t : Token} {b : Bracket} (ht : t.kind = .opener b) :
    l.Leads W [t] (l.enter b) := by
  have hafter := Token.bracketsAfter_opener ht l.brackets
  exact .of_quiet (.cons (.inr (by rw [ht]; rfl)) (hafter ▸ .nil))

theorem leads_of_closer {t : Token} {b : Bracket} (ht : t.kind = .closer b) :
    (l.enter b).Leads W [t] l := by
  have hafter := Token.bracketsAfter_closer ht l.brackets
  exact .of_quiet (.cons (.inl (List.cons_ne_nil _ _)) (hafter ▸ .nil))

/-- A token that stands by itself is passed. -/
theorem Writes.advance {f : Unit → Reader β} {k : TokenKind} (hc : c.current.kind = k)
    (hk : k.isLoose = true) (h : ∀ c₁, c₁.current = c.lookahead 1 → Writes W c₁ l (f ()) Q) :
    Writes W c l (Reader.advance >>= f) Q := by
  subst hc
  exact .advance_of_leads (TokenKind.ne_eof_of_isLoose hk) (leads_of_isLoose hk) h

/-- The same where nothing follows. -/
theorem Writes.advance_only {k : TokenKind} {P : Unit → Ledger ω → Prop}
    (hc : c.current.kind = k) (hk : k.isLoose = true) (h : P () l) :
    Writes W c l Reader.advance P :=
  Writes.advance hc hk (f := Pure.pure) fun _ _ => .pure h

/-- A bracket is opened. -/
theorem Writes.advance_opener {f : Unit → Reader β} {b : Bracket}
    (hc : c.current.kind = .opener b) (h : ∀ c₁, Writes W c₁ (l.enter b) (f ()) Q) :
    Writes W c l (Reader.advance >>= f) Q :=
  .advance_of_leads (by rw [hc]; exact TokenKind.noConfusion) (leads_of_opener hc) fun c₁ _ => h c₁

/-- A bracketed group is passed as a whole. -/
theorem Writes.skipGroup_only {b : Bracket} {P : Unit → Ledger ω → Prop}
    (hc : c.current.kind = .opener b) (h : P () l) : Writes W c l Reader.skipGroup P :=
  PassesFrom.skipGroup hc fun _ _ hts _ => ⟨l, .of_quiet (hts.above l.brackets), h⟩

theorem Writes.skipGroup {f : Unit → Reader β} {b : Bracket} (hc : c.current.kind = .opener b)
    (h : ∀ c₁, Writes W c₁ l (f ()) Q) : Writes W c l (Reader.skipGroup >>= f) Q := by
  have hgroup : Writes W c l Reader.skipGroup fun _ l' => l' = l := .skipGroup_only hc rfl
  exact hgroup.bind fun _ _ c₁ hl => hl ▸ h c₁

/-- A token is passed where it is of the kind that is expected. -/
theorem Writes.expect_only {k : TokenKind} {what : String} (hk : k ≠ .eof)
    (hl : ∀ t, t.kind = k → l.Leads W [t] l') :
    Writes W c l (Reader.expect k what) fun _ l₁ => l₁ = l' := by
  rw [Reader.expect]
  refine .isAt ?_
  by_cases hc : (c.current.kind == k) = true
  · rw [if_pos hc]
    rw [beq_iff_eq] at hc
    exact Writes.advance_of_leads (f := Pure.pure) (hc ▸ hk) (hl _ hc) fun _ _ => .pure rfl
  · rw [if_neg hc]
    exact .unexpected

theorem Writes.expect_of_leads {k : TokenKind} {what : String} {f : Unit → Reader β}
    (hk : k ≠ .eof) (hl : ∀ t, t.kind = k → l.Leads W [t] l')
    (h : ∀ c₁, Writes W c₁ l' (f ()) Q) : Writes W c l (Reader.expect k what >>= f) Q :=
  (Writes.expect_only hk hl).bind fun _ _ c₁ hl₁ => hl₁ ▸ h c₁

theorem Writes.expect_opener {b : Bracket} {what : String} {f : Unit → Reader β}
    (h : ∀ c₁, Writes W c₁ (l.enter b) (f ()) Q) :
    Writes W c l (Reader.expect (.opener b) what >>= f) Q :=
  .expect_of_leads TokenKind.noConfusion (fun _ => leads_of_opener) h

theorem Writes.expect_closer {b : Bracket} {what : String} {f : Unit → Reader β}
    (h : ∀ c₁, Writes W c₁ l (f ()) Q) :
    Writes W c (l.enter b) (Reader.expect (.closer b) what >>= f) Q :=
  .expect_of_leads TokenKind.noConfusion (fun _ => leads_of_closer) h

/-- Where the closing bracket is ahead it is passed, otherwise nothing is. -/
theorem Writes.accept_closer {b : Bracket} {f : Bool → Reader β}
    (hyes : ∀ c₁, Writes W c₁ l (f true) Q) (hno : ∀ c₁, Writes W c₁ (l.enter b) (f false) Q) :
    Writes W c (l.enter b) (Reader.accept (.closer b) >>= f) Q := by
  have haccept : Writes W c (l.enter b) (Reader.accept (.closer b)) fun a l' =>
      a = true ∧ l' = l ∨ a = false ∧ l' = l.enter b := by
    rw [Reader.accept]
    refine .isAt ?_
    by_cases hc : (c.current.kind == .closer b) = true
    · rw [if_pos hc]
      rw [beq_iff_eq] at hc
      refine .advance_of_leads (by rw [hc]; exact TokenKind.noConfusion) (leads_of_closer hc) ?_
      exact fun _ _ => .pure (.inl ⟨rfl, rfl⟩)
    · rw [if_neg hc]
      exact .pure (.inr ⟨rfl, rfl⟩)
  refine haccept.bind fun a l' c₁ h => ?_
  rcases h with ⟨rfl, rfl⟩ | ⟨rfl, rfl⟩
  · exact hyes c₁
  · exact hno c₁

/-! ## Neutral readers -/

/-- To show that a reader is neutral, no note need be taken. -/
theorem Neutral.intro {r : Reader α}
    (h : ∀ c l, Writes (fun _ (_ : Unit) => False) c l r fun _ l' => l' = l) : Neutral r :=
  .of_writes fun c => (h c ⟨[], []⟩).mono fun _ _ hl => by rw [hl]

theorem Neutral.pure (a : α) : Neutral (Pure.pure a : Reader α) := .intro fun _ _ => .pure rfl

theorem Neutral.bind {r : Reader α} {f : α → Reader β} (hr : Neutral r) (hf : ∀ a, Neutral (f a)) :
    Neutral (r >>= f) :=
  .intro fun _ _ => .skip hr fun a _ => (hf a).writes

theorem Neutral.unexpected (what : String) : Neutral (Reader.unexpected what : Reader α) :=
  fun _ => PassesFrom.unexpected

theorem neutral_expect {k : TokenKind} (hk : k.isLoose = true) (what : String) :
    Neutral (expect k what) :=
  .intro fun _ _ => .expect_only (TokenKind.ne_eof_of_isLoose hk) fun _ ht =>
    leads_of_isLoose (ht ▸ hk)

theorem neutral_expectWord (w : String) : Neutral (expectWord w) := neutral_expect rfl _

theorem neutral_expectComma : Neutral expectComma := neutral_expect rfl _

theorem neutral_accept {k : TokenKind} (hk : k.isLoose = true) : Neutral (accept k) := by
  refine .intro fun c l => ?_
  rw [accept]
  refine .isAt ?_
  by_cases hc : (c.current.kind == k) = true
  · rw [if_pos hc]
    exact .advance (beq_iff_eq.mp hc) hk fun _ _ => .pure rfl
  · rw [if_neg hc]
    exact .pure rfl

theorem neutral_acceptWord (w : String) : Neutral (acceptWord w) := neutral_accept rfl

theorem neutral_expectNumber (bound : Nat) (what : String) : Neutral (expectNumber bound what) := by
  refine .intro fun c l => ?_
  rw [expectNumber]
  refine .kind ?_
  split
  · next text hk =>
    split
    · exact .advance hk rfl fun _ _ => .pure rfl
    · exact .unexpected
  · exact .unexpected

theorem neutral_skipWhile {p : Token → Bool} (hp : ∀ t, p t = true → t.kind.isLoose = true) :
    Neutral (skipWhile p) :=
  fun _ => .skipWhile fun _ hts => .of_forall_isLoose (fun t ht => hp t (hts t ht)) []

theorem neutral_skipWords (ws : List String) : Neutral (skipWords ws) := by
  refine neutral_skipWhile fun t ht => ?_
  unfold isWordOf at ht
  split at ht
  · next hk => rw [hk]; rfl
  · cases ht

/-! ## Loops -/

/-- What a round of a loop comes to, if `I` holds of states and ledgers between rounds. -/
def RoundKeeps (I : σ → Ledger ω → Prop) (P : α → Ledger ω → Prop) :
    Round σ α → Ledger ω → Prop
  | .again state, l => I state l
  | .done result, l => P result l

/-- The invariant rule. -/
theorem Writes.iterate {I : σ → Ledger ω → Prop} {step : σ → Reader (Round σ α)} {state : σ}
    (hstep : ∀ s l c, I s l → Writes W c l (step s) (RoundKeeps I P)) (hs : I state l) :
    Writes W c l (Reader.iterate step state) P := by
  refine PassesFrom.iterate (I := fun s ts => ∃ l', l.Leads W ts l' ∧ I s l') ?_ ⟨l, .refl l, hs⟩
  rintro s ts c ⟨l₁, hl₁, hI⟩
  refine PassesFrom.mono (hstep s l₁ c hI) fun round us hus => ?_
  obtain ⟨l₂, hl₂, hround⟩ := hus
  cases round with
  | again s' => exact ⟨l₂, hl₁.trans hl₂, hround⟩
  | done a => exact ⟨l₂, hl₁.trans hl₂, hround⟩

/-- A loop whose rounds are neutral is neutral. -/
theorem Neutral.iterate {step : σ → Reader (Round σ α)} (hstep : ∀ s, Neutral (step s))
    (state : σ) :
    Neutral (Reader.iterate step state) := by
  refine .intro fun c l => .iterate (I := fun _ l' => l' = l) (fun s l' c hl => ?_) rfl
  refine (hstep s).writes.mono fun round l'' hl' => ?_
  cases round with
  | again s' => exact hl'.trans hl
  | done a => exact hl'.trans hl

/-- A separated list notes what its items note, one behind the other. -/
theorem Writes.commaSeparated {item : Reader α} (notes : α → List ω)
    (hitem : ∀ c l, Writes W c l item fun a l' => l' = l.note (notes a)) :
    Writes W c l (Reader.commaSeparated item) fun as l' => l' = l.note (as.flatMap notes) := by
  rw [Reader.commaSeparated]
  refine Writes.bind (P := fun (as : Array α) l' => l' = l.note (as.toList.flatMap notes)) ?_
    fun as l' c h => .pure h
  refine .iterate (I := fun (as : Array α) l' => l' = l.note (as.toList.flatMap notes)) ?_
    (by simp)
  rintro as l' c rfl
  refine (hitem c _).bind fun a l' c hl => ?_
  have hpush : l' = l.note ((as.push a).toList.flatMap notes) := by
    rw [hl, Ledger.note_note, Array.toList_push, List.flatMap_append, List.flatMap_singleton]
  refine .skip (neutral_accept rfl) fun more c => ?_
  cases more with
  | true => exact .pure hpush
  | false => exact .pure hpush

theorem Neutral.commaSeparated {item : Reader α} (hitem : Neutral item) :
    Neutral (Reader.commaSeparated item) := by
  refine .intro fun c l => ?_
  refine (Writes.commaSeparated (fun _ => []) fun c l => ?_).mono fun as l' hl => ?_
  · exact hitem.writes.mono fun a l' hl => hl.trans l.note_nil.symm
  · rw [hl, List.flatMap_eq_nil_iff.mpr fun _ _ => rfl, Ledger.note_nil]

/-- Attributes are words with a group or a numeral behind them. -/
theorem neutral_skipAttributes (isAttribute takesNumber : String → Bool) :
    Neutral (skipAttributes isAttribute takesNumber) := by
  rw [skipAttributes]
  refine .iterate (fun _ => .intro fun c l => ?_) ()
  refine .kind ?_
  split
  · next w hw =>
    by_cases hattribute : isAttribute w = true
    · rw [if_pos hattribute]
      refine .advance hw rfl fun c₁ _ => .kind ?_
      dsimp only
      split
      · next hopener => exact .skipGroup hopener fun _ => .pure rfl
      · next text hint =>
        split
        · exact .advance hint rfl fun _ _ => .pure rfl
        · exact .pure rfl
      · exact .pure rfl
    · rw [if_neg hattribute]
      exact .pure rfl
  · exact .pure rfl

end Reader

end IrRecords
