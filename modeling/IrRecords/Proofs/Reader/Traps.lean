import IrRecords.Proofs.Reader.Borders

/-!
# A comma in front of a definition

A comma at the end of a part is a trap. In front of another comma or at the end of the text an
instruction leaves it alone, but in front of the definition of a struct the name of the struct is taken
for the type of one more operand, and reading fails at the equals sign. By itself the part goes on then.
If a body is read it does not come to an end, though: nothing is left but the comma, and no brace that
closes the body (`Doomed`). So the two runs agree for bodies as a whole, and `Dooms` is the judgement for
what bodies are made of.
-/

namespace IrRecords

namespace Border

variable {α β : Type} {B : Border} {c c' later : Cursor}

/-- A definition is behind the part, and what is left of the part closes no body. -/
structure Doomed (B : Border) (c : Cursor) : Prop where
  reference : ∃ id, (B.behind.headD B.stop').kind = .localRef id
  eof : c.stop.kind = .eof
  unclosed : ∀ t ∈ c.rest, t.kind ≠ .closer .curly

theorem Doomed.of_reaches {ts : List Token} (h : B.Doomed c) (hreaches : c.Reaches ts later) :
    B.Doomed later where
  reference := h.reference
  eof := hreaches.stop ▸ h.eof
  unclosed t ht := h.unclosed t (hreaches.rest ▸ List.mem_append_right ts ht)

/-- What the two runs come to: the same, or else the second one fails and the first one is doomed. -/
inductive Fate (B : Border) :
    Except Diagnostic (α × Cursor) → Except Diagnostic (α × Cursor) → Prop
  | settled {e e' : Except Diagnostic (α × Cursor)} (h : B.Outcome e e') : Fate B e e'
  | doomed {a : α} {c : Cursor} {d : Diagnostic} (h : B.Doomed c) (hd : d.fault.wantsMore = false) :
      Fate B (.ok (a, c)) (.error d)

/-- A doomed reader that goes forward is doomed. -/
theorem Doomed.fate {r : Reader α} (h : B.Doomed c) (hr : r.GoesForward) {d : Diagnostic}
    (hd : d.fault.wantsMore = false) : B.Fate (r c) (.error d) := by
  cases hread : r c with
  | error d' => exact .settled (.refused hd)
  | ok result =>
    obtain ⟨a, later⟩ := result
    obtain ⟨ts, hts, _⟩ := hr c h.eof a later hread
    exact .doomed (h.of_reaches hts) hd

/-- Behind what dooms nobody. -/
theorem Outcome.bind_fate {e e' : Except Diagnostic (α × Cursor)} {f f' : α → Reader β}
    (he : B.Outcome e e') (hf : ∀ a c c', B.Beside c c' → B.Fate (f a c) (f' a c')) :
    B.Fate (e >>= fun x => f x.1 x.2) (e' >>= fun x => f' x.1 x.2) := by
  cases he with
  | same h => exact hf _ _ _ h
  | refused h => exact .settled (.refused h)
  | wants h => exact .settled (.wants h)

theorem Fate.bind {e e' : Except Diagnostic (α × Cursor)} {f f' : α → Reader β}
    (he : B.Fate e e') (hf : ∀ a c c', B.Beside c c' → B.Fate (f a c) (f' a c'))
    (hforward : ∀ a, (f a).GoesForward) :
    B.Fate (e >>= fun x => f x.1 x.2) (e' >>= fun x => f' x.1 x.2) := by
  cases he with
  | settled h => exact h.bind_fate hf
  | doomed h hd => exact h.fate (hforward _) hd

/-- Nobody is doomed in front of what is no definition. -/
theorem Fate.outcome {e e' : Except Diagnostic (α × Cursor)} (h : B.Fate e e')
    (hB : ∀ id, (B.behind.headD B.stop').kind ≠ .localRef id) : B.Outcome e e' := by
  cases h with
  | settled h => exact h
  | doomed h => exact absurd h.reference.choose_spec (hB _)

end Border

/-- The definition of a struct is ahead, as far as two tokens tell. -/
def Cursor.AtDefinition (c : Cursor) : Prop :=
  ∃ t u ts id, c.rest = t :: u :: ts ∧ t.kind = .localRef id ∧ u.kind = .equal

/-- Where a reference is behind a part, it is the name of a definition. -/
theorem Border.atDefinition {B : Border} {c : Cursor} (hrest : c.rest = B.behind)
    (h : ∃ id, (B.behind.headD B.stop').kind = .localRef id) : c.AtDefinition := by
  obtain ⟨id, hid⟩ := h
  have hequal := B.defines id hid
  rw [Cursor.AtDefinition, hrest]
  have heof := B.eof'
  revert hid hequal
  cases B.behind with
  | nil => exact fun hid => absurd (heof.symm.trans hid) TokenKind.noConfusion
  | cons t ts =>
    cases ts with
    | nil => exact fun _ hequal => absurd (heof.symm.trans hequal) TokenKind.noConfusion
    | cons u ts => exact fun hid hequal => ⟨t, u, ts, id, rfl, hid, hequal⟩

namespace Reader

variable {α β σ : Type} {B : Border} {k : TokenKind}

/-! ## The judgement -/

/-- Reading by itself and in front of what is behind the part comes to the same, or the first run is
doomed and the second one fails. -/
def Dooms (B : Border) (r r' : Reader α) : Prop := ∀ c c', B.Beside c c' → B.Fate (r c) (r' c')

/-- The same if both are started in the part and not at its end. -/
def DoomsInside (B : Border) (r r' : Reader α) : Prop :=
  ∀ c c', B.Beside c c' → c.rest ≠ [] → B.Fate (r c) (r' c')

variable {r r' : Reader α} {f f' : α → Reader β}

theorem Extends.dooms (h : Extends B r r') : Dooms B r r' := fun c c' hc => .settled (h c c' hc)

theorem ExtendsInside.dooms (h : ExtendsInside B r r') : DoomsInside B r r' :=
  fun c c' hc hin => .settled (h c c' hc hin)

theorem Dooms.inside (h : Dooms B r r') : DoomsInside B r r' := fun c c' hc _ => h c c' hc

theorem DoomsInside.dooms (h : DoomsInside B r r') (hend : ExtendsAtEnd B r r') : Dooms B r r' := by
  intro c c' hc
  by_cases hrest : c.rest = []
  · exact .settled (hend c c' hc hrest)
  · exact h c c' hc hrest

theorem Dooms.bind (hr : Dooms B r r') (hf : ∀ a, Dooms B (f a) (f' a))
    (hforward : ∀ a, (f a).GoesForward) : Dooms B (r >>= f) (r' >>= f') :=
  fun c c' hc => (hr c c' hc).bind (fun a _ _ h => hf a _ _ h) hforward

theorem DoomsInside.bind (hr : DoomsInside B r r') (hf : ∀ a, Dooms B (f a) (f' a))
    (hforward : ∀ a, (f a).GoesForward) : DoomsInside B (r >>= f) (r' >>= f') :=
  fun c c' hc hin => (hr c c' hc hin).bind (fun a _ _ h => hf a _ _ h) hforward

/-- Behind a reader that dooms nobody. -/
theorem Extends.bind_dooms (hr : Extends B r r') (hf : ∀ a, Dooms B (f a) (f' a)) :
    Dooms B (r >>= f) (r' >>= f') :=
  fun c c' hc => (hr c c' hc).bind_fate fun a _ _ h => hf a _ _ h

theorem ExtendsInside.bind_dooms (hr : ExtendsInside B r r') (hf : ∀ a, Dooms B (f a) (f' a)) :
    DoomsInside B (r >>= f) (r' >>= f') :=
  fun c c' hc hin => (hr c c' hc hin).bind_fate fun a _ _ h => hf a _ _ h

theorem DoomsInside.current {f f' : Token → Reader β} (h : ∀ t, DoomsInside B (f t) (f' t)) :
    DoomsInside B (Reader.current >>= f) (Reader.current >>= f') := by
  intro c c' hc hin
  have hfate := h c.current c c' hc hin
  rw [← congrArg f' (hc.current hin)] at hfate
  exact hfate

theorem DoomsInside.position {f f' : Position → Reader β}
    (h : ∀ p, DoomsInside B (f p) (f' p)) :
    DoomsInside B (Reader.position >>= f) (Reader.position >>= f') :=
  DoomsInside.current fun t => h t.start

theorem Dooms.kind_of_starves {f f' : TokenKind → Reader β} (h : ∀ k, DoomsInside B (f k) (f' k))
    (hend : (f .eof).Starves) : Dooms B (Reader.kind >>= f) (Reader.kind >>= f') :=
  (DoomsInside.current fun t => h t.kind).dooms (Starves.atEnd (.kind hend) _)

/-! ## The trap -/

/-- A comma belongs to what follows it if that may be the name of a struct, but no definition can be
read there. -/
theorem Dooms.item {starts : TokenKind → Bool} {yes yes' no no' : Reader α}
    (hstarts : ∀ k, k.startsPart = true → starts k = true → ∃ id, k = .localRef id)
    (hyes : Extends B yes yes') (hno : Extends B no no') (hforward : no.GoesForward)
    (hdefinition : ∀ c : Cursor, c.AtDefinition →
      ∃ d, yes' c = .error d ∧ d.fault.wantsMore = false) :
    Dooms B
      (Reader.isAt .comma >>= fun more => Reader.nextKind >>= fun k =>
        if (more && starts k) = true then Reader.advance >>= fun _ => yes else no)
      (Reader.isAt .comma >>= fun more => Reader.nextKind >>= fun k =>
        if (more && starts k) = true then Reader.advance >>= fun _ => yes' else no') := by
  have heof : starts .eof = false := by
    by_contra h
    obtain ⟨_, hid⟩ := hstarts .eof rfl (Bool.not_eq_false _ ▸ h)
    cases hid
  refine DoomsInside.dooms ?_ (.isAt rfl (.nextKind fun k k' => hno.atEnd))
  intro c c' hc hin
  obtain ⟨t, ts, hrest⟩ := List.exists_cons_of_ne_nil hin
  have hcurrent : c.current = t := by rw [Cursor.current, hrest]; rfl
  change B.Fate
    ((if (c.current.kind == .comma && starts (c.lookahead 1).kind) = true
      then Reader.advance >>= fun _ => yes else no) c)
    ((if (c'.current.kind == .comma && starts (c'.lookahead 1).kind) = true
      then Reader.advance >>= fun _ => yes' else no') c')
  rw [hc.current hin, Cursor.lookahead, Cursor.lookahead, hc.rest, hrest, List.cons_append,
    List.drop_one, List.drop_one, List.tail_cons, List.tail_cons]
  cases ts with
  | cons u us =>
    -- What is seen two tokens ahead is in the part.
    rw [List.cons_append, List.headD_cons, List.headD_cons]
    split
    · exact .settled ((extendsInside_advance.bind fun _ => hyes) c c' hc hin)
    · exact .settled (hno c c' hc)
  | nil =>
    rw [List.nil_append, List.headD_nil, hc.stop, hc.stop', B.eof, heof, Bool.and_false,
      if_neg Bool.false_ne_true]
    split
    · next htrap =>
      rw [Bool.and_eq_true, beq_iff_eq] at htrap
      obtain ⟨hcomma, hstart⟩ := htrap
      obtain ⟨id, hid⟩ := hstarts _ B.starts hstart
      have hadvance : c'.advance.rest = B.behind := by
        rw [Cursor.advance, hc.rest, hrest]
        rfl
      obtain ⟨d, hd, hfault⟩ := hdefinition _ (B.atDefinition hadvance ⟨id, hid⟩)
      have hfails : (Reader.advance >>= fun _ => yes') c' = .error d := hd
      rw [hfails]
      refine Border.Doomed.fate ⟨⟨id, hid⟩, hc.eof, fun u hu => ?_⟩ hforward hfault
      rw [hrest, List.mem_singleton] at hu
      rw [hu, ← hcurrent, hcomma]
      exact TokenKind.noConfusion
    · exact .settled (hno c c' hc)

/-! ## Loops -/

theorem Dooms.iterate {step step' : σ → Reader (Round σ α)}
    (hstep : ∀ s, Dooms B (step s) (step' s)) (hforward : ∀ s, (step s).GoesForward) (s : σ) :
    Dooms B (Reader.iterate step s) (Reader.iterate step' s) := by
  -- A doomed run of the first loop may go on, but not back: this is shown along with the rest.
  have hloop : ∀ {bound bound' : List Token}, bound.length ≤ bound'.length →
      Dooms B (iterateFor step bound s) (iterateFor step' bound' s)
        ∧ (iterateFor step bound s).GoesForward := by
    intro bound bound' hbound
    refine iterateFor_rule (P := fun r r' => Dooms B r r' ∧ r.GoesForward) (fun r r' hstalls => ⟨?_, ?_⟩)
      (fun k k' hagain hdone s => ?_) hbound s
    · intro c c' _
      rw [hstalls]
      exact .settled (.wants rfl)
    · intro c _ a later h
      rw [hstalls] at h
      cases h
    · have hforward' : ∀ round, (k round).GoesForward := by
        rintro (s' | a)
        · exact (hagain s').2
        · rw [(hdone a).1]
          exact fun _ => .pure trivial
      refine ⟨(hstep s).bind (fun round => ?_) hforward', fun c => ?_⟩
      · cases round with
        | again s' => exact (hagain s').1
        | done a =>
          rw [(hdone a).1, (hdone a).2]
          exact (extends_pure a).dooms
      · exact (hforward s c).bind fun round _ c₁ _ => hforward' round c₁
  exact fun c c' hc => (hloop hc.bound_length_le).1 c c' hc

/-- A doomed run of a loop that ends with a closing brace does not get to its end. -/
theorem Doomed.exists_error_iterateFor {step : σ → Reader (Round σ α)}
    (hclose : ∀ s, (step s).Passes fun round ts =>
      ∀ a, round = .done a → ∃ t ∈ ts, t.kind = .closer .curly)
    (bound : List Token) (s : σ) {c : Cursor} (hc : B.Doomed c) :
    ∃ d, iterateFor step bound s c = .error d := by
  induction bound generalizing s c with
  | nil => exact ⟨_, rfl⟩
  | cons t bound ih =>
    rw [iterateFor]
    cases hread : step s c with
    | error d => exact ⟨d, by simp only [Bind.bind, StateT.bind, hread, Except.bind]⟩
    | ok result =>
      obtain ⟨round, c₁⟩ := result
      obtain ⟨ts, hts, hclosed⟩ := hclose s c hc.eof round c₁ hread
      rw [bind_of_ok hread]
      cases round with
      | again s' => exact ih s' (hc.of_reaches hts)
      | done a =>
        obtain ⟨t, ht, hkind⟩ := hclosed a rfl
        exact absurd hkind (hc.unclosed t (hts.rest ▸ List.mem_append_left _ ht))

/-- So such a loop escapes. -/
theorem Dooms.extends_iterate {step step' : σ → Reader (Round σ α)}
    (hstep : ∀ s, Dooms B (step s) (step' s))
    (hclose : ∀ s, (step s).Passes fun round ts =>
      ∀ a, round = .done a → ∃ t ∈ ts, t.kind = .closer .curly)
    (hdone : ∀ s c c' a c₁, B.Beside c c' → step s c = .ok (.done a, c₁) →
      ∀ d, step' s c' ≠ .error d) (s : σ) :
    Extends B (Reader.iterate step s) (Reader.iterate step' s) := by
  -- The second row is longer, and so is its bound: the induction is on the bound of the first.
  have loop : ∀ (bound bound' : List Token), bound.length ≤ bound'.length → ∀ s,
      Extends B (iterateFor step bound s) (iterateFor step' bound' s) := by
    intro bound
    induction bound with
    | nil => exact fun _ _ _ _ _ _ => .wants rfl
    | cons t bound ih =>
      intro bound' hle s c c' hc
      obtain ⟨t', bound', rfl⟩ : ∃ t' bound'', bound' = t' :: bound'' :=
        List.exists_cons_of_length_pos (Nat.lt_of_lt_of_le (Nat.succ_pos _) hle)
      rw [iterateFor, iterateFor]
      have hfate := hstep s c c' hc
      have hround := hdone s c c'
      simp only [Bind.bind, StateT.bind]
      generalize step s c = e at hfate hround ⊢
      generalize step' s c' = e' at hfate hround ⊢
      cases hfate with
      | settled h =>
        cases h with
        | refused h => exact .refused h
        | wants h => exact .wants h
        | @same round c₁ c₁' h =>
          cases round with
          | again s' => exact ih bound' (Nat.le_of_succ_le_succ hle) s' c₁ c₁' h
          | done a => exact .same h
      | @doomed round c₁ d h hd =>
        cases round with
        | again s' =>
          obtain ⟨d', hd'⟩ := Doomed.exists_error_iterateFor hclose bound s' h
          simp only [Except.bind, hd']
          exact .refused hd
        | done a => exact absurd rfl (hround a c₁ hc rfl d)
  exact fun c c' hc => loop c.bound c'.bound hc.bound_length_le s c c' hc

end Reader

end IrRecords
