import IrRecords.Proofs.Function.Borders
import IrRecords.Proofs.Module.Parts
import IrRecords.Proofs.Module.Structs

/-!
# Items

A text may be a single item of a module: the definition of a struct, a line that is passed over, a group of
attributes, a declaration, or the definition of a function with the rest of its last line (`IsItem`). In a row
of such texts the second sweep passes one of them at a time. It has then read the functions that the text gives
by itself, and goes on where the next one begins (`IsItem.passes`); and it fails at a text that is refused by
itself (`IsItem.exists_error`).
-/

namespace IrRecords

open Reader

/-- Where no text may be shown in another way, the functions are the same. -/
theorem Function.SameBut.eq {X : String → Prop} {f f' : Function} (h : Function.SameBut X f f')
    (hX : ∀ x, ¬ X x) : f' = f := by
  have hvalues : f'.values = f.values := by
    refine Array.toList_inj.mp ?_
    refine List.forall₂_eq_eq_eq ▸ (h.values.flip.imp fun v' v hv => ?_)
    rcases hv with rfl | ⟨_, _, hx, _⟩
    · rfl
    · exact absurd hx (hX _)
  obtain ⟨name, ret, vararg, args, blocks, values, instrs⟩ := f
  obtain ⟨name', ret', vararg', args', blocks', values', instrs'⟩ := f'
  obtain ⟨rfl, rfl, rfl, rfl, rfl, rfl, _⟩ := h
  cases hvalues
  rfl

theorem Traced.result_bind {ε α β : Type} (t : Traced ε α) (f : α → Traced ε β) :
    (t >>= f).result = t.result >>= fun a => (f a).result := by
  obtain ⟨log, result⟩ := t
  cases result <;> rfl

namespace Module

variable {s : Token.Stream} {ss : List Token.Stream} {ctx : Draft.Context} {T : Twins} {B : Border}
  {c c' c₁ : Cursor} {bound : List Token} {p p' : Progress} {f : Function} {fs : List Function}

/-! ## What items are -/

/-- Whether a line may begin with a token of this kind that is passed over. -/
def startsLine : TokenKind → Bool
  | .globalRef _ | .metadata _ => true
  | .word w => w == "source_filename" || w == "target"
  | _ => false

/-- All tokens stand on one line. -/
def OneLine (s : Token.Stream) : Prop := ∀ t ∈ s.tokens, ∀ u ∈ s.tokens, t.line = u.line

/-- What is ahead is the rest of the line of the token just passed. -/
def EndsLine (c : Cursor) : Prop := ∀ t ∈ c.rest, c.lastLine? = some t.line

/-- The text is an item of a module. It is read as such to its end, unless it is refused, and then not
because something is missing. -/
inductive IsItem (s : Token.Stream) : Prop
  /-- A line with the definition of a struct. -/
  | struct (h : atStruct s.start = true) (hline : OneLine s)
  /-- A line of a global, of metadata, or of the name or the target of the module. -/
  | line (h : startsLine s.start.current.kind = true) (hline : OneLine s)
  /-- A group of attributes. -/
  | attributes (h : s.start.current.kind = .word "attributes") {c : Cursor}
      (hgroup : (do skipWhile (!Function.opensBody ·); skipGroup) s.start = .ok ((), c))
      (hend : c.rest = [])
  /-- A line with a declaration. -/
  | declaration (h : s.start.current.kind = .word "declare") (hline : OneLine s)
      (hcomplete : Complete (Function.readDeclaration s.start.advance).result)
  /-- A definition up to the line of the brace that closes it. -/
  | definition (h : s.start.current.kind = .word "define")
      (hcomplete : ∀ ctx, Complete (Function.readDefinition ctx s.start.advance).result)
      (hclosing : ∀ ctx f c, (Function.readDefinition ctx s.start.advance).result = .ok (f, c) →
        EndsLine c)

/-- No other item begins behind the brace that closes a definition. -/
def ClosesAlone (s : Token.Stream) : Prop :=
  s.start.current.kind = .word "define" →
    ∀ ctx f c, (Function.readDefinition ctx s.start.advance).result = .ok (f, c) →
      ∀ w ∈ ["attributes", "declare", "define"], c.current.kind ≠ .word w

/-- The functions that are read in an item: one, or none. -/
def functionsIn (ctx : Draft.Context) (s : Token.Stream) : Except Diagnostic (List Function) :=
  match s.start.current.kind with
  | .word "define" => (Function.readDefinition ctx s.start.advance).result.map fun x => [x.1]
  | .word "declare" => (Function.readDeclaration s.start.advance).result.map fun x => [x.1]
  | _ => .ok []

theorem exists_localRef_of_atStruct (h : atStruct c = true) :
    (∃ id, c.current.kind = .localRef id) ∧ (c.lookahead 1).kind = .equal := by
  rw [atStruct] at h
  split at h
  · exact ⟨⟨_, ‹_›⟩, ‹_›⟩
  · cases h

theorem startsPart_of_startsLine {k : TokenKind} (h : startsLine k = true) :
    k.startsPart = true ∧ k ≠ .eof ∧ (∀ id, k ≠ .localRef id)
      ∧ ∀ w ∈ ["attributes", "declare", "define"], k ≠ .word w := by
  cases k with
  | word w =>
    rw [startsLine, Bool.or_eq_true, beq_iff_eq, beq_iff_eq] at h
    rcases h with rfl | rfl
    all_goals exact ⟨by decide, TokenKind.noConfusion, fun _ => TokenKind.noConfusion, by decide⟩
  | globalRef id =>
    exact ⟨rfl, TokenKind.noConfusion, fun _ => TokenKind.noConfusion, fun _ _ => TokenKind.noConfusion⟩
  | metadata name =>
    exact ⟨rfl, TokenKind.noConfusion, fun _ => TokenKind.noConfusion, fun _ _ => TokenKind.noConfusion⟩
  | _ => cases h

/-- Every item may stand behind another one. -/
theorem IsItem.startsPart (h : IsItem s) (hstop : s.stop.kind = .eof) : s.StartsPart := by
  have hword : ∀ w, s.start.current.kind = .word w → (TokenKind.word w).startsPart = true →
      s.StartsPart := fun w hw hstarts =>
    ⟨Cursor.rest_ne_nil_of_kind (c := s.start) hstop (hw ▸ TokenKind.noConfusion), hw ▸ hstarts,
      fun id hid => absurd (hw.symm.trans hid) TokenKind.noConfusion, hstop⟩
  cases h with
  | struct h hline =>
    obtain ⟨⟨id, hid⟩, hequal⟩ := exists_localRef_of_atStruct h
    exact ⟨Cursor.rest_ne_nil_of_kind (c := s.start) hstop (hid ▸ TokenKind.noConfusion), hid ▸ rfl,
      fun _ _ => hequal, hstop⟩
  | line h hline =>
    obtain ⟨hstarts, heof, hlocal, _⟩ := startsPart_of_startsLine h
    exact ⟨Cursor.rest_ne_nil_of_kind (c := s.start) hstop heof, hstarts,
      fun id hid => absurd hid (hlocal id), hstop⟩
  | attributes h => exact hword _ h (by decide)
  | declaration h => exact hword _ h (by decide)
  | definition h => exact hword _ h (by decide)

theorem functionsIn_eq_nil (hdefine : s.start.current.kind ≠ .word "define")
    (hdeclare : s.start.current.kind ≠ .word "declare") : functionsIn ctx s = .ok [] := by
  rw [functionsIn]
  split
  · exact absurd ‹_› hdefine
  · exact absurd ‹_› hdeclare
  · rfl

/-! ## One step of the second sweep -/

theorem skipItem_of_line (hother : c.current.kind ≠ .word "attributes") :
    skipItem c = .ok ((), c.skipLine) := by
  have hno : isAt (.word "attributes") c = .ok (false, c) := by
    rw [isAt, beq_eq_false_iff_ne.mpr hother]
  rw [skipItem, bind_of_ok hno]
  rfl

theorem result_readItems_of_other {t : Token} (heof : c.current.kind ≠ .eof)
    (hdefine : c.current.kind ≠ .word "define") (hdeclare : c.current.kind ≠ .word "declare") :
    (readItems ctx (t :: bound) p c).result
      = skipItem c >>= fun x => (readItems ctx bound p x.2).result := by
  rw [readItems]
  dsimp only
  split
  · exact absurd ‹_› heof
  · exact absurd ‹_› hdefine
  · exact absurd ‹_› hdeclare
  · rw [Traced.result_bind]
    rfl

theorem result_readItems_of_definition {t : Token} (h : c.current.kind = .word "define") :
    (readItems ctx (t :: bound) p c).result
      = (Function.readDefinition ctx c.advance).result >>= fun x =>
        p.push x.1 c.current.start >>= fun p => (readItems ctx bound p x.2).result := by
  rw [readItems, h]
  simp only [Traced.result_bind]
  rfl

theorem result_readItems_of_declaration {t : Token} (h : c.current.kind = .word "declare") :
    (readItems ctx (t :: bound) p c).result
      = (Function.readDeclaration c.advance).result >>= fun x =>
        p.push x.1 c.current.start >>= fun p => (readItems ctx bound p x.2).result := by
  rw [readItems, h]
  simp only [Traced.result_bind]
  rfl

/-- A line that begins no other item is passed over. -/
theorem result_readItems_of_line {t : Token} (heof : c.current.kind ≠ .eof)
    (hother : ∀ w ∈ ["attributes", "declare", "define"], c.current.kind ≠ .word w) :
    (readItems ctx (t :: bound) p c).result = (readItems ctx bound p c.skipLine).result := by
  rw [result_readItems_of_other heof (hother _ (by decide)) (hother _ (by decide)),
    skipItem_of_line (hother _ (by decide))]
  rfl

theorem remaining_skipLine_lt (hstop : c.stop.kind = .eof) (heof : c.current.kind ≠ .eof) :
    c.skipLine.remaining < c.remaining := by
  obtain ⟨ts, hts, _⟩ := c.reaches_skipLine hstop heof
  rw [Cursor.remaining, Cursor.remaining, hts.rest, List.cons_append, List.length_cons,
    List.length_append]
  omega

/-- Passing the line of the token ahead passes all tokens, if they are all on it. -/
theorem rest_skipLine_eq_nil {line : Nat} (h : ∀ t ∈ c.rest, t.line = line) : c.skipLine.rest = [] := by
  rw [Cursor.skipLine, Cursor.advanceWhile, Cursor.advanceWhileIn_eq]
  dsimp only
  rw [List.dropWhile_eq_nil_iff]
  intro t ht
  have hcurrent : c.current.line = line := by
    cases hrest : c.rest with
    | nil => rw [hrest] at ht; cases ht
    | cons u us =>
      rw [Cursor.current, hrest]
      exact h u (hrest ▸ List.mem_cons_self)
  rw [beq_iff_eq, h t ht, hcurrent]

/-! ## Items in their places -/

/-- What becomes of the sweep at an item in its place: it goes on behind the item with the functions that
are read in it. -/
def Passes (ctx : Draft.Context) (fs : List Function) (next : Nat) (ss : List Token.Stream)
    (bound : List Token) (p : Progress) (c : Cursor) : Prop :=
  ∃ c₁ bound₁, Cursor.AtRows next ss c₁ ∧ c₁.remaining < bound₁.length
    ∧ (readItems ctx bound p c).result
      = fs.foldlM (fun p f => p.push f c.current.start) p >>= fun p =>
        (readItems ctx bound₁ p c₁).result

/-- An item that is one line. -/
theorem passes_line {t : Token} (hplace : IsPlace T B s ss c) (hline : OneLine s) (hc : c.stop.kind = .eof)
    (hs : s.stop.kind = .eof)
    (hbound : c.remaining < (t :: bound).length) (heof : s.start.current.kind ≠ .eof)
    (hother : ∀ w ∈ ["attributes", "declare", "define"], s.start.current.kind ≠ .word w) :
    Passes ctx [] B.line ss (t :: bound) p c := by
  have hin : s.start.rest ≠ [] := Cursor.rest_ne_nil_of_kind hs heof
  have hkind := hplace.placed.current_kind hin
  have hend : s.start.skipLine.rest = [] := by
    obtain ⟨u, us, hrest⟩ := List.exists_cons_of_ne_nil hin
    have hu : u ∈ s.start.rest := hrest ▸ List.mem_cons_self
    exact rest_skipLine_eq_nil fun t ht => hline t ht u hu
  have hlt := remaining_skipLine_lt hc (hkind ▸ heof)
  refine ⟨c.skipLine, bound, hplace.atRows (hplace.placed.skipLine hin) hend, ?_, ?_⟩
  · exact Nat.lt_of_lt_of_le hlt (Nat.le_of_lt_succ hbound)
  · rw [result_readItems_of_line (hkind ▸ heof) (hkind ▸ hother)]
    rfl

/-- A definition by itself and in its place. -/
theorem carried_readDefinition (ctx : Draft.Context) (hc : Placed T B c c') (hT : ∀ x, ¬ T.Loose x) :
    Carried T B Eq (Function.readDefinition ctx c).result (Function.readDefinition ctx c').result := by
  obtain ⟨mid, hfacing, hbeside⟩ := hc
  refine Carried.intro ((Function.same_readDefinition ctx hfacing).mono fun x x' h => ?_)
    (Function.outcome_readDefinition ctx hbeside)
  exact ⟨(h.function.eq hT).symm, h.cursor⟩

theorem carried_readDeclaration (hc : Placed T B c c') (hT : ∀ x, ¬ T.Loose x) :
    Carried T B Eq (Function.readDeclaration c).result (Function.readDeclaration c').result := by
  obtain ⟨mid, hfacing, hbeside⟩ := hc
  refine Carried.intro ((Function.same_readDeclaration hfacing).mono fun x x' h => ?_)
    (Function.outcome_readDeclaration hbeside)
  exact ⟨(h.function.eq hT).symm, h.cursor⟩

theorem remaining_lt_of_reaches {ts : List Token} (h : c.Reaches ts c₁) (hts : ts ≠ []) :
    c₁.remaining < c.remaining := by
  have hlength := congrArg List.length h.rest
  have hpos := List.length_pos_iff.mpr hts
  rw [List.length_append] at hlength
  rw [Cursor.remaining, Cursor.remaining]
  omega

/-- Nothing is left when the last line has been passed over. -/
theorem EndsLine.rest_skipLine (h : EndsLine c) (hc : c.rest ≠ []) : c.skipLine.rest = [] := by
  cases hlast : c.lastLine? with
  | none =>
    obtain ⟨t, ts, hrest⟩ := List.exists_cons_of_ne_nil hc
    have hline := h t (hrest ▸ List.mem_cons_self)
    rw [hlast] at hline
    cases hline
  | some line =>
    have hlines : ∀ t ∈ c.rest, t.line = line := fun t ht => by
      have hline := h t ht
      rw [hlast, Option.some.injEq] at hline
      exact hline.symm
    exact rest_skipLine_eq_nil hlines

/-- A definition in its place: behind it the rest of its last line is passed over. -/
theorem passes_definition {t : Token} (hplace : IsPlace T B s ss c) (hc : c.stop.kind = .eof)
    (hs : s.stop.kind = .eof) (hlexed : ∀ t ∈ s.tokens, t.Lexed)
    (hbound : c.remaining < (t :: bound).length) (h : s.start.current.kind = .word "define")
    (hread : (Function.readDefinition ctx s.start.advance).result = .ok (f, c₁))
    (hclosing : EndsLine c₁)
    (hother : ∀ w ∈ ["attributes", "declare", "define"], c₁.current.kind ≠ .word w) :
    Passes ctx [f] B.line ss (t :: bound) p c := by
  have hin : s.start.rest ≠ [] := Cursor.rest_ne_nil_of_kind hs (h ▸ TokenKind.noConfusion)
  have hkind := (hplace.placed.current_kind hin).trans h
  have hcarried := carried_readDefinition ctx (hplace.placed.advance hin) hplace.strict
  rw [hread] at hcarried
  generalize hread' : (Function.readDefinition ctx c.advance).result = e at hcarried
  cases hcarried with
  | @same _ _ _ c₁' heq hc₁ =>
    cases heq
    obtain ⟨D, hD, _⟩ := exists_definition hc hkind hread'
    obtain ⟨D₀, hD₀, _⟩ := exists_definition (c := s.start) hs h hread
    have hlt := remaining_lt_of_reaches hD (List.cons_ne_nil _ _)
    have hbound₁ : c₁'.remaining < bound.length :=
      Nat.lt_of_lt_of_le hlt (Nat.le_of_lt_succ hbound)
    have hstop₁ : c₁'.stop.kind = .eof := hD.stop ▸ hc
    -- A definition that uses up its part leaves the loop at the next part. Otherwise the rest of its last
    -- line is still ahead, and one more round passes over it.
    by_cases hend : c₁.rest = []
    · refine ⟨c₁', bound, hplace.atRows hc₁ hend, hbound₁, ?_⟩
      rw [result_readItems_of_definition hkind, hread']
      simp only [List.foldlM_cons, List.foldlM_nil, bind_pure]
      rfl
    · obtain ⟨t', bound', rfl⟩ : ∃ t' bound', bound = t' :: bound' :=
        List.exists_cons_of_length_pos (Nat.lt_of_le_of_lt (Nat.zero_le _) hbound₁)
      have hkind₁ := hc₁.current_kind hend
      have heof : c₁.current.kind ≠ .eof := by
        obtain ⟨u, us, hrest⟩ := List.exists_cons_of_ne_nil hend
        have hu : u ∈ s.start.rest := by
          rw [hD₀.rest, hrest]
          exact List.mem_append_right _ List.mem_cons_self
        rw [Cursor.current, hrest]
        exact (hlexed u hu).kind_ne_eof
      refine ⟨c₁'.skipLine, bound', hplace.atRows (hc₁.skipLine hend) (hclosing.rest_skipLine hend), ?_, ?_⟩
      · have hlt' := remaining_skipLine_lt hstop₁ (hkind₁ ▸ heof)
        exact Nat.lt_of_lt_of_le hlt' (Nat.le_of_lt_succ hbound₁)
      · rw [result_readItems_of_definition hkind, hread']
        simp only [List.foldlM_cons, List.foldlM_nil, bind_pure]
        have hskips : ∀ p, (readItems ctx (t' :: bound') p c₁').result
            = (readItems ctx bound' p c₁'.skipLine).result := fun p =>
          result_readItems_of_line (hkind₁ ▸ heof) (hkind₁ ▸ hother)
        change (p.push f c.current.start >>= fun p => (readItems ctx (t' :: bound') p c₁').result) = _
        simp only [hskips]

/-- Behind a declaration nothing is left of its line. -/
theorem rest_eq_nil_of_readDeclaration {line : Nat} (hstop : c.stop.kind = .eof)
    (hline : ∀ t ∈ c.rest, t.line = line) (hlast : c.lastLine? = some line)
    (h : (Function.readDeclaration c).result = .ok (f, c₁)) : c₁.rest = [] := by
  rw [Function.readDeclaration, Traced.bind_eq_ok_iff] at h
  obtain ⟨⟨header, c₂⟩, hheader, h⟩ := h
  obtain ⟨_, _, h⟩ := Traced.bind_eq_ok_iff.mp h
  obtain ⟨g, hg, h⟩ := Traced.bind_eq_ok_iff.mp h
  cases h
  obtain ⟨head, hhead, _⟩ := Function.exists_reads_header hstop hheader
  have hlast₂ : c₂.lastLine? = some line := by
    rw [hhead.lastLine?]
    cases hlast' : head.getLast? with
    | none => exact hlast
    | some t => exact congrArg some (hline t (hhead.rest ▸ List.mem_append_left _ (List.mem_of_getLast? hlast')))
  rw [Cursor.skipRestOfLine, hlast₂]
  dsimp only
  rw [Cursor.advanceWhile, Cursor.advanceWhileIn_eq]
  refine List.dropWhile_eq_nil_iff.mpr fun t ht => beq_iff_eq.mpr ?_
  exact hline t (hhead.rest ▸ List.mem_append_right _ ht)

theorem passes_declaration {t : Token} (hplace : IsPlace T B s ss c) (hc : c.stop.kind = .eof)
    (hs : s.stop.kind = .eof) (hbound : c.remaining < (t :: bound).length)
    (h : s.start.current.kind = .word "declare") (hline : OneLine s)
    (hread : (Function.readDeclaration s.start.advance).result = .ok (f, c₁)) :
    Passes ctx [f] B.line ss (t :: bound) p c := by
  have hin : s.start.rest ≠ [] := Cursor.rest_ne_nil_of_kind hs (h ▸ TokenKind.noConfusion)
  have hkind := (hplace.placed.current_kind hin).trans h
  have hcarried := carried_readDeclaration (hplace.placed.advance hin) hplace.strict
  rw [hread] at hcarried
  generalize hread' : (Function.readDeclaration c.advance).result = e at hcarried
  cases hcarried with
  | @same _ _ _ c₁' heq hc₁ =>
    cases heq
    obtain ⟨D, hD, _⟩ := exists_declaration hc hkind hread'
    have hlt := remaining_lt_of_reaches hD (List.cons_ne_nil _ _)
    -- By itself the part is one line, and all of the line is passed over behind the parameters.
    have hend : c₁.rest = [] := by
      obtain ⟨u, us, hrest⟩ := List.exists_cons_of_ne_nil hin
      have hadvance : s.start.advance = ⟨some u.line, us, s.stop⟩ := by
        rw [Cursor.advance, hrest]
        rfl
      rw [hadvance] at hread
      have hu : u ∈ s.start.rest := hrest ▸ List.mem_cons_self
      have hlines : ∀ t ∈ us, t.line = u.line := fun t ht =>
        hline t (show t ∈ s.start.rest from hrest ▸ List.mem_cons_of_mem u ht) u hu
      exact rest_eq_nil_of_readDeclaration hs hlines rfl hread
    refine ⟨c₁', bound, hplace.atRows hc₁ hend, Nat.lt_of_lt_of_le hlt (Nat.le_of_lt_succ hbound), ?_⟩
    rw [result_readItems_of_declaration hkind, hread']
    simp only [List.foldlM_cons, List.foldlM_nil, bind_pure]
    rfl

/-- A group of attributes is passed over as a whole. -/
theorem skipItem_of_group (h : c.current.kind = .word "attributes")
    (hgroup : (do skipWhile (!Function.opensBody ·); skipGroup) c = .ok ((), c₁)) :
    skipItem c = .ok ((), c₁) := by
  obtain ⟨_, c₂, hskip, hgroup⟩ := bind_eq_ok_iff.mp hgroup
  have hopens : isAt (.opener .curly) c₂ = .ok (true, c₂) := by
    rw [skipWhile, Cursor.advanceWhile, Cursor.advanceWhileIn_eq] at hskip
    cases hskip
    rw [skipGroup, Cursor.skipGroup?] at hgroup
    rw [isAt, Cursor.current]
    cases hrest : c.rest.dropWhile (!Function.opensBody ·) with
    | nil =>
      rw [hrest] at hgroup
      cases hgroup
    | cons t ts =>
      have hno := List.head?_dropWhile_not (!Function.opensBody ·) c.rest
      rw [hrest] at hno
      have hopens : Function.opensBody t = true := by simpa using hno
      exact congrArg (fun b => Except.ok (b, _)) hopens
  have hat : isAt (.word "attributes") c = .ok (true, c) := by
    rw [isAt, beq_iff_eq.mpr h]
  rw [skipItem, bind_of_ok hat, if_pos rfl, bind_of_ok hskip, bind_of_ok hopens, if_pos rfl]
  exact hgroup

theorem passes_attributes {t : Token} (hplace : IsPlace T B s ss c) (hc : c.stop.kind = .eof)
    (hs : s.stop.kind = .eof) (hbound : c.remaining < (t :: bound).length)
    (h : s.start.current.kind = .word "attributes")
    (hgroup : (do skipWhile (!Function.opensBody ·); skipGroup) s.start = .ok ((), c₁))
    (hend : c₁.rest = []) : Passes ctx [] B.line ss (t :: bound) p c := by
  have hin : s.start.rest ≠ [] := Cursor.rest_ne_nil_of_kind hs (h ▸ TokenKind.noConfusion)
  have hkind := (hplace.placed.current_kind hin).trans h
  obtain ⟨mid, hfacing, hbeside⟩ := hplace.placed
  -- The group is passed alike in the moved row, and with other parts behind it.
  have hsteady : Steady T (do skipWhile (!Function.opensBody ·); skipGroup) :=
    Function.steady_skipToBody.bind fun _ => steady_skipGroup
  have hlocal : Local B (do skipWhile (!Function.opensBody ·); skipGroup) :=
    (strays_skipWhile _).extends (fun _ => extends_skipGroup) fun _ _ => starves_skipGroup
  have hcarried := Carried.intro (A := Eq) (hsteady _ _ hfacing) (hlocal _ _ hbeside)
  rw [hgroup] at hcarried
  generalize hgroup' : (do skipWhile (!Function.opensBody ·); skipGroup : Reader Unit) c = e at hcarried
  cases hcarried with
  | @same _ _ _ c₁' _ hc₁ =>
    have hskip := skipItem_of_group hkind hgroup'
    have heof : c.current.kind ≠ .eof := hkind ▸ TokenKind.noConfusion
    have hdefine : c.current.kind ≠ .word "define" := by rw [hkind]; decide
    have hdeclare : c.current.kind ≠ .word "declare" := by rw [hkind]; decide
    obtain ⟨ts, hts, part, rfl, _⟩ := passesFrom_skipItem heof hdefine hdeclare hc _ _ hskip
    have hlt := remaining_lt_of_reaches hts (by cases part <;> exact List.cons_ne_nil _ _)
    refine ⟨c₁', bound, hplace.atRows hc₁ hend, Nat.lt_of_lt_of_le hlt (Nat.le_of_lt_succ hbound), ?_⟩
    rw [result_readItems_of_other heof hdefine hdeclare, hskip]
    rfl

/-- **An item in its place is read as it is by itself.** -/
theorem IsItem.passes {t : Token} (h : IsItem s) (hcloses : ClosesAlone s) (hplace : IsPlace T B s ss c)
    (hc : c.stop.kind = .eof) (hs : s.stop.kind = .eof) (hlexed : ∀ t ∈ s.tokens, t.Lexed)
    (hbound : c.remaining < (t :: bound).length) (hread : functionsIn ctx s = .ok fs) :
    Passes ctx fs B.line ss (t :: bound) p c := by
  cases h with
  | struct h hline =>
    obtain ⟨⟨id, hid⟩, _⟩ := exists_localRef_of_atStruct h
    rw [functionsIn, hid] at hread
    cases hread
    exact passes_line hplace hline hc hs hbound (hid ▸ TokenKind.noConfusion)
      fun _ _ => hid ▸ TokenKind.noConfusion
  | line h hline =>
    obtain ⟨_, heof, _, hother⟩ := startsPart_of_startsLine h
    rw [functionsIn_eq_nil (hother _ (by decide)) (hother _ (by decide))] at hread
    cases hread
    exact passes_line hplace hline hc hs hbound heof hother
  | attributes h hgroup hend =>
    rw [functionsIn, h] at hread
    cases hread
    exact passes_attributes hplace hc hs hbound h hgroup hend
  | declaration h hline hcomplete =>
    rw [functionsIn, h] at hread
    cases hf : (Function.readDeclaration s.start.advance).result with
    | error d => simp only [hf] at hread; cases hread
    | ok x =>
      simp only [hf] at hread
      cases hread
      exact passes_declaration hplace hc hs hbound h hline hf
  | definition h hcomplete hclosing =>
    rw [functionsIn, h] at hread
    cases hf : (Function.readDefinition ctx s.start.advance).result with
    | error d => simp only [hf] at hread; cases hread
    | ok x =>
      simp only [hf] at hread
      cases hread
      exact passes_definition hplace hc hs hlexed hbound h hf (hclosing ctx _ _ hf) (hcloses h ctx _ _ hf)

/-- An item that is refused by itself is refused in its place. -/
theorem IsItem.exists_error {t : Token} {d : Diagnostic} (h : IsItem s) (hplace : IsPlace T B s ss c)
    (hs : s.stop.kind = .eof) (hread : functionsIn ctx s = .error d) :
    ∃ d', (readItems ctx (t :: bound) p c).result = .error d' := by
  -- Only what reads a function can be refused; the other items answer at once that they have none.
  cases h with
  | struct h hline =>
    obtain ⟨⟨id, hid⟩, _⟩ := exists_localRef_of_atStruct h
    rw [functionsIn, hid] at hread
    cases hread
  | line h hline =>
    obtain ⟨_, _, _, hother⟩ := startsPart_of_startsLine h
    rw [functionsIn_eq_nil (hother _ (by decide)) (hother _ (by decide))] at hread
    cases hread
  | attributes h hgroup hend =>
    rw [functionsIn, h] at hread
    cases hread
  | declaration h hline hcomplete =>
    have hin : s.start.rest ≠ [] := Cursor.rest_ne_nil_of_kind hs (h ▸ TokenKind.noConfusion)
    have hcarried := carried_readDeclaration (hplace.placed.advance hin) hplace.strict
    rw [functionsIn, h] at hread
    rw [result_readItems_of_declaration ((hplace.placed.current_kind hin).trans h)]
    cases hf : (Function.readDeclaration s.start.advance).result with
    | ok x => simp only [hf] at hread; cases hread
    | error d =>
      obtain ⟨d', hd', _⟩ := hcarried.exists_error hf hcomplete
      exact ⟨d', by rw [hd']; rfl⟩
  | definition h hcomplete hclosing =>
    have hin : s.start.rest ≠ [] := Cursor.rest_ne_nil_of_kind hs (h ▸ TokenKind.noConfusion)
    have hcarried := carried_readDefinition ctx (hplace.placed.advance hin) hplace.strict
    rw [functionsIn, h] at hread
    rw [result_readItems_of_definition ((hplace.placed.current_kind hin).trans h)]
    cases hf : (Function.readDefinition ctx s.start.advance).result with
    | ok x => simp only [hf] at hread; cases hread
    | error d =>
      obtain ⟨d', hd', _⟩ := hcarried.exists_error hf (hcomplete ctx)
      exact ⟨d', by rw [hd']; rfl⟩

end Module

end IrRecords
