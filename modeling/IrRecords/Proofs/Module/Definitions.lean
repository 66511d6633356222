import IrRecords.Proofs.Function.Blocks
import IrRecords.Proofs.Module.Items

/-!
# Definitions block by block

A definition can be written on lines of its own: a heading up to the brace that opens the body, a text
for each block, and a line with the brace that closes the body. What such a definition comes to can be
told from the texts by themselves. If all of the blocks are read, the draft that is laid out at the end
has their interfaces, in their order (`Function.result_of_blocks`), and if one of them is refused, so is
the definition (`Function.refused_of_blocks`).
-/

namespace IrRecords

open Reader

/-! ## Failures that want nothing more -/

theorem Complete.bind {α β : Type} {e : Except Diagnostic α} {f : α → Except Diagnostic β}
    (he : Complete e) (hf : ∀ a, Complete (f a)) : Complete (e >>= f) := by
  cases e with
  | error d =>
    intro d' h
    cases h
    exact he d rfl
  | ok a => exact hf a

theorem Complete.ok {α : Type} (a : α) : Complete (.ok a : Except Diagnostic α) := fun _ h => by cases h

theorem Complete.error {α : Type} {d : Diagnostic} (h : d.fault.wantsMore = false) :
    Complete (.error d : Except Diagnostic α) := fun _ hd => by cases hd; exact h

namespace Draft

variable (defs : List Definition)

theorem complete_checkDistinct (seen : List Ident) : Complete (checkDistinct seen defs) := by
  induction defs generalizing seen with
  | nil => exact .ok ()
  | cons x rest ih =>
    rw [checkDistinct]
    split
    · exact ih seen
    · split
      · exact .error rfl
      · exact ih _

theorem complete_resolveOperand (values : Array Value) (o : Operand) :
    Complete (resolveOperand defs values o) := by
  cases o with
  | known value => exact .ok _
  | reference id ty p =>
    rw [resolveOperand]
    split
    · exact .error rfl
    · split
      · exact .error rfl
      · split
        · exact .ok _
        · exact .error rfl

theorem complete_resolveOperands (values : Array Value) (os : List Operand) :
    Complete (resolveOperands defs values os) := by
  induction os generalizing values with
  | nil => exact .ok _
  | cons o os ih =>
    rw [resolveOperands]
    exact (complete_resolveOperand defs values o).bind fun x => (ih _).bind fun _ => .ok _

theorem complete_resolveDetail (detail : Detail) : Complete (resolveDetail defs detail) := by
  have hlabel : ∀ e, Complete (resolveLabel defs e) := fun e => by
    rw [resolveLabel]
    split
    · exact .ok _
    · exact .error rfl
  have hlabels : ∀ es : List (Ident × Position), Complete (es.mapM (resolveLabel defs)) := fun es => by
    induction es with
    | nil => exact .ok _
    | cons e es ih =>
      rw [List.mapM_cons]
      exact (hlabel e).bind fun _ => ih.bind fun _ => .ok _
  cases detail with
  | phi incoming => exact (hlabels incoming).bind fun _ => .ok _
  | _ => exact .ok _

theorem complete_resolveStatements (result : ValueId) (values : Array Value) (ss : List Statement) :
    Complete (resolveStatements defs result values ss) := by
  induction ss generalizing result values with
  | nil => exact .ok _
  | cons s ss ih =>
    rw [resolveStatements]
    refine (complete_resolveOperands defs values _).bind fun x => ?_
    exact (complete_resolveDetail defs _).bind fun _ => (ih _ _).bind fun _ => .ok _

/-- Laying out a draft does not fail because something is missing. -/
theorem complete_finish (d : Draft) : Complete d.finish := by
  rw [finish]
  refine (complete_checkDistinct _ []).bind fun _ => ?_
  exact (complete_resolveStatements _ _ _ _).bind fun _ => .ok _

end Draft

namespace Function

open Draft

variable {ctx : Context} {d d' : Draft} {c c' c₁ : Cursor} {T : Twins} {B : Border}
  {s heading closing : Token.Stream} {ss : List Token.Stream} {b : Draft.Block} {line : Nat}
  {bs : List Draft.Block}

/-! ## Headings -/

/-- Reads up to the brace that opens the body. -/
def readOpening : Reader Draft := do
  let h ← readHeader
  skipWhile (!opensBody ·)
  expect (.opener .curly) "'\x7b'"
  Draft.ofHeader h

/-- A definition is what stands up to the opening brace, and the body. -/
theorem result_readDefinition (ctx : Context) (c : Cursor) :
    (readDefinition ctx c).result = (do
      let d ← readOpening
      let d ← iterate (readBodyItem ctx) d
      d.finish : Reader Function) c := by
  rw [readDefinition, Traced.result_bind, readOpening, bind_assoc]
  change readHeader c >>= (fun x => readBody ctx x.1 x.2) = readHeader c >>= _
  congr 1
  funext x
  obtain ⟨h, c₁⟩ := x
  rw [readBody]
  simp only [bind_assoc]

theorem keeps_readOpening : Keeps T (SameDraft T) readOpening := by
  rw [readOpening]
  refine keeps_readHeader.bind fun h h' hh => ?_
  refine .after steady_skipToBody fun _ => .after (steady_expect _ _) fun _ => ?_
  exact .lift (same_ofHeader hh)

theorem extends_readOpening : Local B readOpening := by
  rw [readOpening]
  refine extends_readHeader.bind fun h => (strays_skipWhile _).extends (fun _ => ?_)
    fun _ _ => Starves.bind (starves_expect TokenKind.noConfusion _)
  exact (extends_expect TokenKind.noConfusion _).bind fun _ => extends_lift _

/-- The text is what stands in front of the blocks of a body, in which all parameters are named: a header
up to the brace that opens the body, and nothing else but lines of debug records. -/
structure IsHeading (s : Token.Stream) (d : Draft) : Prop where
  keyword : s.start.current.kind = .word "define"
  opens : ∃ c, readOpening s.start.advance = .ok (d, c)
    ∧ ∀ ctx, ∃ c₁, Rounds (readBodyItem ctx) d c d c₁ ∧ c₁.rest = []
  named : d.nextSlot = 0

/-- In front of the blocks there are none. -/
theorem blocks_of_readOpening (h : readOpening c = .ok (d, c₁)) : d.blocks = #[] := by
  obtain ⟨header, c₂, _, h⟩ := bind_eq_ok_iff.mp h
  obtain ⟨_, c₃, _, h⟩ := bind_eq_ok_iff.mp h
  obtain ⟨_, c₄, _, h⟩ := bind_eq_ok_iff.mp h
  cases hd : Draft.ofHeader header with
  | error e => rw [hd] at h; cases h
  | ok d' =>
    rw [hd] at h
    cases h
    exact blocks_ofHeader hd

/-- A heading in its place is read as it is by itself, and the body is ahead. -/
theorem IsHeading.placed (h : IsHeading s d) (hplace : IsPlace T B s ss c)
    (hB : ∀ id, (B.behind.headD B.stop').kind ≠ .localRef id) (hs : s.stop.kind = .eof)
    (ctx : Context) : ∃ d' c',
      (readOpening >>= iterate (readBodyItem ctx)) c.advance = iterate (readBodyItem ctx) d' c'
        ∧ SameDraft T d d' ∧ c'.AtRows B.line ss := by
  obtain ⟨c₀, hopens, hlines⟩ := h.opens
  have hin : s.start.rest ≠ [] :=
    Cursor.rest_ne_nil_of_kind hs (h.keyword ▸ TokenKind.noConfusion)
  obtain ⟨mid, hfacing, hbeside⟩ := hplace.placed.advance hin
  have hcarried := Carried.intro (keeps_readOpening _ _ hfacing) (extends_readOpening _ _ hbeside)
  rw [hopens] at hcarried
  generalize hread : readOpening c.advance = e at hcarried
  cases hcarried with
  | @same _ d₁ _ c₁ hd₁ hc₁ =>
    obtain ⟨c₂, hrounds, hend⟩ := hlines ctx
    obtain ⟨d', c', hrounds', hd', hc'⟩ := hrounds.placed (productive_readBodyItem ctx)
      (fun d => (extends_readBodyItem hB d).inside) (fun _ _ h => agrees_readBodyItem ctx h) hd₁ hc₁
    refine ⟨d', c', ?_, hd', hplace.atRows hc' hend⟩
    obtain ⟨mid₁, _, hbeside₁⟩ := hc₁
    rw [bind_of_ok hread]
    exact hrounds'.iterate_eq (productive_readBodyItem ctx) (hbeside₁.stop' ▸ B.eof')

/-! ## The end of a body -/

/-- The text is the line of the brace that closes a body. No other item begins behind the brace. -/
structure IsClosing (s : Token.Stream) : Prop where
  brace : s.start.current.kind = .closer .curly
  line : Module.OneLine s
  alone : ∀ w ∈ ["attributes", "declare", "define"], s.start.advance.current.kind ≠ .word w

theorem IsClosing.goesOn (h : IsClosing s) (hs : s.stop.kind = .eof) : GoesOn s := by
  have hno : ∀ id, s.start.current.kind ≠ .localRef id := fun id hid => by
    rw [h.brace] at hid
    cases hid
  refine ⟨⟨Cursor.rest_ne_nil_of_kind (c := s.start) hs ?_, ?_, fun id hid => absurd hid (hno id), hs⟩, hno⟩
  · exact h.brace ▸ TokenKind.noConfusion
  · rw [h.brace]
    rfl

/-- In its place the line ends the body, and nothing but the rest of it is left. -/
theorem IsClosing.placed (h : IsClosing s) (hs : s.stop.kind = .eof) (hc : c.AtRows line [s])
    (ctx : Context) (d : Draft) : ∃ c', readBodyItem ctx d c = .ok (.done d, c') ∧ Module.EndsLine c'
      ∧ ∀ w ∈ ["attributes", "declare", "define"], c'.current.kind ≠ .word w := by
  obtain ⟨hbrace, hline, halone⟩ := h
  obtain ⟨t, ts, hrest⟩ := List.exists_cons_of_ne_nil
    (Cursor.rest_ne_nil_of_kind (c := s.start) hs (hbrace ▸ TokenKind.noConfusion))
  have htokens : s.tokens = t :: ts := hrest
  obtain ⟨lines, hlowered⟩ := hc.rows.exists_lowered
  obtain ⟨t', us, ht, hus, hrest'⟩ := List.forall₂_cons_left_iff.mp (htokens ▸ hlowered.tokens)
  -- In its place the line is further down: kinds carry over, and so does being on one line.
  have hadvance : c.advance = ⟨some t'.line, us, c.stop⟩ := by rw [Cursor.advance, hrest']
  have hlines : ∀ u' ∈ us, t'.line = u'.line := fun u' hu' => by
    obtain ⟨u, hu, hsame⟩ := exists_left_of_forall₂ hus hu'
    rw [ht.line, hsame.line, hline t (htokens ▸ List.mem_cons_self) u
      (htokens ▸ List.mem_cons_of_mem t hu)]
  have hkind : kind c = .ok (.closer .curly, c) := by
    rw [kind, ← hbrace, Cursor.current, Cursor.current, hrest', hrest, List.headD_cons, ht.kind]
    rfl
  refine ⟨c.advance, ?_, ?_, fun w hw hword => halone w hw ?_⟩
  · rw [readBodyItem, bind_of_ok hkind]
    rfl
  · rw [hadvance]
    exact fun u' hu' => congrArg some (hlines u' hu')
  · rw [← hword, hadvance, Cursor.advance, hrest]
    cases hus with
    | nil => exact hs.trans hc.stop.symm
    | cons hu _ => exact hu.kind.symm

/-! ## Definitions -/

/-- What stands around the blocks of a body is the same. -/
structure SameFrame (d d' : Draft) : Prop where
  name : d'.name = d.name
  ret : d'.ret = d.ret
  params : d'.paramEntries = d.paramEntries

/-- Texts of which a definition is made: a heading, which is read as the draft `d`, blocks, and the end of
the body. -/
structure MakesDefinition (heading : Token.Stream) (ss : List Token.Stream) (closing : Token.Stream)
    (d : Draft) : Prop where
  isHeading : IsHeading heading d
  isBlock : ∀ s ∈ ss, IsBlock s
  isClosing : IsClosing closing
  stops : ∀ s ∈ heading :: (ss ++ [closing]), s.stop.kind = .eof

namespace MakesDefinition

theorem stop_heading (h : MakesDefinition heading ss closing d) : heading.stop.kind = .eof :=
  h.stops _ List.mem_cons_self

theorem stop_closing (h : MakesDefinition heading ss closing d) : closing.stop.kind = .eof :=
  h.stops _ (List.mem_cons_of_mem _ (List.mem_append_right ss List.mem_cons_self))

theorem blocks (h : MakesDefinition heading ss closing d) : ∀ s ∈ ss, IsBlock s ∧ s.stop.kind = .eof :=
  fun s hs => ⟨h.isBlock s hs, h.stops _ (List.mem_cons_of_mem _ (List.mem_append_left _ hs))⟩

/-- Behind its heading the body of a definition is ahead. -/
theorem exists_opening (h : MakesDefinition heading ss closing d)
    (hc : c.AtRows line (heading :: (ss ++ [closing]))) (ctx : Context) :
    ∃ d' c' line', (readDefinition ctx c.advance).result
        = (iterate (readBodyItem ctx) d' >>= fun d' => liftM d'.finish : Reader Function) c'
      ∧ SameFrame d d' ∧ d'.interfaces = [] ∧ d'.nextSlot = 0 ∧ c'.AtRows line' (ss ++ [closing]) := by
  obtain ⟨T, B, hplace, hB⟩ := exists_isPlace_of_goesOn hc h.stop_heading
    (forall_goesOn h.blocks (h.isClosing.goesOn h.stop_closing))
    (List.append_ne_nil_of_right_ne_nil _ (List.cons_ne_nil _ _))
  obtain ⟨d', c', hopening, hd', hc'⟩ := h.isHeading.placed hplace hB h.stop_heading ctx
  refine ⟨d', c', B.line, ?_, ⟨hd'.name, hd'.ret, hd'.paramEntries_eq⟩, ?_, ?_, hc'⟩
  · rw [result_readDefinition, ← bind_assoc]
    simp only [Bind.bind, StateT.bind] at hopening ⊢
    rw [hopening]
  · obtain ⟨_, hopens, _⟩ := h.isHeading.opens
    have hblocks := hd'.blocks
    rw [blocks_of_readOpening hopens] at hblocks
    rw [interfaces, List.forall₂_nil_left_iff.mp hblocks]
    rfl
  · rw [hd'.nextSlot, h.isHeading.named]

/-- **A definition is laid out from its blocks.** -/
theorem result_eq (h : MakesDefinition heading ss closing d)
    (hc : c.AtRows line (heading :: (ss ++ [closing]))) (hbs : List.Forall₂ (ReadsBlock ctx) ss bs) :
    ∃ d' c', (readDefinition ctx c.advance).result = d'.finish.map (·, c')
      ∧ SameFrame d d' ∧ d'.interfaces = bs.map Block.interface ∧ Module.EndsLine c'
      ∧ ∀ w ∈ ["attributes", "declare", "define"], c'.current.kind ≠ .word w := by
  obtain ⟨d₁, c₁, line₁, hresult, hframe, hnone, hnamed, hc₁⟩ := h.exists_opening hc ctx
  obtain ⟨d₂, line₂, c₂, hrounds, hc₂, hinterfaces, hd₂⟩ := exists_rounds_of_blocks hc₁ h.blocks
    (h.isClosing.goesOn h.stop_closing) hbs hnamed
  obtain ⟨c₃, hdone, hends, halone⟩ := h.isClosing.placed h.stop_closing hc₂ ctx d₂
  have hloop : iterate (readBodyItem ctx) d₁ c₁ = .ok (d₂, c₃) := by
    rw [hrounds.iterate_eq (productive_readBodyItem ctx) hc₁.stop]
    exact iterate_done hdone
  refine ⟨d₂, c₃, ?_, ?_, ?_, hends, halone⟩
  · rw [hresult, bind_of_ok hloop]
    cases d₂.finish <;> rfl
  · rw [hd₂]
    exact ⟨hframe.name, hframe.ret, hframe.params⟩
  · rw [hinterfaces, hnone, List.nil_append]

/-- A definition is refused if one of its blocks is. -/
theorem exists_error (h : MakesDefinition heading ss closing d)
    (hc : c.AtRows line (heading :: (ss ++ [closing]))) (hss : ∃ s ∈ ss, ∀ b, ¬ ReadsBlock ctx s b) :
    ∃ e, (readDefinition ctx c.advance).result = .error e ∧ e.fault.wantsMore = false := by
  obtain ⟨d₁, c₁, line₁, hresult, _, _, hnamed, hc₁⟩ := h.exists_opening hc ctx
  obtain ⟨d₂, c₂, e, hrounds, herror, hfault⟩ := exists_error_of_blocks hc₁ h.blocks
    (h.isClosing.goesOn h.stop_closing) hss hnamed
  have hloop : iterate (readBodyItem ctx) d₁ c₁ = .error e := by
    rw [hrounds.iterate_eq (productive_readBodyItem ctx) hc₁.stop]
    exact iterate_of_error herror
  refine ⟨e, ?_, hfault⟩
  rw [hresult]
  simp only [Bind.bind, StateT.bind, hloop, Except.bind]

end MakesDefinition

end Function

end IrRecords
