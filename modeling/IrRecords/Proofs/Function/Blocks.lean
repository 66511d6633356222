import IrRecords.Proofs.Draft.BlockOrder
import IrRecords.Proofs.Function.Borders
import IrRecords.Proofs.Module.SameReading
import IrRecords.Proofs.Reader.Placing

/-!
# Bodies block by block

A block that begins with its label is read without looking at the blocks in front of it
(`readBodyItem_join`). So what is read in the text of a block by itself, starting with no blocks, is what
the block adds to a body when its text stands in the body (`ReadsBlock.placed`), as long as nothing in
the block takes a number.
-/

namespace IrRecords

namespace Draft

variable {pre d d' : Draft} {id? : Option Ident} {instr : Instr} {p : Position}

/-! ## Blocks in front of a draft -/

/-- The draft of nothing. -/
def blank : Draft := ⟨"", .void, false, #[], #[], 0⟩

/-- A draft that goes on where `pre` ends, with the blocks of `d`. -/
def join (pre d : Draft) : Draft :=
  { pre with blocks := pre.blocks ++ d.blocks, nextSlot := d.nextSlot }

theorem join_blank (h : pre.nextSlot = 0) : pre.join blank = pre := by
  rw [join, blank, Array.append_empty, ← h]

theorem startBlock_join (pre d : Draft) (id? : Option Ident) (p : Position) :
    (pre.join d).startBlock id? p = pre.join <$> d.startBlock id? p := by
  rw [startBlock, startBlock]
  rw [map_bind]
  refine bind_congr fun r => ?_
  rw [map_pure, join, join, Array.append_push]

section

variable (h : d.blocks ≠ #[])
include h

theorem back?_join (pre : Draft) : (pre.join d).blocks.back? = d.blocks.back? := by
  rw [join, Array.back?_append]
  cases hb : d.blocks.back? with
  | none => exact absurd (Array.back?_eq_none_iff.mp hb) h
  | some b => rfl

theorem needsBlock_join (pre : Draft) : (pre.join d).needsBlock = d.needsBlock := by
  rw [needsBlock, needsBlock, back?_join h]

theorem appendStatement_join (pre : Draft) (s : Statement) :
    (pre.join d).appendStatement s = pre.join (d.appendStatement s) := by
  rw [appendStatement, appendStatement, back?_join h]
  cases hb : d.blocks.back? with
  | none => rfl
  | some b =>
    have hpop : (pre.join d).blocks.pop = pre.blocks ++ d.blocks.pop := by
      rw [join, Array.pop_append, if_neg (mt Array.isEmpty_iff.mp h)]
    dsimp only
    rw [hpop, join, join, Array.append_push]

theorem blocks_appendStatement (s : Statement) : (d.appendStatement s).blocks ≠ #[] := by
  rw [appendStatement]
  cases hb : d.blocks.back? with
  | none => exact h
  | some b => exact Array.push_ne_empty

theorem placeInstr_join (pre : Draft) (id? : Option Ident) (instr : Instr) (p : Position) :
    (pre.join d).placeInstr id? instr p = pre.join <$> d.placeInstr id? instr p := by
  rw [placeInstr.eq_def, placeInstr.eq_def]
  simp only [appendStatement_join h]
  split
  · split <;> rfl
  · rw [map_bind]
    refine bind_congr fun r => ?_
    rw [map_pure]
    rfl

theorem pushInstr_join (pre : Draft) (id? : Option Ident) (instr : Instr) (p : Position) :
    (pre.join d).pushInstr id? instr p = pre.join <$> d.pushInstr id? instr p := by
  rw [pushInstr_eq, pushInstr_eq, needsBlock_join h]
  split
  · rw [startBlock_join]
    cases hstart : d.startBlock none p with
    | error e => rfl
    | ok d₁ =>
      obtain ⟨id, next, _, rfl⟩ := startBlock_cases hstart
      exact placeInstr_join Array.push_ne_empty pre id? instr p
  · exact placeInstr_join h pre id? instr p

end

end Draft

namespace Function

open Reader Draft

variable {ctx : Context} {pre d d' d₁ : Draft} {c c' c₁ : Cursor} {T : Twins} {B : Border}
  {s : Token.Stream} {ss : List Token.Stream} {b : Draft.Block}

/-! ## Rounds behind other blocks -/

/-- A round behind other blocks. -/
def joined (pre : Draft) : Round Draft Draft → Round Draft Draft
  | .again d => .again (pre.join d)
  | .done d => .done (pre.join d)

theorem map_lift {α β : Type} (f : α → β) (e : Except Diagnostic α) :
    (liftM (f <$> e) : Reader β) = f <$> (liftM e : Reader α) :=
  liftM_map f e

theorem readStatement_join (h : d.blocks ≠ #[]) (pre : Draft) :
    readStatement ctx (pre.join d) = pre.join <$> readStatement ctx d := by
  simp only [readStatement, map_bind]
  refine bind_congr fun p => bind_congr fun result? => bind_congr fun instr => bind_congr fun _ => ?_
  rw [pushInstr_join h, map_lift]

/-- **What is read behind other blocks is read without them.** -/
theorem readBodyItem_join (h : d.blocks ≠ #[]) (pre : Draft) :
    readBodyItem ctx (pre.join d) = joined pre <$> readBodyItem ctx d := by
  simp only [readBodyItem, map_bind]
  refine bind_congr fun k => ?_
  split
  · simp only [map_bind, map_pure]
    rfl
  · rfl
  · simp only [map_bind, map_pure, startBlock_join, map_lift, bind_map_left]
    rfl
  · simp only [map_bind, map_pure]
    rfl
  · simp only [readStatement_join h, map_bind, map_pure, bind_map_left]
    rfl

theorem readBodyItem_of_label {text : String} (hc : c.current.kind = .label text) (d : Draft) :
    readBodyItem ctx d c = d.startBlock (some (.ofLabel text)) c.current.start >>= fun d =>
      .ok (.again d, c.advance) := by
  have hkind : kind c = .ok (.label text, c) := by rw [kind, hc]
  rw [readBodyItem, bind_of_ok hkind]
  change (liftM (d.startBlock (some (.ofLabel text)) c.current.start) >>= fun d' =>
    Pure.pure (Round.again d') : Reader _) c.advance = _
  cases hstart : d.startBlock (some (.ofLabel text)) c.current.start <;> rfl

theorem blocks_of_startBlock {id? : Option Ident} {p : Position} (h : d.startBlock id? p = .ok d₁) :
    d₁.blocks ≠ #[] := by
  obtain ⟨_, _, _, rfl⟩ := startBlock_cases h
  exact Array.push_ne_empty

/-- Blocks are not taken back. -/
theorem blocks_of_adds {part : BodyPart} (h : Adds d part d') (hd : d.blocks ≠ #[]) :
    d'.blocks ≠ #[] := by
  cases h with
  | label _ h => exact blocks_of_startBlock h
  | remark _ _ => exact hd
  | statement _ h =>
    obtain ⟨d₁, hblock, h⟩ := pushInstr_cases h
    have hd₁ : d₁.blocks ≠ #[] := by
      rcases hblock with ⟨_, h⟩ | ⟨_, rfl⟩
      · exact blocks_of_startBlock h
      · exact hd
    rcases placeInstr_cases h with ⟨_, _, rfl⟩ | ⟨_, _, _, _, rfl⟩
    · exact blocks_appendStatement hd₁ _
    · exact blocks_appendStatement hd₁ _

/-- Rounds behind other blocks. -/
theorem rounds_join (h : Rounds (readBodyItem ctx) d c d₁ c₁) (hd : d.blocks ≠ #[])
    (hc : c.stop.kind = .eof) (pre : Draft) :
    Rounds (readBodyItem ctx) (pre.join d) c (pre.join d₁) c₁ := by
  induction h with
  | refl d c => exact .refl _ c
  | @again d d₁ d₂ c c₁ c₂ h _ ih =>
    obtain ⟨ts, hts, part, _, hadds, _⟩ := passesFrom_readBodyItem ctx d c hc _ _ h
    refine .again ?_ (ih (blocks_of_adds hadds hd) (hts.stop ▸ hc))
    rw [readBodyItem_join hd]
    change (readBodyItem ctx d c).map _ = _
    rw [h]
    rfl

/-! ## Blocks by themselves -/

/-- The text is read as the block `b`, starting with no blocks. -/
def ReadsBlock (ctx : Context) (s : Token.Stream) (b : Draft.Block) : Prop :=
  ∃ c, Rounds (readBodyItem ctx) blank s.start { blank with blocks := #[b] } c ∧ c.rest = []

/-- The text is refused, starting with no blocks, and not because something is missing. -/
def RefusesBlock (ctx : Context) (s : Token.Stream) : Prop :=
  ∃ d c e, Rounds (readBodyItem ctx) blank s.start d c ∧ readBodyItem ctx d c = .error e
    ∧ e.fault.wantsMore = false

/-- The text is a block: a label with statements behind it, everything in it being named. It is read as
such to its end, unless it is refused. -/
structure IsBlock (s : Token.Stream) : Prop where
  label : ∃ text, s.start.current.kind = .label text
  read : ∀ ctx, (∃ b, ReadsBlock ctx s b) ∨ RefusesBlock ctx s

theorem productive_readBodyItem (ctx : Context) : Productive (readBodyItem ctx) := by
  intro d c
  refine (passesFrom_readBodyItem ctx d c).mono fun round ts hround d' hagain => ?_
  cases hagain
  obtain ⟨part, rfl, hadds, _⟩ := hround
  cases hadds with
  | label _ _ => exact List.cons_ne_nil _ _
  | remark _ _ => exact List.cons_ne_nil _ _
  | statement hs _ =>
    exact List.append_ne_nil_of_left_ne_nil (List.append_ne_nil_of_right_ne_nil _ hs.instr.ne_nil) _

theorem extends_readBodyItem (hB : ∀ id, (B.behind.headD B.stop').kind ≠ .localRef id) (d : Draft) :
    Local B (readBodyItem ctx d) :=
  fun c c' hc => (dooms_readBodyItem ctx d c c' hc).outcome hB

theorem sameDraft_blank (T : Twins) : SameDraft T blank blank := ⟨rfl, rfl, rfl, .nil, .nil, rfl⟩

theorem startBlock_of_label {text : String} (hlabel : c.current.kind = .label text)
    (h : readBodyItem ctx d c = .ok (.again d₁, c₁)) :
    d.startBlock (some (.ofLabel text)) c.current.start = .ok d₁ ∧ c₁ = c.advance := by
  rw [readBodyItem_of_label hlabel] at h
  cases hstart : d.startBlock (some (.ofLabel text)) c.current.start with
  | error e => rw [hstart] at h; cases h
  | ok d' =>
    rw [hstart] at h
    cases h
    exact ⟨rfl, rfl⟩

theorem blocks_of_rounds (h : Rounds (readBodyItem ctx) d c d₁ c₁) (hd : d.blocks ≠ #[])
    (hc : c.stop.kind = .eof) : d₁.blocks ≠ #[] := by
  induction h with
  | refl => exact hd
  | again h _ ih =>
    obtain ⟨ts, hts, part, _, hadds, _⟩ := passesFrom_readBodyItem ctx _ _ hc _ _ h
    exact ih (blocks_of_adds hadds hd) (hts.stop ▸ hc)

/-- Behind other blocks the same rounds are made over a text that begins with a label, and what fails
behind them, fails there as well. -/
theorem join_of_label {text : String} (h : Rounds (readBodyItem ctx) d c d₁ c₁)
    (hlabel : c.current.kind = .label text) (hc : c.stop.kind = .eof) (pre : Draft) :
    Rounds (readBodyItem ctx) (pre.join d) c (pre.join d₁) c₁
      ∧ readBodyItem ctx (pre.join d₁) c₁ = (joined pre <$> readBodyItem ctx d₁) c₁ := by
  cases h with
  | refl =>
    refine ⟨.refl _ c, ?_⟩
    change _ = (readBodyItem ctx d c).map _
    rw [readBodyItem_of_label hlabel, readBodyItem_of_label hlabel, startBlock_join]
    cases d.startBlock (some (.ofLabel text)) c.current.start <;> rfl
  | @again _ d₂ _ _ c₂ _ h hrest =>
    obtain ⟨hstart, rfl⟩ := startBlock_of_label hlabel h
    have hblocks := blocks_of_startBlock hstart
    have hreaches := Cursor.reaches_advance hc (hlabel ▸ TokenKind.noConfusion)
    have hc₂ : c.advance.stop.kind = .eof := hreaches.stop ▸ hc
    refine ⟨.again ?_ (rounds_join hrest hblocks hc₂ pre), ?_⟩
    · rw [readBodyItem_of_label hlabel, startBlock_join, hstart]
      rfl
    · rw [readBodyItem_join (blocks_of_rounds hrest hblocks hc₂)]

/-! ## Blocks in their places -/

/-- The rounds over a part of a body by itself are the rounds in its place, if no struct is defined
behind it. -/
theorem rounds_placed (hplace : IsPlace T B s ss c)
    (hB : ∀ id, (B.behind.headD B.stop').kind ≠ .localRef id)
    (h : Rounds (readBodyItem ctx) d s.start d₁ c₁) (hd : SameDraft T d d') :
    ∃ d₁' c₁', Rounds (readBodyItem ctx) d' c d₁' c₁' ∧ SameDraft T d₁ d₁' ∧ Placed T B c₁ c₁' :=
  h.placed (productive_readBodyItem ctx) (fun d => (extends_readBodyItem hB d).inside)
    (fun _ _ h => agrees_readBodyItem ctx h) hd hplace.placed

/-- A block in its place is read as it is by itself. -/
theorem ReadsBlock.placed {text : String} (h : ReadsBlock ctx s b)
    (hlabel : s.start.current.kind = .label text) (hplace : IsPlace T B s ss c)
    (hB : ∀ id, (B.behind.headD B.stop').kind ≠ .localRef id) (hs : s.stop.kind = .eof)
    (hc : c.stop.kind = .eof) (hpre : pre.nextSlot = 0) :
    ∃ b' c', b'.interface = b.interface ∧ c'.AtRows B.line ss
      ∧ Rounds (readBodyItem ctx) pre c { pre with blocks := pre.blocks.push b' } c' := by
  obtain ⟨c₁, hrounds, hend⟩ := h
  have hin : s.start.rest ≠ [] :=
    Cursor.rest_ne_nil_of_kind hs (hlabel ▸ TokenKind.noConfusion)
  obtain ⟨d', c', hrounds', hsame, hc'⟩ := rounds_placed hplace hB hrounds (sameDraft_blank T)
  have hkind := (hplace.placed.current_kind hin).trans hlabel
  obtain ⟨hjoin, _⟩ := join_of_label hrounds' hkind hc pre
  obtain ⟨b', hb', hblocks⟩ : ∃ b', SameBlock T b b' ∧ d'.blocks = #[b'] := by
    have hblocks := hsame.blocks
    rw [SameItems] at hblocks
    obtain ⟨b', _, hb', hnil, hlist⟩ := List.forall₂_cons_left_iff.mp hblocks
    rw [List.forall₂_nil_left_iff.mp hnil] at hlist
    exact ⟨b', hb', Array.toList_inj.mp hlist⟩
  refine ⟨b', c', hb'.interface_eq hplace.strict, hplace.atRows hc' hend, ?_⟩
  rw [join_blank hpre] at hjoin
  have hdraft : pre.join d' = { pre with blocks := pre.blocks.push b' } := by
    rw [join, hblocks, hsame.nextSlot, hpre]
    rfl
  exact hdraft ▸ hjoin

/-- A block that is refused by itself is refused in its place. -/
theorem RefusesBlock.placed {text : String} (h : RefusesBlock ctx s)
    (hlabel : s.start.current.kind = .label text) (hplace : IsPlace T B s ss c)
    (hB : ∀ id, (B.behind.headD B.stop').kind ≠ .localRef id) (hs : s.stop.kind = .eof)
    (hc : c.stop.kind = .eof) (hpre : pre.nextSlot = 0) :
    ∃ d c' e, Rounds (readBodyItem ctx) pre c d c' ∧ readBodyItem ctx d c' = .error e
      ∧ e.fault.wantsMore = false := by
  obtain ⟨d, c₁, e, hrounds, herror, hfault⟩ := h
  have hin : s.start.rest ≠ [] :=
    Cursor.rest_ne_nil_of_kind hs (hlabel ▸ TokenKind.noConfusion)
  obtain ⟨d', c', hrounds', hsame, mid, hfacing, hbeside⟩ :=
    rounds_placed hplace hB hrounds (sameDraft_blank T)
  have hkind := (hplace.placed.current_kind hin).trans hlabel
  obtain ⟨hjoin, hlast⟩ := join_of_label hrounds' hkind hc pre
  rw [join_blank hpre] at hjoin
  have hcarried := Carried.intro (agrees_readBodyItem ctx hsame _ _ hfacing)
    (extends_readBodyItem hB d' _ _ hbeside)
  have hcomplete : Complete (readBodyItem ctx d c₁) := by
    intro e' he'
    rw [herror, Except.error.injEq] at he'
    exact he' ▸ hfault
  obtain ⟨e', he', hfault'⟩ := hcarried.exists_error herror hcomplete
  refine ⟨pre.join d', c', e', hjoin, ?_, hfault'⟩
  rw [hlast]
  change (readBodyItem ctx d' c').map _ = _
  rw [he']
  rfl

/-! ## Bodies -/

/-- The text may stand in a body behind others: no struct is defined at the beginning of it. -/
structure GoesOn (s : Token.Stream) : Prop where
  startsPart : s.StartsPart
  noStruct : ∀ id, s.start.current.kind ≠ .localRef id

theorem IsBlock.goesOn (h : IsBlock s) (hs : s.stop.kind = .eof) : GoesOn s := by
  obtain ⟨text, htext⟩ := h.label
  have hno : ∀ id, s.start.current.kind ≠ .localRef id := fun id hid => by
    rw [htext] at hid
    cases hid
  refine ⟨⟨Cursor.rest_ne_nil_of_kind (c := s.start) hs ?_, ?_, fun id hid => absurd hid (hno id), hs⟩, hno⟩
  · exact htext ▸ TokenKind.noConfusion
  · rw [htext]
    rfl

/-- The first text of a body has a place, behind which no struct is defined. -/
theorem exists_isPlace_of_goesOn {line : Nat} (hc : c.AtRows line (s :: ss)) (hs : s.stop.kind = .eof)
    (hss : ∀ s ∈ ss, GoesOn s) (hne : ss ≠ []) :
    ∃ T B, IsPlace T B s ss c ∧ ∀ id, (B.behind.headD B.stop').kind ≠ .localRef id := by
  obtain ⟨T, B, hplace⟩ := exists_isPlace hc hs fun s hs => (hss s hs).startsPart
  refine ⟨T, B, hplace, fun id => ?_⟩
  obtain ⟨next, rest, rfl⟩ := List.exists_cons_of_ne_nil hne
  obtain ⟨hstarts, hno⟩ := hss next List.mem_cons_self
  rw [hplace.behind.headD_kind hstarts.nonempty]
  exact hno id

variable {closing : Token.Stream} {line : Nat} {bs : List Draft.Block}

theorem forall_goesOn (hss : ∀ s ∈ ss, IsBlock s ∧ s.stop.kind = .eof) (hclosing : GoesOn closing) :
    ∀ s ∈ ss ++ [closing], GoesOn s := by
  rw [List.forall_mem_append, List.forall_mem_singleton]
  exact ⟨fun s hs => (hss s hs).1.goesOn (hss s hs).2, hclosing⟩

/-- **A body is its blocks**, one behind the other. -/
theorem exists_rounds_of_blocks (hc : c.AtRows line (ss ++ [closing]))
    (hss : ∀ s ∈ ss, IsBlock s ∧ s.stop.kind = .eof) (hclosing : GoesOn closing)
    (hbs : List.Forall₂ (ReadsBlock ctx) ss bs) (hpre : pre.nextSlot = 0) :
    ∃ d line' c', Rounds (readBodyItem ctx) pre c d c' ∧ c'.AtRows line' [closing]
      ∧ d.interfaces = pre.interfaces ++ bs.map Block.interface
      ∧ d = { pre with blocks := d.blocks } := by
  induction hbs generalizing line c pre with
  | nil => exact ⟨pre, line, c, .refl pre c, hc, (List.append_nil _).symm, rfl⟩
  | @cons s b ss bs hb _ ih =>
    rw [List.forall_mem_cons] at hss
    obtain ⟨⟨hblock, hs⟩, hss⟩ := hss
    obtain ⟨T, B, hplace, hB⟩ := exists_isPlace_of_goesOn hc hs (forall_goesOn hss hclosing)
      (List.append_ne_nil_of_right_ne_nil _ (List.cons_ne_nil _ _))
    obtain ⟨text, htext⟩ := hblock.label
    obtain ⟨b', c₁, hb', hc₁, hrounds⟩ := hb.placed htext hplace hB hs hc.stop hpre
    -- A block takes no slot, so the next one is read on a draft like this one.
    have hpre₁ : ({ pre with blocks := pre.blocks.push b' } : Draft).nextSlot = 0 := hpre
    obtain ⟨d, line', c', hrounds', hc', hinterfaces, hd⟩ := ih hc₁ hss hpre₁
    refine ⟨d, line', c', hrounds.trans hrounds', hc', ?_, hd⟩
    rw [hinterfaces, interfaces, interfaces, Array.toList_push, List.map_append, List.map_cons,
      List.map_cons, List.append_assoc, hb']
    rfl

/-- If one of the blocks is refused, the body is refused there. -/
theorem exists_error_of_blocks (hc : c.AtRows line (ss ++ [closing]))
    (hss : ∀ s ∈ ss, IsBlock s ∧ s.stop.kind = .eof) (hclosing : GoesOn closing)
    (h : ∃ s ∈ ss, ∀ b, ¬ ReadsBlock ctx s b) (hpre : pre.nextSlot = 0) :
    ∃ d c' e, Rounds (readBodyItem ctx) pre c d c' ∧ readBodyItem ctx d c' = .error e
      ∧ e.fault.wantsMore = false := by
  -- The blocks in front of the refused one are placed first, so this is by induction for every draft that
  -- they can have left.
  induction ss generalizing line c pre with
  | nil =>
    obtain ⟨_, hs, _⟩ := h
    cases hs
  | cons s ss ih =>
    rw [List.forall_mem_cons] at hss
    obtain ⟨⟨hblock, hs⟩, hss⟩ := hss
    obtain ⟨T, B, hplace, hB⟩ := exists_isPlace_of_goesOn hc hs (forall_goesOn hss hclosing)
      (List.append_ne_nil_of_right_ne_nil _ (List.cons_ne_nil _ _))
    obtain ⟨text, htext⟩ := hblock.label
    rcases hblock.read ctx with ⟨b, hb⟩ | hrefused
    · obtain ⟨b', c₁, _, hc₁, hrounds⟩ := hb.placed htext hplace hB hs hc.stop hpre
      have hrest : ∃ s ∈ ss, ∀ b, ¬ ReadsBlock ctx s b := by
        obtain ⟨s', hs', hno⟩ := h
        rcases List.mem_cons.mp hs' with rfl | hs'
        · exact absurd hb (hno b)
        · exact ⟨s', hs', hno⟩
      have hpre₁ : ({ pre with blocks := pre.blocks.push b' } : Draft).nextSlot = 0 := hpre
      obtain ⟨d, c', e, hrounds', herror⟩ := ih hc₁ hss hrest hpre₁
      exact ⟨d, c', e, hrounds.trans hrounds', herror⟩
    · exact hrefused.placed htext hplace hB hs hc.stop hpre

end Function

end IrRecords
