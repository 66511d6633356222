import IrRecords.Proofs.Module.Splices

/-!
# What is read and forgotten

Flags behind the word of an opcode are forgotten: any run of them may be put in, and the same module is read
(`ofStream_flags`). An attachment at the end of the last line of an instruction is passed over with the rest of
that line (`ofStream_attachment`). This is so where the line ends for all readers at the same place (`ClosedBy`):
the rest of a line is told by the line on which the last token begins, so that a token must not go on below the
line, and the sweep for structs must not come by with a definition that does. `forgets_of_read` says both of every
instruction of a module.
-/

namespace IrRecords.Module

open Reader Draft
open Token (Stream Splice)

variable {source : String} {s s' : Stream} {ts is us us' us₁ pre row : List Token}
  {c c' c₁ c₂ later : Cursor} {t : Token} {m : Module} {i : Draft.Instr} {L : Nat}
  {types types' : TypeTable} {front back : List Char}

/-! ## Two texts -/

/-- A source text is read if its tokens are. -/
theorem result_read (h : Token.scan source = .ok s) : (read source).result = (ofStream s).result := by
  rw [read, h]
  rfl

/-- **The same module is read** if the instruction that something was put into is read as before, and the
same structs are found. -/
theorem result_ofStream_splice (h : Splice s s' ts is us us') (hne : us ≠ [])
    (hinert : ∀ t, is.head? = some t → t.kind.isInert = true) (hinstr : InstrAt m.context s c₁ i c₂)
    (hle : us.length + 1 ≤ c₁.remaining)
    (hcross : ∀ {ahead c c' result? d}, (h.seam hne hinert).Beside ahead c c' →
      Function.readResult? c = .ok (result?, c₁) → Function.Crosses h.twins m.context d c c')
    (hstructs : ∀ types later, readStructs s.start = .ok (types, later) →
      ∃ later', readStructs s'.start = .ok (types, later'))
    (his : ∀ t ∈ is, t.kind ≠ .word "ptr") (hread : (ofStream s).result = .ok m) :
    (ofStream s').result = .ok m := by
  obtain ⟨⟨later, htypes⟩, hpointers, q, hq, hfunctions⟩ := result_ofStream_eq_ok_iff.mp hread
  obtain ⟨q', hq', hsame⟩ := exists_readItems_splice hinstr hle hcross hq
  exact result_ofStream_eq_ok_iff.mpr ⟨hstructs _ _ htypes,
    hpointers.trans (usesOpaquePointers_splice h his).symm, q', hq', hfunctions.trans (by rw [hsame])⟩

/-- Something stands below each instruction. -/
theorem InstrAt.below_ne_nil (hinstr : InstrAt m.context s c₁ i c₂) (heof : s.stop.kind = .eof)
    (hread : (ofStream s).result = .ok m) : c₂.skipRestOfLine.rest ≠ [] := by
  obtain ⟨_, _, q, hq, _⟩ := result_ofStream_eq_ok_iff.mp hread
  exact hinstr.rest_ne_nil heof hq

theorem InstrAt.readInstr_eq (hinstr : InstrAt m.context s c₁ i c₂) :
    readInstr m.context c₁ = .ok (i, c₂) := by
  obtain ⟨_, _, h⟩ := hinstr
  exact h

/-! ## The sweep for structs -/

/-- The sweep comes to the end of the text. -/
theorem exists_rounds_of_readStructs (hstop : c.stop.kind = .eof) (hrest : ∀ t ∈ c.rest, t.kind ≠ .eof)
    (hread : iterate readStruct types c = .ok (types', later)) :
    ∃ types₁ c₁, Rounds readStruct types c types₁ c₁ ∧ c₁.rest = [] := by
  obtain ⟨types₁, c₁, hrounds, hdone⟩ := exists_rounds_of_iterate productive_readStruct hstop hread
  refine ⟨types₁, c₁, hrounds, ?_⟩
  obtain ⟨ts, hts⟩ := hrounds.exists_reaches productive_readStruct hstop
  have hend := (current_of_done hdone).1
  cases hc₁ : c₁.rest with
  | nil => rfl
  | cons t us =>
    rw [Cursor.current, hc₁] at hend
    exact absurd hend (hrest t (by rw [hts.rest, hc₁]; simp))

/-! ## Opcodes -/

/-- The word of an opcode, the tokens behind it, and those of them that the instruction takes. -/
structure OpcodeAt (s : Stream) (c₁ : Cursor) (i : Draft.Instr) (c₂ : Cursor) (pre : List Token) (t : Token)
    (us row : List Token) : Prop where
  tokens : s.tokens = (pre ++ [t]) ++ us
  rest : (atOpcode c₁).rest = t :: us
  kind : t.kind = .word i.opcode.mnemonic
  behind : behindOpcode c₁ = ⟨some t.line, us, s.stop⟩
  reaches : (behindOpcode c₁).Reaches row c₂

theorem InstrAt.exists_opcodeAt (hinstr : InstrAt m.context s c₁ i c₂) (heof : s.stop.kind = .eof) :
    ∃ pre t us row, OpcodeAt s c₁ i c₂ pre t us row := by
  obtain ⟨⟨front, hfront⟩, hstop, _⟩ := hinstr.exists_reaches heof
  have hread := hinstr.readInstr_eq
  have hkind := opcode_of_readInstr hread
  have hmarkers := c₁.reaches_advanceWhile (isWordOf callMarkers)
  have hstop' : (atOpcode c₁).stop = s.stop := hmarkers.stop.trans hstop
  cases hrest : (atOpcode c₁).rest with
  | nil =>
    rw [Cursor.current, hrest, List.headD_nil, hstop', heof] at hkind
    cases hkind
  | cons t us =>
    rw [Cursor.current, hrest, List.headD_cons] at hkind
    have hbehind : behindOpcode c₁ = ⟨some t.line, us, s.stop⟩ :=
      (Cursor.advance_of_rest hrest).trans (by rw [hstop'])
    rw [readInstr_of_opcode (opcode_of_readInstr hread)] at hread
    have hpasses := (writes_readOperation m.context (atOpcode c₁).current.start i.opcode (behindOpcode c₁)
      ⟨[], []⟩).passes
    obtain ⟨row, hrow, _⟩ := hpasses (by rw [hbehind]; exact heof) _ _ hread
    refine ⟨front ++ c₁.rest.takeWhile (isWordOf callMarkers), t, us, row, ?_, hrest, hkind, hbehind, hrow⟩
    -- `atOpcode` passes the markers, so they are in front of the opcode, too.
    have hall := hmarkers.rest
    rw [← atOpcode, hrest] at hall
    rw [← hfront, List.append_assoc, List.append_assoc, List.singleton_append, ← hall]

namespace OpcodeAt

theorem us_eq (h : OpcodeAt s c₁ i c₂ pre t us row) : us = row ++ c₂.rest := by
  have hrest := h.reaches.rest
  rwa [h.behind] at hrest

theorem us_ne_nil (h : OpcodeAt s c₁ i c₂ pre t us row) (hbelow : c₂.skipRestOfLine.rest ≠ []) : us ≠ [] := by
  rintro rfl
  obtain ⟨ts, hts, _⟩ := c₂.reaches_skipRestOfLine
  have hnil := (List.append_eq_nil_iff.mp h.us_eq.symm).2
  rw [hts.rest] at hnil
  exact hbelow (List.append_eq_nil_iff.mp hnil).2

theorem le_remaining (h : OpcodeAt s c₁ i c₂ pre t us row) : us.length + 1 ≤ c₁.remaining := by
  have hmarkers := c₁.reaches_advanceWhile (isWordOf callMarkers)
  have hall := congrArg List.length hmarkers.rest
  rw [← atOpcode, h.rest, List.length_append, List.length_cons] at hall
  rw [Cursor.remaining]
  omega

theorem isOpcode (h : OpcodeAt s c₁ i c₂ pre t us row) : t.kind.isOpcode = true := by
  rw [h.kind, TokenKind.isOpcode, Opcode.ofMnemonic?_mnemonic]
  rfl

/-- The word begins no definition of a struct. -/
theorem readStruct_eq (h : OpcodeAt s c₁ i c₂ pre t us row) (types : TypeTable) (last? : Option Nat)
    (ts : List Token) (stop : Token) :
    readStruct types ⟨last?, t :: ts, stop⟩ = .ok (.again types, ⟨some t.line, ts, stop⟩) := by
  refine readStruct_of_ne (.inr fun id hid => ?_) ?_ types
  · cases h.kind.symm.trans hid
  · rw [h.kind]
    exact TokenKind.noConfusion

/-- The sweep stops in front of the word. -/
theorem exists_rounds (h : OpcodeAt s c₁ i c₂ pre t us row) (heof : s.stop.kind = .eof)
    (hlexed : ∀ t ∈ s.tokens, t.kind ≠ .eof) (hread : readStructs s.start = .ok (types, later)) :
    ∃ types₁ c, Rounds readStruct .empty s.start types₁ c ∧ c.rest = t :: us ∧ c.stop = s.stop := by
  obtain ⟨types₂, c₃, hrounds, hend⟩ := exists_rounds_of_readStructs heof hlexed hread
  have htokens : s.start.rest = pre ++ t :: us := by
    rw [List.append_cons]
    exact h.tokens
  obtain ⟨types₁, c, hrounds, hrest⟩ := exists_rounds_of_isOpcode hrounds heof htokens h.isOpcode
    (by rw [Cursor.remaining, hend]; exact Nat.zero_le _)
  obtain ⟨_, hreaches⟩ := hrounds.exists_reaches productive_readStruct heof
  exact ⟨types₁, c, hrounds, hrest, hreaches.stop⟩

end OpcodeAt

/-! ## Flags -/

/-- **Flags are forgotten.** -/
theorem ofStream_flags {ws : List String} (hcut : OpcodeAt s c₁ i c₂ pre t us row)
    (h : Splice s s' (pre ++ [t]) is us us') (hinstr : InstrAt m.context s c₁ i c₂)
    (hws : ∀ w ∈ ws, w ∈ flags i.opcode) (hkinds : is.map Token.kind = ws.map .word)
    (hlines : ∀ u ∈ is, u.line = t.line) (hlexed : ∀ t ∈ s.tokens, t.kind ≠ .eof)
    (hread : (ofStream s).result = .ok m) : (ofStream s').result = .ok m := by
  have hword : ∀ u ∈ is, ∃ w ∈ flags i.opcode, u.kind = .word w := by
    intro u hu
    have hmem := List.mem_map_of_mem (f := Token.kind) hu
    rw [hkinds] at hmem
    obtain ⟨w, hw, hkind⟩ := List.mem_map.mp hmem
    exact ⟨w, hws w hw, hkind.symm⟩
  have hne := hcut.us_ne_nil (hinstr.below_ne_nil h.eof hread)
  have hinert : ∀ u, is.head? = some u → u.kind.isInert = true := by
    intro u hu
    obtain ⟨w, hw, hkind⟩ := hword u (List.mem_of_head? hu)
    rw [hkind]
    exact (isFlag_of_mem_flags hw).2
  refine result_ofStream_splice h hne hinert hinstr hcut.le_remaining ?_ ?_ ?_ hread
  · intro ahead c c' result? d hc hresult
    refine Function.crosses_of_flags hc hresult hinstr.readInstr_eq hcut.rest (fun u hu => ⟨?_, hlines u hu⟩) d
    obtain ⟨w, hw, hkind⟩ := hword u hu
    rw [isWordOf, hkind]
    exact List.contains_iff_mem.mpr hw
  · intro types later hstructs
    obtain ⟨types₁, c, hrounds, hrest, hstop⟩ := hcut.exists_rounds h.eof hlexed hstructs
    have hbehind : (h.seam hne hinert).behind.length + 1 ≤ c.remaining := by
      rw [Cursor.remaining, hrest]
      exact Nat.le_refl _
    obtain ⟨ahead, c', hrounds', hc⟩ := hrounds.tracks (fun types => (feeds_readStruct types).toTracks)
      (h.beside_start hne hinert) hbehind
    -- One round more, and the sweep is behind the word.
    obtain rfl : ahead = [t] := List.append_cancel_right (hc.rest.symm.trans hrest)
    have hround : ∀ {c : Cursor} {us : List Token}, c.rest = t :: us →
        readStruct types₁ c = .ok (.again types₁, c.advance) := by
      intro c us hrest
      obtain ⟨last?, _, stop⟩ := c
      cases hrest
      exact hcut.readStruct_eq types₁ last? us stop
    refine exists_readStructs_splice hc.advance (hrounds.trans (.again (hround hc.rest) (.refl _ _)))
      (hrounds'.trans (.again (hround hc.rest') (.refl _ _)))
      (fun u hu => ⟨.inr fun id hid => ?_, ?_, ?_⟩) hstructs
    · obtain ⟨w, _, hkind⟩ := hword u hu
      cases hid.symm.trans hkind
    · obtain ⟨w, _, hkind⟩ := hword u hu
      rw [hkind]
      exact TokenKind.noConfusion
    · rw [Cursor.advance_of_rest hrest, hlines u hu]
  · intro u hu
    obtain ⟨w, hw, hkind⟩ := hword u hu
    rw [hkind]
    rintro hptr
    have hinert := (isFlag_of_mem_flags hw).2
    rw [hptr] at hinert
    cases hinert

/-! ## Attachments -/

namespace OpcodeAt

/-- The last token that the instruction takes. -/
theorem exists_last (h : OpcodeAt s c₁ i c₂ pre t us row) :
    ∃ front u, t :: row = front ++ [u] ∧ c₂.lastLine? = some u.line := by
  have hlast := h.reaches.lastLine?
  rw [h.behind] at hlast
  rcases List.eq_nil_or_concat row with rfl | ⟨row, u, rfl⟩
  · exact ⟨[], t, rfl, hlast⟩
  · rw [List.concat_eq_append] at hlast ⊢
    refine ⟨t :: row, u, rfl, hlast.trans ?_⟩
    rw [List.getLast?_concat]
    rfl

/-- What is left of the line on which the instruction ends. -/
theorem exists_rest_of_line {p : Position} {cs : List Char} (h : OpcodeAt s c₁ i c₂ pre t us₁ row)
    (htiles : Token.Tiles p cs s) (hsplit : s.tokens = ts ++ us) (habove : ∀ t ∈ ts, t.line ≤ L)
    (hbelow : ∀ t ∈ us, L < t.line) (hlast : c₂.lastLine? = some L) :
    ∃ rs, ts = pre ++ t :: (row ++ rs) ∧ c₂.rest = rs ++ us ∧ ∀ u ∈ rs, u.line = L := by
  obtain ⟨front, u, hrow, hu⟩ := h.exists_last
  have htokens : s.tokens = (pre ++ front) ++ u :: c₂.rest := by
    rw [List.append_assoc, List.append_cons, ← hrow, h.tokens, h.us_eq]
    simp
  have hline : u.line = L := Option.some.inj (hu.symm.trans hlast)
  obtain ⟨rs, hts, hrest, hrs⟩ := htiles.exists_rest_of_line hsplit habove hbelow htokens hline
  refine ⟨rs, ?_, hrest, hrs⟩
  rw [hts, List.append_assoc, List.append_cons, ← hrow]
  simp

/-- If the opcode is on the last line, the sweep stops at the end of this line. -/
theorem exists_rounds_of_line {p : Position} {cs : List Char} {rs : List Token}
    (h : OpcodeAt s c₁ i c₂ pre t us₁ row) (htiles : Token.Tiles p cs s) (hp : 0 < p.column)
    (hrest : c₂.rest = rs ++ us) (hlines : ∀ u ∈ row ++ rs, u.line = t.line)
    (hread : readStructs s.start = .ok (types, later)) :
    ∃ types₁, Rounds readStruct .empty s.start types₁ ⟨some t.line, us, s.stop⟩ := by
  have hne : ∀ u ∈ s.tokens, u.kind ≠ .eof := fun u hu => (htiles.lexed u hu).kind_ne_eof
  obtain ⟨types₁, c, hrounds, hc, hstop⟩ := h.exists_rounds htiles.stop hne hread
  have hbehind : us₁ = (row ++ rs) ++ us := by rw [h.us_eq, hrest, List.append_assoc]
  have htokens : s.tokens = pre ++ t :: us₁ := by rw [h.tokens, List.append_assoc]; rfl
  have hpass : Rounds readStruct types₁ ⟨c.lastLine?, t :: us₁, s.stop⟩ types₁ ⟨some t.line, us, s.stop⟩ := by
    refine .again (h.readStruct_eq types₁ _ _ _) ?_
    rw [hbehind]
    refine rounds_pass (fun u hu => ⟨.inl ?_, hne u ?_, congrArg some (hlines u hu).symm⟩) types₁
    · obtain ⟨mid, post, hrow⟩ := List.append_of_mem hu
      have hall : s.tokens = pre ++ t :: (mid ++ u :: (post ++ us)) := by
        rw [htokens, hbehind, hrow, List.append_assoc, List.cons_append]
      exact htiles.column_ne_one hp hall (hlines u hu)
    · rw [htokens, hbehind]
      simp only [List.mem_append, List.mem_cons]
      exact .inr (.inr (.inl (List.mem_append.mp hu)))
  obtain ⟨last?, _, _⟩ := c
  cases hc
  cases hstop
  exact ⟨types₁, hrounds.trans hpass⟩

/-- If something stands below the instruction, its last line ends somewhere. -/
theorem exists_line_end {p : Position} {cs : List Char} (h : OpcodeAt s c₁ i c₂ pre t us row)
    (htiles : Token.Tiles p cs s) (hbelow : c₂.skipRestOfLine.rest ≠ []) : ∃ L front back,
    c₂.lastLine? = some L ∧ cs = front ++ '\n' :: back ∧ (p.after front).line = L := by
  obtain ⟨first, u, hrow, hlast⟩ := h.exists_last
  rw [Cursor.skipRestOfLine, hlast] at hbelow
  dsimp only at hbelow
  rw [Cursor.advanceWhile, Cursor.advanceWhileIn_eq] at hbelow
  obtain ⟨v, post, hv⟩ := List.exists_cons_of_ne_nil hbelow
  dsimp only at hv
  have hsplit : c₂.rest.takeWhile (·.line == u.line) ++ v :: post = c₂.rest := by
    rw [← hv]
    exact List.takeWhile_append_dropWhile
  have htokens : s.tokens = (pre ++ first) ++ u :: (c₂.rest.takeWhile (·.line == u.line) ++ v :: post) := by
    rw [hsplit, List.append_assoc, List.append_cons, ← hrow, h.tokens, h.us_eq]
    simp
  have hne : u.line ≠ v.line := by
    have hhead := List.head?_dropWhile_not (·.line == u.line) c₂.rest
    rw [hv] at hhead
    have hno : ¬ v.line = u.line := by simpa using hhead
    exact Ne.symm hno
  obtain ⟨front, back, hcs, hL⟩ := htiles.exists_line_end htokens
    (Nat.lt_of_le_of_ne (htiles.line_le htokens) hne)
  exact ⟨u.line, front, back, hlast, hcs, hL⟩

end OpcodeAt

/-- The tokens of an attachment, or none, on the line `L`. -/
structure IsAttachment (L : Nat) (is : List Token) : Prop where
  kinds : is = [] ∨ ∃ name node, is.map Token.kind = [.comma, .metadata name, .metadata node]
  lines : ∀ t ∈ is, t.line = L

namespace IsAttachment

theorem kind_of_mem (h : IsAttachment L is) (ht : t ∈ is) :
    t.kind = .comma ∨ ∃ name, t.kind = .metadata name := by
  rcases h.kinds with rfl | ⟨name, node, hkinds⟩
  · cases ht
  · have hmem := List.mem_map_of_mem (f := Token.kind) ht
    rw [hkinds] at hmem
    simp only [List.mem_cons, List.not_mem_nil, or_false] at hmem
    rcases hmem with hk | hk | hk
    · exact .inl hk
    · exact .inr ⟨name, hk⟩
    · exact .inr ⟨node, hk⟩

theorem isInert (h : IsAttachment L is) : ∀ t, is.head? = some t → t.kind.isInert = true := by
  intro t ht
  obtain ⟨us, rfl⟩ := List.head?_eq_some_iff.mp ht
  rcases h.kinds with hnil | ⟨name, node, hkinds⟩
  · cases hnil
  · rw [(List.cons.inj hkinds).1]
    rfl

theorem attaches (his : IsAttachment L is) (h : Splice s s' ts is us us') (hne : us ≠ []) :
    (h.seam hne his.isInert).Attaches := by
  rcases his.kinds with rfl | ⟨name, node, hkinds⟩
  · exact .inr h.kindAt_eq
  · obtain ⟨a, _, rfl, ha, hkinds⟩ := List.map_eq_cons_iff.mp hkinds
    obtain ⟨b, _, rfl, hb, _⟩ := List.map_eq_cons_iff.mp hkinds
    have hmetadata : b.kind.isMetadata = true := by
      rw [hb]
      rfl
    exact .inl ⟨ha, hmetadata⟩

end IsAttachment

/-- **An attachment is passed over.** -/
theorem ofStream_attachment (hcut : OpcodeAt s c₁ i c₂ pre t us₁ row) (h : Splice s s' ts is us us')
    (hinstr : InstrAt m.context s c₁ i c₂) {rs : List Token} (hrest : c₂.rest = rs ++ us)
    (hrs : ∀ u ∈ rs, u.line = L) (hlast : c₂.lastLine? = some L) (his : IsAttachment L is)
    (hsweep : ∃ types, Rounds readStruct .empty s.start types ⟨some L, us, s.stop⟩)
    (hread : (ofStream s).result = .ok m) : (ofStream s').result = .ok m := by
  -- Below the line of the instruction there is at least the end of its function.
  have hne : us ≠ [] := by
    rintro rfl
    refine hinstr.below_ne_nil h.eof hread ?_
    rw [Cursor.skipRestOfLine, hlast]
    dsimp only
    rw [Cursor.advanceWhile, Cursor.advanceWhileIn_eq, hrest, List.append_nil]
    exact List.dropWhile_eq_nil_iff.mpr fun u hu => beq_iff_eq.mpr (hrs u hu)
  have hattaches := his.attaches h hne
  have hle : us.length + 1 ≤ c₁.remaining := by
    have hlength := congrArg List.length hcut.us_eq
    have hremaining := hcut.le_remaining
    rw [hrest, List.length_append, List.length_append] at hlength
    omega
  refine result_ofStream_splice h hne his.isInert hinstr hle ?_ ?_ ?_ hread
  · intro ahead c c' result? d hc hresult
    exact Function.crosses_of_attaches hattaches hc hresult hle hinstr.readInstr_eq hrest hlast hrs his.lines d
  · intro types later hstructs
    obtain ⟨types₁, hrounds⟩ := hsweep
    obtain ⟨ahead, c', hrounds', hc⟩ := hrounds.copies (fun types => (feeds_readStruct types).toCopies)
      hattaches (h.beside_start hne his.isInert) (Nat.le_refl _)
    obtain rfl : ahead = [] := List.append_left_eq_self.mp hc.rest.symm
    -- Through the attachment the sweep goes token by token: none of them can start a struct.
    refine exists_readStructs_splice hc hrounds hrounds' (fun u hu => ⟨.inr fun id hid => ?_, fun heof => ?_,
      congrArg some (his.lines u hu).symm⟩) hstructs
    · rcases his.kind_of_mem hu with hkind | ⟨name, hkind⟩ <;> cases hkind.symm.trans hid
    · rcases his.kind_of_mem hu with hkind | ⟨name, hkind⟩ <;> cases hkind.symm.trans heof
  · intro u hu hptr
    rcases his.kind_of_mem hu with hkind | ⟨name, hkind⟩ <;> cases hkind.symm.trans hptr

/-! ## Source texts -/

/-- The line `L`, on which the instruction at `c₁` ends, ends for all readers. -/
structure ClosedBy (s : Stream) (c₁ : Cursor) (L : Nat) : Prop where
  /-- No token that begins on the line, or above it, goes on below. -/
  tokens : ∀ t ∈ s.tokens, t.line ≤ L → (t.start.after t.text).line ≤ L
  /-- Nor does the definition of a struct. Behind an opcode on the same line there is none. -/
  structs : (atOpcode c₁).current.line = L ∨ ∃ types, Rounds readStruct .empty s.start types
    ⟨some L, s.tokens.dropWhile (·.line ≤ L), s.stop⟩

theorem dropWhile_line (habove : ∀ t ∈ ts, t.line ≤ L) (hbelow : ∀ t ∈ us, L < t.line) :
    (ts ++ us).dropWhile (·.line ≤ L) = us := by
  rw [List.dropWhile_append_of_pos fun t ht => decide_eq_true (habove t ht)]
  cases us with
  | nil => rfl
  | cons t us =>
    exact List.dropWhile_cons_of_neg (by simpa using hbelow t List.mem_cons_self)

theorem read_of_words {ws : List String} (hscan : Token.scan source = .ok s)
    (hread : (read source).result = .ok m) (hinstr : InstrAt m.context s c₁ i c₂)
    (hcut : OpcodeAt s c₁ i c₂ pre t us row)
    (hsource : source.toList = (pre ++ [t]).flatMap Token.piece ++ back)
    (hws : ∀ w ∈ ws, w ∈ flags i.opcode) :
    (read (String.ofList ((pre ++ [t]).flatMap Token.piece ++ (Token.wordsText ws ++ back)))).result
      = .ok m := by
  by_cases hnil : ws = []
  · subst hnil
    have htext : (pre ++ [t]).flatMap Token.piece ++ (Token.wordsText [] ++ back) = source.toList := by
      rw [hsource]
      rfl
    rw [htext, String.ofList_toList]
    exact hread
  · have hstream : Token.scanFrom Position.start ((pre ++ [t]).flatMap Token.piece ++ back) = .ok s :=
      hsource ▸ hscan
    obtain ⟨s', is, us', hs', hsplice, hkinds, hlines⟩ := Token.exists_splice_words
      (fun w hw => (isFlag_of_mem_flags (hws w hw)).1) hnil hstream hcut.tokens rfl hcut.kind
    have hscan' : Token.scan (String.ofList ((pre ++ [t]).flatMap Token.piece
        ++ (Token.wordsText ws ++ back))) = .ok s' := by
      rw [Token.scan, String.toList_ofList]
      exact hs'
    rw [result_read hscan']
    have hlexed := (Token.scanFrom_spec hstream).lexed
    exact ofStream_flags hcut hsplice hinstr hws hkinds hlines (fun u hu => (hlexed u hu).kind_ne_eof)
      (result_read hscan ▸ hread)

theorem read_of_attachment {name node : List Char} (hscan : Token.scan source = .ok s)
    (hread : (read source).result = .ok m) (hinstr : InstrAt m.context s c₁ i c₂)
    (hlast : c₂.lastLine? = some L) (hsource : source.toList = front ++ '\n' :: back)
    (hL : (Position.start.after front).line = L) (hclosed : ClosedBy s c₁ L)
    (hname : Token.IsMetadataName name) (hnode : Token.IsMetadataName node) :
    (read (String.ofList (front ++ (Token.attachmentText name node ++ '\n' :: back)))).result = .ok m := by
  have hstream : Token.scanFrom Position.start (front ++ '\n' :: back) = .ok s := hsource ▸ hscan
  have htiles := Token.scanFrom_spec hstream
  have hread' : (ofStream s).result = .ok m := result_read hscan ▸ hread
  obtain ⟨s', ts, is, us, us', hs', hsplice, habove, hbelow, hkinds, hlines⟩ :=
    Token.exists_splice_attachment hname hnode hstream hL hclosed.tokens
  obtain ⟨pre, t, us₁, row, hcut⟩ := hinstr.exists_opcodeAt htiles.stop
  obtain ⟨rs, hts, hrest, hrs⟩ := hcut.exists_rest_of_line htiles hsplice.tokens habove hbelow hlast
  -- The sweep for structs stands at the seam after some round: it passes the line of the opcode token
  -- by token, or `hclosed` says so.
  have hsweep : ∃ types, Rounds readStruct .empty s.start types ⟨some L, us, s.stop⟩ := by
    rcases hclosed.structs with hline | ⟨types, hrounds⟩
    · obtain ⟨⟨later, hstructs⟩, _⟩ := result_ofStream_eq_ok_iff.mp hread'
      rw [Cursor.current, hcut.rest, List.headD_cons] at hline
      rw [← hline]
      refine hcut.exists_rounds_of_line htiles Nat.one_pos hrest (fun u hu => ?_) hstructs
      obtain ⟨mid, post, hrow⟩ := List.append_of_mem hu
      have hall : s.tokens = pre ++ t :: (mid ++ u :: (post ++ us)) := by
        rw [hsplice.tokens, hts, hrow]
        simp
      refine Nat.le_antisymm (hline ▸ habove u ?_) (htiles.line_le hall)
      rw [hts]
      exact List.mem_append_right _ (List.mem_cons_of_mem _ hu)
    · refine ⟨types, ?_⟩
      rwa [hsplice.tokens, dropWhile_line habove hbelow] at hrounds
  have hscan' : Token.scan (String.ofList (front ++ (Token.attachmentText name node ++ '\n' :: back)))
      = .ok s' := by
    rw [Token.scan, String.toList_ofList]
    exact hs'
  rw [result_read hscan']
  exact ofStream_attachment hcut hsplice hinstr hrest hrs hlast
    ⟨hkinds.imp_right fun h => ⟨_, _, h⟩, hlines⟩ hsweep hread'

/-- What may be put in at the instruction `i` between `c₁` and `c₂`, and is forgotten. -/
structure Forgets (source : String) (s : Stream) (m : Module) (c₁ : Cursor) (i : Draft.Instr) (c₂ : Cursor) :
    Prop where
  /-- The word of the opcode ends somewhere in the text, and there any run of its flags may be put in. -/
  flags : ∃ pre t us back, s.tokens = (pre ++ [t]) ++ us ∧ (atOpcode c₁).rest = t :: us
    ∧ source.toList = (pre ++ [t]).flatMap Token.piece ++ back
    ∧ ∀ ws : List String, (∀ w ∈ ws, w ∈ flags i.opcode) → (read (String.ofList
      ((pre ++ [t]).flatMap Token.piece ++ (Token.wordsText ws ++ back)))).result = .ok m
  /-- The line of the last token ends somewhere, and there an attachment may be put in, if the line ends for all
  readers. -/
  attachment : ∃ L front back, c₂.lastLine? = some L ∧ source.toList = front ++ '\n' :: back
    ∧ (Position.start.after front).line = L
    ∧ (ClosedBy s c₁ L → ∀ name node, Token.IsMetadataName name → Token.IsMetadataName node →
      (read (String.ofList (front ++ (Token.attachmentText name node ++ '\n' :: back)))).result = .ok m)

theorem InstrAt.forgets (hscan : Token.scan source = .ok s) (hread : (read source).result = .ok m)
    (hinstr : InstrAt m.context s c₁ i c₂) : Forgets source s m c₁ i c₂ := by
  have htiles := Token.scanFrom_spec hscan
  have hread' : (ofStream s).result = .ok m := result_read hscan ▸ hread
  obtain ⟨pre, t, us, row, hcut⟩ := hinstr.exists_opcodeAt htiles.stop
  constructor
  · have hsource : source.toList
        = (pre ++ [t]).flatMap Token.piece ++ (us.flatMap Token.piece ++ s.stop.gap) := by
      rw [htiles.text, hcut.tokens, List.flatMap_append, List.append_assoc]
    exact ⟨pre, t, us, _, hcut.tokens, hcut.rest, hsource, fun ws hws =>
      read_of_words hscan hread hinstr hcut hsource hws⟩
  · have hbelow := hinstr.below_ne_nil htiles.stop hread'
    obtain ⟨L, front, back, hlast, hsource, hL⟩ := hcut.exists_line_end htiles hbelow
    exact ⟨L, front, back, hlast, hsource, hL, fun hclosed _ _ hname hnode =>
      read_of_attachment hscan hread hinstr hlast hsource hL hclosed hname hnode⟩

/-- **What may be put in and is forgotten.** Each instruction of a module is read somewhere in the text. Where an
instruction is read, flags behind its opcode are forgotten, and so is an attachment at the end of its last line,
if that line ends for all readers. -/
theorem forgets_of_read (hscan : Token.scan source = .ok s) (hread : (read source).result = .ok m) :
    (∀ f ∈ m.functions, ∀ i ∈ f.instrs, ∃ c₁ j c₂, InstrAt m.context s c₁ j c₂ ∧ i.opcode = j.opcode
      ∧ List.Forall₂ f.Refers j.operands i.operands)
    ∧ ∀ c₁ j c₂, InstrAt m.context s c₁ j c₂ → Forgets source s m c₁ j c₂ := by
  refine ⟨fun f hf i hi => ?_, fun c₁ j c₂ hinstr => hinstr.forgets hscan hread⟩
  exact exists_instrAt_of_mem (Token.scanFrom_spec hscan).stop (result_read hscan ▸ hread) hf hi

/-- The instruction behind the header of a definition at the start of a text, and where it is read. -/
def firstInstr? (ctx : Context) (s : Stream) : Option (Cursor × Draft.Instr × Cursor) := do
  let (header, b) ← (Function.readHeader s.start.advance).toOption
  let _ ← (Draft.ofHeader header).toOption
  let (_, c) ← (Function.openBody b).toOption
  let (_, c₁) ← (Function.readResult? c).toOption
  let (i, c₂) ← (readInstr ctx c₁).toOption
  if s.start.current.kind = .word "define" ∧ Function.startsStatement c.current.kind then some (c₁, i, c₂)
  else none

theorem instrAt_of_firstInstr? {ctx : Context} (h : firstInstr? ctx s = some (c₁, i, c₂)) :
    InstrAt ctx s c₁ i c₂ := by
  obtain ⟨⟨header, b⟩, hheader, h⟩ := exists_ok_of_bind h
  obtain ⟨d, hd, h⟩ := exists_ok_of_bind h
  obtain ⟨⟨_, c⟩, hopen, h⟩ := exists_ok_of_bind h
  obtain ⟨⟨result?, c₁'⟩, hresult, h⟩ := exists_ok_of_bind h
  obtain ⟨⟨i', c₂'⟩, hinstr, h⟩ := exists_ok_of_bind h
  dsimp only at h
  split at h
  · next hstart =>
    cases h
    exact .intro ⟨.refl _ _, hstart.1, hheader, .intro hopen hd (.refl _ _) hstart.2⟩ hresult hinstr
  · cases h

/-- An addition with a flag and an attachment. -/
def additionSource : String :=
  "define i32 @f(i32 %a) \x7b
  %b = add nsw i32 %a, 1, !range !1
  ret i32 %b
\x7d
"

/-- Behind the word of the addition more flags may be put in, and at the end of its line another attachment. -/
theorem forgets_of_read_addition : ∃ s m c₁ i c₂, Token.scan additionSource = .ok s
    ∧ (read additionSource).result = .ok m ∧ InstrAt m.context s c₁ i c₂ ∧ i.opcode = .binary .add
    ∧ (∃ front back, additionSource.toList = front ++ back
      ∧ (read (String.ofList (front ++ (Token.wordsText ["nuw", "fast", "nuw"] ++ back)))).result = .ok m)
    ∧ ∃ front back, additionSource.toList = front ++ '\n' :: back ∧ (Position.start.after front).line = 2
      ∧ (read (String.ofList (front ++ (Token.attachmentText "dbg".toList "0".toList ++ '\n' :: back)))).result
        = .ok m := by
  have hfacts : ((read additionSource).result.toOption >>= fun m =>
      (Token.scan additionSource).toOption >>= fun s =>
      (firstInstr? m.context s).map fun (c₁, i, c₂) => (i.opcode, c₂.lastLine?, (atOpcode c₁).current.line,
        s.tokens.all fun t => (t.start.after t.text).line == t.line))
      = some (.binary .add, some 2, 2, true) := by
    decide +kernel
  obtain ⟨m, hm, hfacts⟩ := exists_ok_of_bind hfacts
  obtain ⟨s, hs, hfacts⟩ := exists_ok_of_bind hfacts
  obtain ⟨⟨c₁, i, c₂⟩, hfirst, hfacts⟩ := Option.map_eq_some_iff.mp hfacts
  simp only [Prod.mk.injEq] at hfacts
  obtain ⟨hopcode, hlast, hline, hflat⟩ := hfacts
  have hinstr := instrAt_of_firstInstr? hfirst
  obtain ⟨⟨pre, t, us, back, _, _, hsource, hflags⟩, L, front, back', hL, hsource', hfront, hattach⟩ :=
    (forgets_of_read hs hm).2 c₁ i c₂ hinstr
  obtain rfl : 2 = L := Option.some.inj (hlast.symm.trans hL)
  have hclosed : ClosedBy s c₁ 2 := by
    refine ⟨fun t ht hle => ?_, .inl hline⟩
    rw [beq_iff_eq.mp (List.all_eq_true.mp hflat t ht)]
    exact hle
  refine ⟨s, m, c₁, i, c₂, hs, hm, hinstr, hopcode, ⟨_, back, hsource, hflags _ ?_⟩, front, back', hsource',
    hfront, hattach hclosed _ _ ⟨by decide, List.all_eq_true.mp (by decide)⟩
      ⟨by decide, List.all_eq_true.mp (by decide)⟩⟩
  rw [hopcode]
  decide

end IrRecords.Module
