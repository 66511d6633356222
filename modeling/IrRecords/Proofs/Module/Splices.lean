import IrRecords.Proofs.Function.Splices
import IrRecords.Proofs.Module.Items
import IrRecords.Proofs.Module.Seams
import IrRecords.Proofs.Module.Segments
import IrRecords.Proofs.Ty.Words

/-!
# Modules that something was put into

Tokens were put into a text, into a statement of a function (`InstrAt`), and the statement is read as before
(`Function.Crosses`). Then the functions in front of it and behind it are read as before, too
(`exists_readItems_splice`). The sweep for structs comes by the same place. If it stops in front of what was
put in, it passes that token by token (`rounds_pass`) and finds the same structs (`exists_readStructs_splice`),
so that the same module is read (`result_ofStream_splice`). It always stops in front of the word of an opcode,
since no definition of a struct contains one (`exists_rounds_of_isOpcode`). Each instruction of a module is read
from a statement of its text (`exists_instrAt_of_mem`).
-/

namespace IrRecords.Module

open Reader Draft
open Token (Stream Splice)

variable {s s' : Stream} {ts is us us' pre : List Token} {h : Splice s s' ts is us us'} {hne : us ≠ []}
  {hinert : ∀ t, is.head? = some t → t.kind.isInert = true} {c c' c₁ later : Cursor} {ahead : List Token}
  {types types₁ : TypeTable} {t : Token} {ctx : Context} {m : Module}

/-! ## Structs -/

/-- A token that is no reference, or is not in the first column, begins no definition. -/
theorem readStruct_of_ne {last? : Option Nat} {stop : Token}
    (hno : t.start.column ≠ 1 ∨ ∀ id, t.kind ≠ .localRef id) (heof : t.kind ≠ .eof) (types : TypeTable) :
    readStruct types ⟨last?, t :: ts, stop⟩ = .ok (.again types, ⟨some t.line, ts, stop⟩) := by
  have hstruct : atStruct ⟨last?, t :: ts, stop⟩ = false := by
    rw [atStruct]
    split
    · next id hid _ _ => exact beq_eq_false_iff_ne.mpr (hno.resolve_right fun href => href id hid)
    · rfl
  have hpass : (t.kind == .eof) = false := beq_eq_false_iff_ne.mpr heof
  refine readStruct_eq_ok_iff.mpr ⟨some [], ?_, rfl⟩
  rw [structAhead_eq, hstruct, if_neg Bool.false_ne_true, passToken_eq]
  change (if (t.kind == .eof) = true then _ else _) = _
  rw [hpass, if_neg Bool.false_ne_true]
  rfl

/-- Such tokens are passed one by one, here on one line. -/
theorem rounds_pass {last? : Option Nat} {stop : Token}
    (his : ∀ t ∈ is, (t.start.column ≠ 1 ∨ ∀ id, t.kind ≠ .localRef id) ∧ t.kind ≠ .eof
      ∧ last? = some t.line) (types : TypeTable) :
    Rounds readStruct types ⟨last?, is ++ us, stop⟩ types ⟨last?, us, stop⟩ := by
  induction is with
  | nil => exact .refl _ _
  | cons t is ih =>
    rw [List.forall_mem_cons] at his
    obtain ⟨⟨hno, heof, hline⟩, his⟩ := his
    refine .again (readStruct_of_ne hno heof types) ?_
    rw [← hline]
    exact ih his

/-- Where the sweep stops in front of what was put in, the same structs are found. -/
theorem exists_readStructs_splice (hc : (h.seam hne hinert).Beside [] c c')
    (hrounds : Rounds readStruct .empty s.start types₁ c)
    (hrounds' : Rounds readStruct .empty s'.start types₁ c')
    (his : ∀ t ∈ is, (t.start.column ≠ 1 ∨ ∀ id, t.kind ≠ .localRef id) ∧ t.kind ≠ .eof
      ∧ c.lastLine? = some t.line)
    (hread : readStructs s.start = .ok (types, later)) :
    ∃ later', readStructs s'.start = .ok (types, later') := by
  obtain ⟨hfirst, hsecond⟩ := Splice.eq_of_beside hc
  have hbehind : Rounds readStruct .empty s'.start types₁ ⟨c.lastLine?, us', s'.stop⟩ := by
    rw [hsecond] at hrounds'
    exact hrounds'.trans (rounds_pass his types₁)
  rw [readStructs, hrounds.iterate_eq productive_readStruct h.eof, hfirst] at hread
  rw [readStructs, hbehind.iterate_eq productive_readStruct h.eof']
  have hsteady : Steady h.twins (iterate readStruct types₁) :=
    .iterate (steady_readStruct (sameStructs_of_first fun _ _ hp => hp)) types₁
  have hsame := hsteady _ _ (h.facing c.lastLine?)
  rw [hread] at hsame
  generalize iterate readStruct types₁ ⟨c.lastLine?, us', s'.stop⟩ = e at hsame
  cases hsame with
  | @ok _ x' hx =>
    obtain ⟨types', later'⟩ := x'
    obtain ⟨rfl, _⟩ := hx
    exact ⟨later', rfl⟩

/-! ### Opcodes -/

theorem opcodeFree_readNamed : OpcodeFree c readNamed := by
  rw [readNamed]
  refine .kind ?_
  split
  · next hid =>
    refine .advance hid TokenKind.noConfusion rfl fun c => ?_
    refine (opcodeFree_expect TokenKind.noConfusion rfl _).bind fun _ c => ?_
    refine OpcodeFree.bind (opcodeFree_expect TokenKind.noConfusion (by decide) _) fun _ c => ?_
    refine OpcodeFree.bind ?_ fun _ _ => .pure _
    rw [readStructBody]
    refine OpcodeFree.bind (opcodeFree_accept TokenKind.noConfusion (by decide)) fun bodiless c => ?_
    split
    · exact .pure _
    · refine PassesFrom.position (OpcodeFree.bind Ty.opcodeFree_read fun ty c => ?_)
      split
      · exact .pure _
      · exact PassesFrom.failAt
  · exact .unexpected

/-- A step of the sweep passes a token, or a definition. -/
theorem passes_readStruct (types : TypeTable) : (readStruct types).Passes fun _ ts =>
    (∃ t, ts = [t]) ∨ ∀ t ∈ ts, t.kind.isOpcode = false := by
  intro c hstop round later hread
  obtain ⟨found, hfound, _⟩ := readStruct_eq_ok_iff.mp hread
  rw [structAhead_eq] at hfound
  split at hfound
  · have hnamed : OpcodeFree c (readNamed >>= fun d => Pure.pure (some [d])) :=
      opcodeFree_readNamed.bind fun _ _ => .pure _
    obtain ⟨ts, hts, hfree⟩ := hnamed hstop _ _ hfound
    exact ⟨ts, hts, .inr hfree⟩
  · rw [passToken_eq] at hfound
    split at hfound
    · cases hfound
      exact ⟨[], .refl c, .inr (List.forall_mem_nil _)⟩
    · next heof =>
      cases hfound
      exact ⟨_, Cursor.reaches_advance hstop fun hc => heof (beq_iff_eq.mpr hc), .inl ⟨_, rfl⟩⟩

/-- **The sweep stops in front of each opcode.** -/
theorem exists_rounds_of_isOpcode (hrounds : Rounds readStruct types c types₁ c₁)
    (hstop : c.stop.kind = .eof) (hrest : c.rest = pre ++ t :: us) (ht : t.kind.isOpcode = true)
    (hle : c₁.remaining ≤ us.length) :
    ∃ types₂ c₂, Rounds readStruct types c types₂ c₂ ∧ c₂.rest = t :: us := by
  induction hrounds generalizing pre with
  | refl types c =>
    rw [Cursor.remaining, hrest, List.length_append, List.length_cons] at hle
    omega
  | @again types types₂ types₁ c c₂ c₁ hstep _ ih =>
    obtain ⟨row, hrow, hkinds⟩ := passes_readStruct types c hstop _ _ hstep
    rcases List.append_eq_append_iff.mp (hrow.rest.symm.trans hrest) with
      ⟨mid, hpre, hmid⟩ | ⟨mid, hrow', hmid⟩
    · -- The opcode is behind all that the round passes.
      obtain ⟨types₃, c₃, hrounds, hc₃⟩ := ih (hrow.stop ▸ hstop) hmid hle
      exact ⟨types₃, c₃, .again hstep hrounds, hc₃⟩
    · cases mid with
      | nil =>
        obtain ⟨types₃, c₃, hrounds, hc₃⟩ := @ih [] (hrow.stop ▸ hstop) hmid.symm hle
        exact ⟨types₃, c₃, .again hstep hrounds, hc₃⟩
      | cons u mid =>
        obtain ⟨rfl, _⟩ := List.cons.inj hmid
        have hmem : t ∈ row := hrow' ▸ List.mem_append_right _ List.mem_cons_self
        rcases hkinds with ⟨v, rfl⟩ | hfree
        · -- The opcode itself is what is passed.
          obtain ⟨rfl, _⟩ := List.append_eq_singleton_iff.mp hrow'.symm |>.resolve_right fun h => by
            cases h.2
          exact ⟨types, c, .refl _ _, hrest⟩
        · -- A round of more than one token is the definition of a struct, which has no opcode in it.
          rw [hfree t hmem] at ht
          cases ht

/-! ## Pointers -/

theorem usesOpaquePointers_splice (h : Splice s s' ts is us us') (his : ∀ t ∈ is, t.kind ≠ .word "ptr") :
    usesOpaquePointers s'.tokens = usesOpaquePointers s.tokens := by
  have hbehind : usesOpaquePointers us' = usesOpaquePointers us := usesOpaquePointers_eq h.twins.tokens
  have hnone : is.any (·.kind == .word "ptr") = false :=
    List.any_eq_false.mpr fun t ht => by simpa using his t ht
  rw [usesOpaquePointers, usesOpaquePointers] at hbehind ⊢
  rw [h.tokens, h.tokens', List.any_append, List.any_append, List.any_append, hnone, hbehind,
    Bool.false_or]

/-! ## Functions -/

/-- In the text `s` there is a definition with this header in front of `c₀`, and its body, from `b` on, is read
up to the statement at `c`. -/
structure StatementAt (ctx : Context) (s : Stream) (p : Progress) (c₀ : Cursor) (header : Header)
    (b : Cursor) (d : Draft) (c : Cursor) : Prop where
  items : PassesItems ctx ⟨#[], []⟩ s.start p c₀
  define : c₀.current.kind = .word "define"
  readHeader : Function.readHeader c₀.advance = .ok (header, b)
  body : Function.BodyUpTo ctx header b d c

/-- In the text `s`, the instruction `i` is read from `c₁` up to `c₂`. -/
inductive InstrAt (ctx : Context) (s : Stream) (c₁ : Cursor) (i : Draft.Instr) (c₂ : Cursor) : Prop
  | intro {p : Progress} {c₀ b c : Cursor} {header : Header} {d : Draft} {result? : Option Ident}
      (hat : StatementAt ctx s p c₀ header b d c) (hresult : Function.readResult? c = .ok (result?, c₁))
      (hinstr : readInstr ctx c₁ = .ok (i, c₂)) : InstrAt ctx s c₁ i c₂

theorem PassesItems.trans {p₀ p₁ p₂ : Progress} {c₀ c₁ c₂ : Cursor} (h : PassesItems ctx p₀ c₀ p₁ c₁)
    (h' : PassesItems ctx p₁ c₁ p₂ c₂) : PassesItems ctx p₀ c₀ p₂ c₂ := by
  induction h with
  | refl p c => exact h'
  | item h _ ih => exact .item h (ih h')

theorem result_readDefinition {header : Header} (h : Function.readHeader c = .ok (header, c₁)) :
    (Function.readDefinition ctx c).result = Function.readBody ctx header c₁ := by
  rw [Function.readDefinition, h]
  rfl

namespace StatementAt

variable {p p₁ q : Progress} {c₀ b : Cursor} {header : Header} {d : Draft} {f : Function}

/-- The places of a statement, one in front of the other. -/
theorem ordered (hat : StatementAt ctx s p c₀ header b d c) (heof : s.stop.kind = .eof) :
    (c₀.rest <:+ s.tokens ∧ c₀.advance.rest <:+ c₀.rest ∧ b.rest <:+ c₀.advance.rest ∧ c.rest <:+ b.rest)
      ∧ b.stop = s.stop ∧ c.stop = s.stop := by
  have hend : ∀ {c : Cursor}, c.stop = s.stop → c.stop.kind = .eof := fun hc => hc.symm ▸ heof
  obtain ⟨hrest₀, hstop₀⟩ := hat.items.forward heof
  have hfirst :=
    Cursor.reaches_advance (hend hstop₀) (by rw [hat.define]; exact TokenKind.noConfusion)
  have hstopa := hfirst.stop.trans hstop₀
  obtain ⟨head, hhead, _⟩ := Function.exists_reads_header (hend hstopa) hat.readHeader
  have hstopb := hhead.stop.trans hstopa
  obtain ⟨front, hfront⟩ := hat.body.exists_reaches (hend hstopb)
  exact ⟨⟨hrest₀, ⟨_, hfirst.rest.symm⟩, ⟨_, hhead.rest.symm⟩, ⟨_, hfront.rest.symm⟩⟩, hstopb,
    hfront.stop.trans hstopb⟩

/-- A statement in front of the seam is at the same place in both texts. -/
theorem tracks (hat : StatementAt ctx s p c₀ header b d c) (h : Splice s s' ts is us us') (hne : us ≠ [])
    (hinert : ∀ t, is.head? = some t → t.kind.isInert = true) (hle : us.length + 1 ≤ c.remaining) :
    ∃ c₀' b' ahead c', StatementAt ctx s' p c₀' header b' d c' ∧ c₀'.current = c₀.current
      ∧ (h.seam hne hinert).Beside ahead c c' := by
  obtain ⟨⟨_, hrest₁, hrestb, hrestc⟩, _, _⟩ := hat.ordered h.eof
  have hleb := Nat.le_trans hle (remaining_le_of_suffix hrestc)
  have hle₀ := Nat.le_trans (Nat.le_trans hleb (remaining_le_of_suffix hrestb)) (remaining_le_of_suffix hrest₁)
  obtain ⟨ahead, c₀', hitems', hc₀⟩ := hat.items.tracks (h.beside_start hne hinert) hle₀
  obtain ⟨t, ahead, rfl, hcurrent, hcurrent'⟩ := current_eq_of_remaining hc₀ hle₀
  obtain ⟨aheadb, b', hheader', hb⟩ :=
    Function.feeds_readHeader.same _ _ _ hc₀.advance header b hat.readHeader hleb
  obtain ⟨aheadc, c', hbody', hc⟩ := hat.body.tracks hb hle
  have hsame := hcurrent'.trans hcurrent.symm
  exact ⟨c₀', b', aheadc, c', ⟨hitems', hsame ▸ hat.define, hheader', hbody'⟩, hsame, hc⟩

/-- If all functions are read, then so is the one that the statement belongs to. -/
theorem exists_readBody (hat : StatementAt ctx s p c₀ header b d c) (heof : s.stop.kind = .eof)
    (hread : (readItems ctx s.start.bound ⟨#[], []⟩ s.start).result = .ok q) :
    ∃ f later p₁, Function.readBody ctx header b = .ok (f, later)
      ∧ p.push f c₀.current.start = .ok p₁ := by
  rw [hat.items.readItems_eq heof, Cursor.bound, readItems] at hread
  dsimp only at hread
  rw [hat.define] at hread
  obtain ⟨⟨f, later⟩, hf, hread⟩ := Traced.bind_eq_ok_iff.mp hread
  obtain ⟨p₁, hpush, _⟩ := Traced.bind_eq_ok_iff.mp hread
  rw [result_readDefinition hat.readHeader] at hf
  exact ⟨f, later, p₁, hf, hpush⟩

/-- Behind this function the others are read. -/
theorem readItems_eq (hat : StatementAt ctx s p c₀ header b d c) (heof : s.stop.kind = .eof)
    (hf : Function.readBody ctx header b = .ok (f, later)) (hpush : p.push f c₀.current.start = .ok p₁) :
    (readItems ctx s.start.bound ⟨#[], []⟩ s.start).result = (readItems ctx later.bound p₁ later).result := by
  rw [← result_readDefinition hat.readHeader] at hf
  have hitem : PassesItem ctx p c₀ p₁ later := .definition hat.define hf hpush
  exact (hat.items.trans (.item hitem (.refl p₁ later))).readItems_eq heof

end StatementAt

variable {c₂ : Cursor} {i : Draft.Instr} {q : Progress}

/-- The text of an instruction. -/
theorem InstrAt.exists_reaches (h : InstrAt ctx s c₁ i c₂) (heof : s.stop.kind = .eof) :
    c₁.rest <:+ s.tokens ∧ c₁.stop = s.stop ∧ ∃ row, c₁.Reaches row c₂ ∧ row ≠ [] := by
  obtain ⟨hat, hresult, hinstr⟩ := h
  obtain ⟨⟨hrest₀, hrest₁, hrestb, hrestc⟩, _, hstopc⟩ := hat.ordered heof
  obtain ⟨marks, hmarks, _⟩ := Function.passesFrom_readResult? _ (hstopc ▸ heof) _ _ hresult
  have hstop₁ := hmarks.stop.trans hstopc
  refine ⟨?_, hstop₁, readInstr_ne_nil ctx c₁ (hstop₁ ▸ heof) i c₂ hinstr⟩
  exact List.IsSuffix.trans ⟨marks, hmarks.rest.symm⟩
    (hrestc.trans (hrestb.trans (hrest₁.trans hrest₀)))

/-- What has been read so far is the same where nothing has moved. -/
theorem sameProgress_refl (h : Splice s s' ts is us us') (p : Progress) : SameProgress h.twins p p :=
  ⟨List.forall₂_same.mpr fun _ _ => ⟨rfl, rfl, rfl, rfl, rfl, rfl, forall₂_sameBut_refl _ _⟩,
    List.forall₂_same.mpr fun _ _ => ⟨rfl, Iff.rfl⟩⟩

theorem SameProgress.functions_eq {T : Twins} {p p' : Progress} (hp : SameProgress T p p')
    (hT : ∀ x, ¬ T.Loose x) : p'.functions = p.functions := by
  refine Array.toList_inj.mp (List.forall₂_eq_eq_eq ▸ hp.functions.flip.imp fun _ _ hf => ?_)
  exact hf.eq hT

/-- **The same functions are read** if the statement that something was put into is read as before. -/
theorem exists_readItems_splice (hinstr : InstrAt ctx s c₁ i c₂) (hle : us.length + 1 ≤ c₁.remaining)
    (hcross : ∀ {ahead c c' result? d}, (h.seam hne hinert).Beside ahead c c' →
      Function.readResult? c = .ok (result?, c₁) → Function.Crosses h.twins ctx d c c')
    (hread : (readItems ctx s.start.bound ⟨#[], []⟩ s.start).result = .ok q) :
    ∃ q', (readItems ctx s'.start.bound ⟨#[], []⟩ s'.start).result = .ok q'
      ∧ q'.functions = q.functions := by
  obtain @⟨p, c₀, b, c, header, d, result?, hat, hresult, _⟩ := hinstr
  have hlec : us.length + 1 ≤ c.remaining := Nat.le_trans hle
    (remaining_le_of_suffix ((Function.tracks_readResult? (S := h.seam hne hinert)).forward c _ _ hresult))
  obtain ⟨c₀', b', ahead, c', hat', hcurrent, hc⟩ := hat.tracks h hne hinert hlec
  obtain ⟨f, later, p₁, hf, hpush⟩ := hat.exists_readBody h.eof hread
  obtain ⟨f', later', hf', hsame, hlater⟩ := Function.same_readBody_of_crosses hat.body hat'.body
    ((hat.ordered h.eof).2.1 ▸ h.eof) ((hat'.ordered h.eof').2.1 ▸ h.eof') (hcross hc hresult) hf
  obtain rfl := hsame.eq fun _ hx => hx
  have hbound : later.bound.length = later'.bound.length := congrArg (· + 1) hlater.remaining.symm
  have hrest := same_readItems ctx hbound (sameProgress_refl h p₁) hlater
  rw [← hat.readItems_eq h.eof hf hpush, ← hat'.readItems_eq h.eof' hf' (hcurrent ▸ hpush), hread] at hrest
  generalize (readItems ctx s'.start.bound ⟨#[], []⟩ s'.start).result = e at hrest
  cases hrest with
  | ok hq => exact ⟨_, rfl, hq.functions_eq fun _ hx => hx⟩

/-- In a text that is read, something stands below each instruction. -/
theorem InstrAt.rest_ne_nil (hinstr : InstrAt ctx s c₁ i c₂) (heof : s.stop.kind = .eof)
    (hread : (readItems ctx s.start.bound ⟨#[], []⟩ s.start).result = .ok q) :
    c₂.skipRestOfLine.rest ≠ [] := by
  obtain @⟨p, c₀, b, c, header, d, result?, hat, hresult, hinstr⟩ := hinstr
  have hstop : b.stop.kind = .eof := (hat.ordered heof).2.1 ▸ heof
  obtain ⟨f, later, _, hf, _⟩ := hat.exists_readBody heof hread
  exact hat.body.rest_ne_nil hstop hresult hinstr hf

/-! ## Modules -/

theorem result_ofStream_eq_ok_iff : (ofStream s).result = .ok m ↔
    (∃ later, readStructs s.start = .ok (m.types, later))
      ∧ m.opaquePointers = usesOpaquePointers s.tokens
      ∧ ∃ q, (readItems m.context s.start.bound ⟨#[], []⟩ s.start).result = .ok q
        ∧ m.functions = q.functions.toList := by
  rw [ofStream, Traced.bind_eq_ok_iff]
  constructor
  · rintro ⟨⟨types, later⟩, hstructs, h⟩
    obtain ⟨q, hq, h⟩ := Traced.bind_eq_ok_iff.mp h
    cases h
    exact ⟨⟨later, hstructs⟩, rfl, q, hq, rfl⟩
  · rintro ⟨⟨later, hstructs⟩, hpointers, q, hq, hfunctions⟩
    obtain ⟨types, functions, pointers⟩ := m
    dsimp only at hstructs hpointers hfunctions
    subst hpointers hfunctions
    exact ⟨(types, later), hstructs, Traced.bind_eq_ok_iff.mpr ⟨q, hq, rfl⟩⟩

/-! ## Where an instruction is read -/

variable {p p₁ : Progress} {f : Function}

/-- The loop over the items is at the end, or passes one. -/
theorem exists_passesItem {t : Token} {bound : List Token}
    (hread : (readItems ctx (t :: bound) p c).result = .ok q) :
    q = p ∨ ∃ p₁ c₁, PassesItem ctx p c p₁ c₁ ∧ (readItems ctx bound p₁ c₁).result = .ok q := by
  rw [readItems] at hread
  dsimp only at hread
  split at hread
  · cases hread
    exact .inl rfl
  · next hkind =>
    obtain ⟨⟨f, c₁⟩, hf, hread⟩ := Traced.bind_eq_ok_iff.mp hread
    obtain ⟨p₁, hpush, hread⟩ := Traced.bind_eq_ok_iff.mp hread
    exact .inr ⟨p₁, c₁, .definition hkind hf hpush, hread⟩
  · next hkind =>
    obtain ⟨⟨f, c₁⟩, hf, hread⟩ := Traced.bind_eq_ok_iff.mp hread
    obtain ⟨p₁, hpush, hread⟩ := Traced.bind_eq_ok_iff.mp hread
    exact .inr ⟨p₁, c₁, .declaration hkind hf hpush, hread⟩
  · next heof hdefine hdeclare =>
    obtain ⟨⟨_, c₁⟩, hskip, hread⟩ := Traced.bind_eq_ok_iff.mp hread
    exact .inr ⟨p, c₁, .other heof hdefine hdeclare hskip, hread⟩

/-- A function that is read comes from a definition or a declaration behind some of the items. -/
theorem exists_passesItems_of_mem {bound : List Token} (hread : (readItems ctx bound p c).result = .ok q)
    (hf : f ∈ q.functions) (hnew : f ∉ p.functions) : ∃ p₁ c₁ later, PassesItems ctx p c p₁ c₁
      ∧ (c₁.current.kind = .word "define" ∧ (Function.readDefinition ctx c₁.advance).result = .ok (f, later)
        ∨ c₁.current.kind = .word "declare" ∧
          (Function.readDeclaration c₁.advance).result = .ok (f, later)) := by
  induction bound generalizing p c with
  | nil => rw [readItems] at hread; cases hread
  | cons t bound ih =>
    rcases exists_passesItem hread with rfl | ⟨p₁, c₁, hitem, hrest⟩
    · exact absurd hf hnew
    · by_cases hmem : f ∈ p₁.functions
      · -- The item is the one that adds it.
        have hadded : ∀ {g : Function} {position : Position}, p.push g position = .ok p₁ → f = g := by
          intro g position hpush
          rw [← Array.mem_toList_iff, Progress.functions_push hpush, List.mem_append,
            Array.mem_toList_iff] at hmem
          exact List.mem_singleton.mp (hmem.resolve_left hnew)
        cases hitem with
        | definition hkind hread hpush =>
          obtain rfl := hadded hpush
          exact ⟨p, c, c₁, .refl p c, .inl ⟨hkind, hread⟩⟩
        | declaration hkind hread hpush =>
          obtain rfl := hadded hpush
          exact ⟨p, c, c₁, .refl p c, .inr ⟨hkind, hread⟩⟩
        | other _ _ _ _ => exact absurd hmem hnew
      · obtain ⟨p₂, c₂, later, hitems, hlast⟩ := ih hrest hmem
        exact ⟨p₂, c₂, later, .item hitem hitems, hlast⟩

/-- A declaration has no instructions. -/
theorem instrs_of_readDeclaration (h : (Function.readDeclaration c).result = .ok (f, later)) :
    f.instrs = #[] := by
  rw [Function.readDeclaration, Traced.bind_eq_ok_iff] at h
  obtain ⟨⟨header, c₁⟩, hheader, h⟩ := h
  obtain ⟨_, _, h⟩ := Traced.bind_eq_ok_iff.mp h
  obtain ⟨g, hg, h⟩ := Traced.bind_eq_ok_iff.mp h
  cases h
  change (Draft.ofHeader header >>= finish) = .ok f at hg
  cases hd : Draft.ofHeader header with
  | error e => rw [hd] at hg; cases hg
  | ok d =>
    rw [hd] at hg
    exact (finish_spec hg).instrs_eq_empty hd

/-- **Each instruction of a module is read in the text**, with these operands. -/
theorem exists_instrAt_of_mem (heof : s.stop.kind = .eof) (hread : (ofStream s).result = .ok m)
    (hf : f ∈ m.functions) {i : IrRecords.Instr} (hi : i ∈ f.instrs) : ∃ c₁ j c₂, InstrAt m.context s c₁ j c₂
      ∧ i.opcode = j.opcode ∧ List.Forall₂ f.Refers j.operands i.operands := by
  obtain ⟨_, _, q, hq, hfunctions⟩ := result_ofStream_eq_ok_iff.mp hread
  rw [hfunctions, Array.mem_toList_iff] at hf
  obtain ⟨p, c₀, later, hitems, ⟨hkind, hdefinition⟩ | ⟨_, hdeclaration⟩⟩ :=
    exists_passesItems_of_mem hq hf (Array.not_mem_empty f)
  · rw [Function.readDefinition] at hdefinition
    obtain ⟨⟨header, b⟩, hheader, hdefinition⟩ := Traced.bind_eq_ok_iff.mp hdefinition
    obtain ⟨_, _, hbody⟩ := Traced.bind_eq_ok_iff.mp hdefinition
    obtain ⟨_, hstop⟩ := hitems.forward heof
    have hadvance := Cursor.reaches_advance (by rw [hstop]; exact heof)
      (by rw [hkind]; exact TokenKind.noConfusion)
    have hstop₀ : c₀.advance.stop = s.stop := hadvance.stop.trans hstop
    obtain ⟨_, hhead, _⟩ := Function.exists_reads_header (hstop₀.symm ▸ heof) hheader
    obtain ⟨d, c, result?, c₁, c₂, d', st, hupTo, hresult, hinstr, hlaid, hdescribes⟩ :=
      Function.exists_bodyUpTo_of_mem ((hhead.stop.trans hstop₀).symm ▸ heof) hbody hi
    exact ⟨c₁, st.instr, c₂, .intro ⟨hitems, hkind, hheader, hupTo⟩ hresult hinstr, hdescribes.opcode,
      hdescribes.operands.imp fun _ _ ho => hlaid.refers ho⟩
  · rw [instrs_of_readDeclaration hdeclaration] at hi
    exact absurd hi (Array.not_mem_empty i)

end IrRecords.Module
