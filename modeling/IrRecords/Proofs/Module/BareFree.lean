import IrRecords.Proofs.Draft.BareFree
import IrRecords.Proofs.Function.Typed
import IrRecords.Proofs.Module.Parts

/-!
# Modules without opaque pointers

A module uses typed pointers or opaque ones, and which of the two is decided by one word anywhere
in the text. `bareFree_of_read` says that the decision is kept: without the word there is no opaque
pointer type in the module, at any depth, neither in the bodies of its structs nor in a function
(`Function.BareFree`), where it could be in the type that is returned, in the type of any value or
in what is allocated.

Types come into a function with its header and with its instructions. Both stand in the draft
(`Draft.BareFree`), and laying it out adds no types but those of labels.
-/

namespace IrRecords

open Reader

/-- No opaque pointer type occurs in the function, at any depth. -/
structure Function.BareFree (f : Function) : Prop where
  ret : f.ret.BareFree
  values : ∀ v ∈ f.values, v.ty.BareFree
  allocated : ∀ i ∈ f.instrs, ∀ ty, i.detail.allocated? = some ty → ty.BareFree

/-! ## Drafts -/

namespace Draft

variable {d d' : Draft} {f : Function} {id? : Option Ident} {instr : Instr} {p : Position}

/-- No opaque pointer type occurs in the draft, at any depth. -/
structure BareFree (d : Draft) : Prop where
  ret : d.ret.BareFree
  params : ∀ q ∈ d.params, q.ty.BareFree
  statements : ∀ s ∈ d.statements, s.instr.BareFree

/-- No opaque pointer type occurs in the header, at any depth. -/
structure Header.BareFree (h : Header) : Prop where
  ret : h.ret.BareFree
  params : ∀ q ∈ h.params, q.1.BareFree

/-- A block that is started and an instruction that is added leave the header alone. -/
theorem header_startBlock (h : d.startBlock id? p = .ok d') :
    d'.ret = d.ret ∧ d'.params = d.params := by
  obtain ⟨id, next, _, rfl⟩ := startBlock_cases h
  exact ⟨rfl, rfl⟩

theorem header_pushInstr (h : d.pushInstr id? instr p = .ok d') :
    d'.ret = d.ret ∧ d'.params = d.params := by
  have happend : ∀ (d : Draft) (s : Statement),
      (d.appendStatement s).ret = d.ret ∧ (d.appendStatement s).params = d.params := by
    intro d s
    unfold appendStatement
    split <;> exact ⟨rfl, rfl⟩
  obtain ⟨d₁, hblock, hplace⟩ := pushInstr_cases h
  have hsame : d₁.ret = d.ret ∧ d₁.params = d.params := by
    rcases hblock with ⟨_, hstart⟩ | ⟨_, rfl⟩
    · exact header_startBlock hstart
    · exact ⟨rfl, rfl⟩
  rw [← hsame.1, ← hsame.2]
  rcases placeInstr_cases hplace with ⟨_, _, rfl⟩ | ⟨_, id, next, _, rfl⟩
  · exact happend d₁ _
  · exact happend d₁ _

theorem BareFree.startBlock (hd : d.BareFree) (h : d.startBlock id? p = .ok d') :
    d'.BareFree := by
  obtain ⟨hret, hparams⟩ := header_startBlock h
  exact ⟨hret ▸ hd.ret, hparams ▸ hd.params, statements_startBlock h ▸ hd.statements⟩

theorem BareFree.pushInstr (hd : d.BareFree) (hinstr : instr.BareFree)
    (h : d.pushInstr id? instr p = .ok d') : d'.BareFree := by
  obtain ⟨hret, hparams⟩ := header_pushInstr h
  obtain ⟨result?, hrow, _⟩ := statements_pushInstr h
  refine ⟨hret ▸ hd.ret, hparams ▸ hd.params, fun s hs => ?_⟩
  rw [hrow] at hs
  rcases List.mem_append.mp hs with hs | hs
  · exact hd.statements s hs
  · rw [List.mem_singleton.mp hs]
    exact hinstr

theorem BareFree.pushParam {q : Ty × Option Ident × Position} (hd : d.BareFree)
    (hq : q.1.BareFree) (h : d.pushParam q = .ok d') : d'.BareFree := by
  obtain ⟨ty, given, position⟩ := q
  cases hn : number d.nextSlot .argument position given with
  | error e => simp [Draft.pushParam, hn, Bind.bind, Except.bind] at h
  | ok r =>
    simp only [Draft.pushParam, hn, Bind.bind, Except.bind, Pure.pure, Except.pure,
      Except.ok.injEq] at h
    subst h
    exact ⟨hd.ret, Array.forall_mem_push.mpr ⟨hq, hd.params⟩, hd.statements⟩

/-- The draft of a header has the types of the header. -/
theorem Header.BareFree.ofHeader {header : Header} (hheader : header.BareFree)
    (h : Draft.ofHeader header = .ok d) : Draft.BareFree d := by
  have hparams : ∀ (qs : List (Ty × Option Ident × Position)) (d₀ : Draft),
      (∀ q ∈ qs, q.1.BareFree) → Draft.BareFree d₀ → qs.foldlM Draft.pushParam d₀ = .ok d →
      Draft.BareFree d := by
    intro qs
    induction qs with
    | nil => intro d₀ _ hd₀ hd; cases hd; exact hd₀
    | cons q qs ih =>
      intro d₀ hqs hd₀ hd
      rw [List.foldlM_cons] at hd
      obtain ⟨hq, hqs⟩ := List.forall_mem_cons.mp hqs
      cases hpush : d₀.pushParam q with
      | error e => rw [hpush] at hd; cases hd
      | ok d₁ =>
        rw [hpush] at hd
        exact ih d₁ hqs (hd₀.pushParam hq hpush) hd
  exact hparams _ _ hheader.params ⟨hheader.ret, by simp, by simp [statements]⟩ h

/-- Every definition has a type of the draft, and labels have one of their own. -/
theorem BareFree.definitions (hd : d.BareFree) : ∀ x ∈ d.definitions, x.ty.BareFree := by
  intro x hx
  rcases List.mem_append.mp hx with hx | hx
  · rcases List.mem_append.mp hx with hx | hx
    · obtain ⟨n, hn, rfl⟩ := List.mem_mapIdx.mp hx
      exact hd.params _ (Array.mem_toList_iff.mp (List.getElem_mem hn))
    · obtain ⟨n, hn, rfl⟩ := List.mem_mapIdx.mp hx
      exact Ty.bareFree_primitive _
  · obtain ⟨n, hn, rfl⟩ := List.mem_mapIdx.mp hx
    exact (hd.statements _ (List.getElem_mem hn)).ty

/-- **Laying out a draft without opaque pointers makes a function without them.** -/
theorem LaidOut.bareFree (h : LaidOut d f) (hd : d.BareFree) : f.BareFree := by
  refine ⟨h.ret ▸ hd.ret, fun v hv => ?_, fun i hi ty hty => ?_⟩
  · rw [← Array.mem_toList_iff, h.values] at hv
    rcases List.mem_append.mp hv with hv | hv
    · obtain ⟨x, hx, rfl⟩ := List.mem_map.mp hv
      exact hd.definitions x hx
    · -- A constant or a global has the type that it is used at.
      obtain ⟨o, ho, hknown⟩ := List.mem_filterMap.mp hv
      obtain ⟨s, hs, hos⟩ := List.mem_flatMap.mp ho
      have hty := (hd.statements s hs).operands o hos
      cases o with
      | reference => cases hknown
      | known value => cases hknown; exact hty
  · obtain ⟨s, hs, hdescribes⟩ := exists_left_of_forall₂ h.instrs (Array.mem_toList_iff.mpr hi)
    rw [allocated?_of_resolveDetail hdescribes.detail] at hty
    exact (hd.statements s hs).allocated ty hty

end Draft

/-! ## Functions -/

namespace Function

open Draft

theorem bareFree_readParam : readParam.YieldsAmong TokenKind.Pointed fun q => q.1.BareFree := by
  rw [readParam]
  refine .position fun position => Ty.bareFree_read.bind fun ty hty => ?_
  refine .skip neutral_skipHeaderAttributes.goesForward fun _ => .kind fun k _ => ?_
  split
  · exact .advance (.pure hty)
  · exact .pure hty

theorem bareFree_readParams : readParams.YieldsAmong TokenKind.Pointed
    fun x => ∀ q ∈ x.1, q.1.BareFree := by
  rw [readParams]
  refine .expect TokenKind.noConfusion fun _ => ?_
  refine .accept TokenKind.noConfusion fun closed => ?_
  cases closed with
  | true => exact .pure (by simp)
  | false =>
    refine YieldsAmong.bind (P := fun x : Array (Ty × Option Ident × Position) × Bool =>
      ∀ q ∈ x.1, q.1.BareFree) ?_ fun x hx =>
        .expect TokenKind.noConfusion fun _ => .pure (by simpa using hx)
    refine .iterate (I := fun params : Array (Ty × Option Ident × Position) =>
      ∀ q ∈ params, q.1.BareFree) (fun params hI => ?_) (by simp)
    refine .accept TokenKind.noConfusion fun dots => ?_
    cases dots with
    | true => exact .pure hI
    | false =>
      refine bareFree_readParam.bind fun param hparam => ?_
      refine .accept TokenKind.noConfusion fun more => ?_
      -- The loop goes on or ends with this parameter; it is free of opaque pointers in both cases.
      have hpush : ∀ q ∈ params.push param, q.1.BareFree :=
        Array.forall_mem_push.mpr ⟨hparam, hI⟩
      cases more with
      | true => exact .pure hpush
      | false => exact .pure hpush

theorem bareFree_readHeader : readHeader.YieldsAmong TokenKind.Pointed Header.BareFree := by
  rw [readHeader]
  refine .skip neutral_skipHeaderAttributes.goesForward fun _ => ?_
  refine Ty.bareFree_read.bind fun ret hret => .skip neutral_readName.goesForward fun name => ?_
  exact bareFree_readParams.bind fun x hx => .pure ⟨hret, hx⟩

theorem goesForward_readResult? : readResult?.GoesForward :=
  fun c => (passesFrom_readResult? c).mono fun _ _ _ => trivial

section

variable {ctx : Draft.Context} {d : Draft} {c c' : Cursor} {f : Function}

theorem bareFree_readStatement (hctx : ctx.BareFree) (hd : d.BareFree) :
    (readStatement ctx d).YieldsAmong TokenKind.Pointed Draft.BareFree := by
  rw [readStatement]
  refine .position fun position => .skip goesForward_readResult? fun result? => ?_
  refine (bareFree_readInstr hctx).bind fun instr hinstr => ?_
  exact .skip goesForward_skipRestOfLine fun _ => .lift fun d' h => hd.pushInstr hinstr h

/-- One item of a body keeps a draft free of opaque pointers. -/
theorem bareFree_readBodyItem (hctx : ctx.BareFree) (hd : d.BareFree) :
    (readBodyItem ctx d).YieldsAmong TokenKind.Pointed
      (RoundSatisfies Draft.BareFree Draft.BareFree) := by
  rw [readBodyItem]
  refine .kind fun k _ => ?_
  split
  · exact .advance (.pure hd)
  · exact .unexpected
  · refine .position fun position => .advance ?_
    exact YieldsAmong.bind (.lift fun d' h => hd.startBlock h) fun d' hd' => .pure hd'
  · exact .skip goesForward_skipLine fun _ => .pure hd
  · exact (bareFree_readStatement hctx hd).bind fun d' hd' => .pure hd'

theorem bareFree_readBody (hctx : ctx.BareFree) {header : Header} (hheader : header.BareFree) :
    (readBody ctx header).YieldsAmong TokenKind.Pointed Function.BareFree := by
  rw [readBody]
  refine .skip (goesForward_skipWhile _) fun _ => ?_
  refine .expect TokenKind.noConfusion fun _ => ?_
  refine YieldsAmong.bind (.lift fun d hd => hheader.ofHeader hd) fun d hd => ?_
  refine (YieldsAmong.iterate (fun d hd => bareFree_readBodyItem hctx hd) hd).bind fun d' hd' => ?_
  exact .lift fun f hf => (Draft.finish_spec hf).bareFree hd'

theorem bareFree_readDeclaration (hc : c.AllAhead TokenKind.Pointed)
    (h : (readDeclaration c).result = .ok (f, c')) :
    f.BareFree ∧ c'.AllAhead TokenKind.Pointed := by
  rw [readDeclaration, Traced.bind_eq_ok_iff] at h
  obtain ⟨⟨header, c₁⟩, hheader, h⟩ := h
  obtain ⟨_, _, h⟩ := Traced.bind_eq_ok_iff.mp h
  obtain ⟨g, hg, h⟩ := Traced.bind_eq_ok_iff.mp h
  cases h
  obtain ⟨hbare, hc₁⟩ := bareFree_readHeader c header c₁ hc hheader
  obtain ⟨ts, hts, _⟩ := c₁.reaches_skipRestOfLine
  cases hd : Draft.ofHeader header with
  | error e => simp only [Traced.ofExcept, hd] at hg; cases hg
  | ok d =>
    simp only [Traced.ofExcept, hd] at hg
    exact ⟨(Draft.finish_spec hg).bareFree (hbare.ofHeader hd), hc₁.of_reaches hts⟩

theorem bareFree_readDefinition (hctx : ctx.BareFree) (hc : c.AllAhead TokenKind.Pointed)
    (h : (readDefinition ctx c).result = .ok (f, c')) :
    f.BareFree ∧ c'.AllAhead TokenKind.Pointed := by
  rw [readDefinition, Traced.bind_eq_ok_iff] at h
  obtain ⟨⟨header, c₁⟩, hheader, h⟩ := h
  obtain ⟨_, _, h⟩ := Traced.bind_eq_ok_iff.mp h
  obtain ⟨hbare, hc₁⟩ := bareFree_readHeader c header c₁ hc hheader
  exact bareFree_readBody hctx hbare c₁ f c' hc₁ h

end

end Function

/-! ## Modules -/

namespace Module

theorem bareFree_readStructBody (name : String) :
    (readStructBody name).YieldsAmong TokenKind.Pointed
      fun body => ∀ fields, body.fields? = some fields → ∀ ty ∈ fields, ty.BareFree := by
  rw [readStructBody]
  refine .skip (neutral_acceptWord _).goesForward fun bodiless => ?_
  cases bodiless with
  | true => exact .pure fun _ h => by cases h
  | false =>
    refine .position fun position => Ty.bareFree_read.bind fun ty hty => ?_
    split
    · refine .pure fun _ h => ?_
      cases h
      exact Ty.bareFree_literal.mp hty
    · exact .failAt

theorem bareFree_readStruct {types : TypeTable} (htypes : types.BareFree) :
    (readStruct types).YieldsAmong TokenKind.Pointed
      (RoundSatisfies TypeTable.BareFree TypeTable.BareFree) := by
  rw [readStruct]
  refine .get fun c => ?_
  split
  · refine .kind fun k _ => ?_
    split
    · refine .advance (.expect TokenKind.noConfusion fun _ => ?_)
      refine .skip (neutral_expectWord _).goesForward fun _ => ?_
      exact (bareFree_readStructBody _).bind fun body hbody => .pure (htypes.insert hbody)
    · exact .unexpected
  · refine .isAt fun stop => ?_
    cases stop with
    | true => exact .pure htypes
    | false => exact .advance (.pure htypes)

theorem bareFree_readStructs : readStructs.YieldsAmong TokenKind.Pointed TypeTable.BareFree :=
  .iterate (fun _ => bareFree_readStruct) TypeTable.bareFree_empty

/-- What is collected of the functions stays free of opaque pointers, item by item. -/
theorem bareFree_readItems {ctx : Draft.Context} (hctx : ctx.BareFree) {bound : List Token}
    {p p' : Progress} {c : Cursor} (hc : c.AllAhead TokenKind.Pointed)
    (hp : ∀ f ∈ p.functions, f.BareFree) (h : (readItems ctx bound p c).result = .ok p') :
    ∀ f ∈ p'.functions, f.BareFree := by
  have hpush : ∀ {p p₁ : Progress} {f : Function} {position : Position},
      (∀ g ∈ p.functions, g.BareFree) → f.BareFree → p.push f position = .ok p₁ →
      ∀ g ∈ p₁.functions, g.BareFree := by
    intro p p₁ f position hp hf h g hg
    rw [← Array.mem_toList_iff, Progress.functions_push h] at hg
    rcases List.mem_append.mp hg with hg | hg
    · exact hp g (Array.mem_toList_iff.mp hg)
    · rwa [List.mem_singleton.mp hg]
  induction bound generalizing p c with
  | nil => rw [readItems] at h; cases h
  | cons t bound ih =>
    rw [readItems] at h
    dsimp only at h
    split at h
    · cases h
      exact hp
    · obtain ⟨⟨f, c₁⟩, hf, h⟩ := Traced.bind_eq_ok_iff.mp h
      obtain ⟨p₁, hp₁, h⟩ := Traced.bind_eq_ok_iff.mp h
      obtain ⟨hbare, hc₁⟩ := Function.bareFree_readDefinition hctx hc.advance hf
      exact ih hc₁ (hpush hp hbare hp₁) h
    · obtain ⟨⟨f, c₁⟩, hf, h⟩ := Traced.bind_eq_ok_iff.mp h
      obtain ⟨p₁, hp₁, h⟩ := Traced.bind_eq_ok_iff.mp h
      obtain ⟨hbare, hc₁⟩ := Function.bareFree_readDeclaration hc.advance hf
      exact ih hc₁ (hpush hp hbare hp₁) h
    · next heof hdefine hdeclare =>
      obtain ⟨⟨_, c₁⟩, hskip, h⟩ := Traced.bind_eq_ok_iff.mp h
      -- What is skipped makes no function, and the tokens behind it are among those ahead before.
      obtain ⟨ts, hts, _⟩ := passesFrom_skipItem (by simpa using heof) (by simpa using hdefine)
        (by simpa using hdeclare) hc.stop _ _ hskip
      exact ih (hc.of_reaches hts) hp h

/-- **Modules with typed pointers stay typed.** Without the word for opaque pointers among the
tokens of a text, no opaque pointer type occurs anywhere in the module that is read from it. -/
theorem bareFree_of_read {source : String} {m : Module} {ts : List Token}
    (h : (Module.read source).result = .ok m) (hts : Token.tokenize source = .ok ts)
    (hword : ∀ t ∈ ts, t.kind ≠ .word "ptr") :
    m.opaquePointers = false ∧ m.types.BareFree ∧ ∀ f ∈ m.functions, f.BareFree := by
  rw [Module.read, Traced.bind_eq_ok_iff] at h
  obtain ⟨stream, hstream, h⟩ := h
  rw [ofStream, Traced.bind_eq_ok_iff] at h
  obtain ⟨⟨types, c₁⟩, htypes, h⟩ := h
  obtain ⟨p, hp, h⟩ := Traced.bind_eq_ok_iff.mp h
  cases h
  have hscan : Token.scan source = .ok stream := hstream
  rw [Token.tokenize, hscan, Except.ok.injEq] at hts
  have hkinds : ∀ t ∈ stream.tokens, t.kind ≠ .word "ptr" := fun t ht =>
    hword t (hts ▸ List.mem_append_left _ ht)
  have hstart : Cursor.AllAhead TokenKind.Pointed ⟨none, stream.tokens, stream.stop⟩ :=
    ⟨hkinds, (Token.scanFrom_spec hscan).stop, TokenKind.noConfusion⟩
  have hmode : usesOpaquePointers stream.tokens = false :=
    List.any_eq_false.mpr fun t ht => by simpa using hkinds t ht
  obtain ⟨hbare, _⟩ := bareFree_readStructs _ _ _ hstart htypes
  refine ⟨hmode, hbare, fun f hf => ?_⟩
  exact bareFree_readItems ⟨hbare, hmode⟩ hstart (by simp) hp f (Array.mem_toList_iff.mp hf)

/-- A struct that points to itself, and the address of its field. -/
def pointedSource : String :=
  "%L = type \x7b%L*\x7d
define void @f() \x7b
%a = alloca %L
%b = getelementptr %L, %L* %a, i32 0, i32 0
ret void
\x7d"

/-- The module of these has one function and no opaque pointer type anywhere. -/
theorem bareFree_of_read_pointed : ∃ m ts, (Module.read pointedSource).result = .ok m
    ∧ Token.tokenize pointedSource = .ok ts ∧ (∀ t ∈ ts, t.kind ≠ .word "ptr")
    ∧ m.functions.length = 1
    ∧ m.opaquePointers = false ∧ m.types.BareFree ∧ ∀ f ∈ m.functions, f.BareFree := by
  have hread : (Module.read pointedSource).result.toOption.map (·.functions.length) = some 1 := by
    decide +kernel
  have htokens : (Token.tokenize pointedSource).toOption.map
      (·.all (·.kind != .word "ptr")) = some true := by decide +kernel
  cases hm : (Module.read pointedSource).result with
  | error e => rw [hm] at hread; cases hread
  | ok m =>
    cases hts : Token.tokenize pointedSource with
    | error e => rw [hts] at htokens; cases htokens
    | ok ts =>
      rw [hm, Except.toOption, Option.map_some, Option.some.injEq] at hread
      rw [hts, Except.toOption, Option.map_some, Option.some.injEq, List.all_eq_true] at htokens
      have hword : ∀ t ∈ ts, t.kind ≠ .word "ptr" := fun t ht => by simpa using htokens t ht
      exact ⟨m, ts, rfl, rfl, hword, hread, bareFree_of_read hm hts hword⟩

end Module

end IrRecords
