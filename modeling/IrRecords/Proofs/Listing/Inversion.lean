import IrRecords.Proofs.Listing.Layout

/-!
# Reading a listing back

The pieces are put together. The text of a listing is cut into its tokens, the header and the lines
of the body are read from them, and the draft is laid out; the module holds this one function. It
has the outline of the listing as it was read (`read_text`).

So reading undoes writing wherever a form is read as itself. That is not everywhere. A return of a
value is read as a return without one if the type of the value starts with the word `void`, as
`void ()*` does, and a phi without edges can be written but not read. There is nothing else:
`read_text_iff` says that the function that was written comes back exactly if the listing is free
of the two.
-/

namespace IrRecords

namespace Listing

open Reader

variable {l : Listing}

/-! ## Headers -/

/-- A word that is no attribute is left. -/
theorem takes_skipAttributes {isAttribute takesNumber : String → Bool} {F : TokenKind → Prop}
    (hF : ∀ w, F (.word w) → isAttribute w = false) :
    (skipAttributes isAttribute takesNumber).Takes [] (fun _ => True) F := by
  unfold skipAttributes
  refine Takes.iterate_done (.kind fun k hk => ?_)
  rw [List.headD_nil]
  cases k with
  | word w =>
    dsimp only
    rw [hF w hk, if_neg Bool.false_ne_true]
    exact .pure ⟨(), rfl, trivial⟩
  | _ => exact .pure ⟨(), rfl, trivial⟩

/-- Where a type can start there are no attributes. -/
theorem takes_skipHeaderAttributes :
    Function.skipHeaderAttributes.Takes [] (fun _ => True) fun k => startsType k = true := by
  unfold Function.skipHeaderAttributes
  have hattributes : (skipAttributes (!isTypeWord ·) fun _ => true).Takes [] (fun _ => True)
      fun k => startsType k = true :=
    takes_skipAttributes fun w hw => by rw [show isTypeWord w = true from hw]; rfl
  refine Takes.skip hattributes (fun _ h => h) fun _ _ => ?_
  refine Takes.skipWhile fun t ht => ?_
  unfold Function.isGroupReference
  split
  · next hkind => rw [hkind] at ht; cases ht
  · rfl

theorem takes_readParam {p : String × Ty} (h : p.2.prints = true) {F : TokenKind → Prop} :
    Function.readParam.Takes (paramKinds p) (ParamReadAs p) F := by
  rw [Function.readParam, paramKinds]
  refine .position fun position => ?_
  apply Takes.bind (Ty.takes_read h) (fun _ _ => by simp [Ty.EndsType])
  rintro _ rfl
  refine Takes.skip takes_skipHeaderAttributes (fun _ _ => rfl) fun _ _ => .kind fun _ _ => ?_
  exact Takes.cons .advance fun _ _ => .pure ⟨rfl, rfl⟩

/-- The kinds of the tokens between the word `define` and the body. -/
def signatureKinds (l : Listing) : List TokenKind :=
  l.ret.kinds ++ .globalRef (.named l.name) :: .opener .round ::
    (listedKinds (l.params.map paramKinds) l.vararg ++ [.closer .round])

theorem takes_readHeader (hl : l.WellFormed) :
    Function.readHeader.Takes l.signatureKinds l.HeaderReadAs fun _ => True := by
  have hparams : Function.readParams.Takes
      (.opener .round :: (listedKinds (l.params.map paramKinds) l.vararg ++ [.closer .round]))
      (fun r => List.Forall₂ ParamReadAs l.params r.1 ∧ r.2 = l.vararg) fun _ => True := by
    -- A parameter starts with its type, and no type starts with a closing bracket or with dots.
    refine takes_paramList (F := fun _ => True) l.vararg
      (fun p hp => takes_readParam (hl.params p hp).1) (fun p hp => ?_) trivial trivial
    obtain ⟨k, ks, hks, hk⟩ := Ty.exists_kinds_cons p.2 (hl.params p hp).1
    refine ⟨k, ks ++ [.localRef (.named p.1)], ?_, ?_, ?_⟩
    · rw [paramKinds, hks, List.cons_append]
    · exact Ty.ne_of_startsType hk rfl
    · exact Ty.ne_of_startsType hk rfl
  rw [Function.readHeader, signatureKinds]
  refine Takes.skip takes_skipHeaderAttributes (fun _ _ => ?_) fun _ _ => ?_
  · obtain ⟨k, ks, hks, hk⟩ := Ty.exists_kinds_cons l.ret hl.ret
    rw [hks]
    exact hk
  · apply Takes.bind (Ty.takes_read hl.ret) (fun _ _ => by simp [Ty.EndsType])
    rintro _ rfl
    have hname : Function.readName.Takes [.globalRef (.named l.name)] (· = l.name)
        fun _ => True := by
      rw [Function.readName]
      exact .kind fun _ _ => Takes.cons .advance fun _ _ => .pure rfl
    apply Takes.cons hname
    rintro _ rfl
    apply Takes.last hparams (fun _ _ => trivial)
    rintro ⟨params, vararg⟩ ⟨hps, rfl⟩
    exact .pure ⟨rfl, rfl, rfl, hps⟩

/-! ## Definitions -/

/-- Every phi has an edge. -/
def HasEdges (l : Listing) : Prop := ∀ s ∈ l.statements, s.form.HasEdge

/-- A word is the name of a block and no number. -/
theorem ofLabel_of_isWord {name : String} (h : Token.IsWord name.toList) :
    Ident.ofLabel name = .named name := by
  obtain ⟨⟨c, cs, hname, hc⟩, _⟩ := h
  rw [Ident.ofLabel, Text.decimal?, hname]
  simp [Token.not_isDigit_of_isAlpha hc]

theorem readable_lines (hl : l.WellFormed) (hedges : l.HasEdges) :
    ∀ line ∈ l.lines, line.Readable l.definitions := by
  intro line hline
  obtain ⟨b, hb, hline⟩ := List.mem_flatMap.mp hline
  rcases List.mem_cons.mp hline with rfl | hline
  · exact ofLabel_of_isWord (hl.sound _ (List.mem_flatMap.mpr ⟨b, hb, List.mem_cons_self⟩))
  · obtain ⟨s, hs, rfl⟩ := List.mem_map.mp hline
    have hmem : s ∈ l.statements := List.mem_flatMap.mpr ⟨b, hb, hs⟩
    exact ⟨hl.statements s hmem, hedges s hmem⟩

/-- A function that is what the listing says, as it was read. -/
structure Describes (l : Listing) (f : Function) : Prop where
  outline : f.outline? = some l.asRead.outline
  distinct : f.HasDistinctNames

/-- In front of the brace that opens a body the draft is known, and the body is what its items make
of it. -/
theorem readBody_opened (ctx : Draft.Context) {h : Draft.Header} {d : Draft}
    (hd : Draft.ofHeader h = .ok d) {c : Cursor} {n : Nat} {ms : List Mark}
    (hc : c.Sees (⟨.opener .curly, n⟩ :: ms)) :
    Function.readBody ctx h c
      = (iterate (Function.readBodyItem ctx) d >>= fun d => liftM d.finish) c.advance := by
  obtain ⟨t, _, hcurrent, ht, _⟩ := hc.uncons
  have hopener : c.current.kind = .opener .curly := by rw [hcurrent, ht.kind]
  -- The brace is ahead, so nothing is skipped in front of it.
  have hskip : skipWhile (!Function.opensBody ·) c = .ok ((), c) := by
    have htakes : (skipWhile (!Function.opensBody ·)).Takes [] (fun _ => True)
        (· = .opener .curly) := Takes.skipWhile fun t ht => by rw [Function.opensBody, ht]; rfl
    obtain ⟨_, hskip, _⟩ := htakes c [] rfl c.sees_nil hopener
    exact hskip
  have hexpect : expect (.opener .curly) "'\x7b'" c = .ok ((), c.advance) := by
    have htakes : (expect (.opener .curly) "'\x7b'").Takes [.opener .curly] (fun _ => True)
        fun _ => True := .expect
    have hboth : c.Sees ([⟨.opener .curly, n⟩] ++ ms) := hc
    obtain ⟨_, hexpect, _⟩ := htakes c [⟨.opener .curly, n⟩] rfl hboth.split.1 trivial
    exact hexpect
  have hheader : (liftM (Draft.ofHeader h) : Reader Draft) c.advance = .ok (d, c.advance) := by
    rw [hd]
    rfl
  rw [Function.readBody, bind_of_ok hskip, bind_of_ok hexpect, bind_of_ok hheader]

theorem readBody_listing (ctx : Draft.Context) (hl : l.WellFormed) (hedges : l.HasEdges)
    {h : Draft.Header} (hread : l.HeaderReadAs h) {c : Cursor}
    (hc : c.Sees (⟨.opener .curly, 1⟩ :: lineMarks 2 (l.lines.map Line.kinds))) :
    ∃ f, Function.readBody ctx h c
        = .ok (f, c.past (lineMarks 2 (l.lines.map Line.kinds)).length.succ) ∧ l.Describes f := by
  obtain ⟨d₀, hd₀, hdraft⟩ := exists_ofHeader hl hread
  obtain ⟨_, _, _, _, _, hlines⟩ := hc.uncons
  obtain ⟨d, hloop, hbuilds⟩ :=
    iterate_readBodyItem ctx (readable_lines hl hedges) d₀ hlines
  have hd := hdraft d hbuilds
  obtain ⟨f, hfinish⟩ := exists_finish hd hl
  have hlaid := Draft.finish_spec hfinish
  refine ⟨f, ?_, outline?_of_laidOut hd hl hlaid, distinct_of_laidOut hd hl hlaid⟩
  rw [readBody_opened ctx hd₀ hc, bind_of_ok hloop, hfinish]
  rfl

/-- Behind its header a definition is its body. -/
theorem readDefinition_header (ctx : Draft.Context) (hl : l.WellFormed) {c : Cursor}
    {ms : List Mark}
    (hc : c.Sees ((l.signatureKinds ++ [TokenKind.opener .curly]).map (⟨·, 1⟩) ++ ms)) :
    ∃ h, l.HeaderReadAs h ∧ (c.past l.signatureKinds.length).Sees (⟨.opener .curly, 1⟩ :: ms)
      ∧ (Function.readDefinition ctx c).result
        = Function.readBody ctx h (c.past l.signatureKinds.length) := by
  rw [List.map_append, List.append_assoc] at hc
  obtain ⟨hsignature, hbody⟩ := hc.split
  rw [List.length_map] at hbody
  obtain ⟨h, hheader, hread⟩ :=
    takes_readHeader hl c _ (map_kind_line l.signatureKinds 1) hsignature trivial
  refine ⟨h, hread, hbody, ?_⟩
  rw [Function.readDefinition, hheader]
  rfl

/-! ## Modules -/

/-- A struct is not ahead where the word that marks it is missing. -/
theorem atStruct_eq_false {c : Cursor} (htype : ∀ t ∈ c.rest, t.kind ≠ .word "type")
    (hstop : c.stop.kind = .eof) : Module.atStruct c = false := by
  have hthird : (c.lookahead 2).kind ≠ .word "type" := by
    unfold Cursor.lookahead
    cases hdrop : c.rest.drop 2 with
    | nil => rw [List.headD_nil, hstop]; simp
    | cons t ts =>
      refine htype t (List.mem_of_mem_drop (i := 2) ?_)
      rw [hdrop]
      exact List.mem_cons_self
  unfold Module.atStruct
  split
  · next hword => exact absurd hword hthird
  · rfl

/-- Where nothing is marked as a struct the first sweep finds none. -/
theorem exists_readStructs {c : Cursor} (htype : ∀ t ∈ c.rest, t.kind ≠ .word "type")
    (hstop : c.stop.kind = .eof) (types : TypeTable) :
    ∃ c', iterate Module.readStruct types c = .ok (types, c') := by
  have hdone : ∀ {c : Cursor}, Module.atStruct c = false → c.current.kind = .eof →
      iterate Module.readStruct types c = .ok (types, c) := by
    intro c hno heof
    apply iterate_done
    rw [Module.readStruct]
    refine bind_eq_ok_iff.mpr ⟨c, c, rfl, ?_⟩
    rw [hno, if_neg Bool.false_ne_true]
    exact bind_eq_ok_iff.mpr ⟨true, c, by rw [isAt, heof]; rfl, rfl⟩
  have hagain : ∀ {c : Cursor}, Module.atStruct c = false → c.current.kind ≠ .eof →
      Module.readStruct types c = .ok (.again types, c.advance) := by
    intro c hno heof
    rw [Module.readStruct]
    refine bind_eq_ok_iff.mpr ⟨c, c, rfl, ?_⟩
    rw [hno, if_neg Bool.false_ne_true]
    refine bind_eq_ok_iff.mpr ⟨false, c, ?_, rfl⟩
    rw [isAt, beq_eq_false_iff_ne.mpr heof]
  -- The induction is on the tokens that are left: each round passes one.
  generalize hrest : c.rest = ts
  induction ts generalizing c with
  | nil =>
    refine ⟨c, hdone (atStruct_eq_false htype hstop) ?_⟩
    rw [Cursor.current, hrest, List.headD_nil, hstop]
  | cons t ts ih =>
    by_cases heof : c.current.kind = .eof
    · exact ⟨c, hdone (atStruct_eq_false htype hstop) heof⟩
    · have hadvance : c.advance = { c with lastLine? := some t.line, rest := ts } := by
        rw [Cursor.advance, hrest]
      have hmore : ∀ t ∈ c.advance.rest, t.kind ≠ .word "type" := by
        rw [hadvance]
        exact fun t' ht' => htype t' (hrest ▸ List.mem_cons_of_mem _ ht')
      obtain ⟨c', hc'⟩ := ih hmore (by rw [hadvance]; exact hstop) (by rw [hadvance])
      refine ⟨c', iterate_again (hagain (atStruct_eq_false htype hstop) heof) ?_ hc'⟩
      rw [Cursor.remaining, Cursor.remaining, hadvance, hrest, List.length_cons]
      exact Nat.lt_succ_self _

/-- The second sweep ends where the text ends. -/
theorem readItems_end {ctx : Draft.Context} {t : Token} {bound : List Token} {p : Module.Progress}
    {c : Cursor} (h : c.current.kind = .eof) :
    (Module.readItems ctx (t :: bound) p c).result = .ok p := by
  rw [Module.readItems]
  dsimp only
  rw [h]
  rfl

theorem readItems_define {ctx : Draft.Context} {t : Token} {bound : List Token}
    {p r : Module.Progress} {c : Cursor} (hkind : c.current.kind = .word "define") :
    (Module.readItems ctx (t :: bound) p c).result = .ok r
      ↔ ∃ f c' p', (Function.readDefinition ctx c.advance).result = .ok (f, c')
        ∧ p.push f c.current.start = .ok p' ∧ (Module.readItems ctx bound p' c').result = .ok r := by
  rw [Module.readItems]
  dsimp only
  rw [hkind]
  refine Traced.bind_eq_ok_iff.trans ⟨?_, ?_⟩
  · rintro ⟨⟨f, c'⟩, hf, h⟩
    obtain ⟨p', hp, h⟩ := Traced.bind_eq_ok_iff.mp h
    exact ⟨f, c', p', hf, hp, h⟩
  · rintro ⟨f, c', p', hf, hp, h⟩
    exact ⟨(f, c'), hf, Traced.bind_eq_ok_iff.mpr ⟨p', hp, h⟩⟩

/-- The first function of a module is added whatever its name is. -/
theorem exists_push (f : Function) (position : Position) :
    ∃ p, Module.Progress.push ⟨#[], []⟩ f position = .ok p ∧ p.functions = #[f] := by
  unfold Module.Progress.push
  by_cases hname : f.name = ""
  · rw [if_pos hname]
    exact ⟨_, rfl, rfl⟩
  · rw [if_neg hname]
    exact ⟨_, rfl, rfl⟩

/-- The first token of a header is the word `define`. -/
theorem headerKinds_eq (l : Listing) : l.headerKinds
    = .word "define" :: (l.signatureKinds ++ [TokenKind.opener .curly]) := by
  simp [headerKinds, signatureKinds]

/-- A text that marks no struct is read item by item. -/
theorem read_items {source : String} {s : Token.Stream}
    (hscan : Token.scan source = .ok s) (htype : ∀ t ∈ s.tokens, t.kind ≠ .word "type")
    (hstop : s.stop.kind = .eof) (m : Module) :
    (Module.read source).result = .ok m
      ↔ ∃ p, (Module.readItems ⟨.empty, Module.usesOpaquePointers s.tokens⟩ (s.stop :: s.tokens)
          ⟨#[], []⟩ ⟨none, s.tokens, s.stop⟩).result = .ok p
        ∧ m = ⟨.empty, p.functions.toList, Module.usesOpaquePointers s.tokens⟩ := by
  obtain ⟨c, hstructs⟩ := exists_readStructs (c := ⟨none, s.tokens, s.stop⟩) htype hstop .empty
  have hofStream : (Module.read source).result = (Module.ofStream s).result := by
    rw [Module.read, hscan]
    rfl
  rw [hofStream, Module.ofStream, Module.readStructs, hstructs, Traced.bind_eq_ok_iff]
  constructor
  · rintro ⟨⟨types, c'⟩, hresult, h⟩
    cases hresult
    obtain ⟨p, hp, h⟩ := Traced.bind_eq_ok_iff.mp h
    cases h
    exact ⟨p, hp, rfl⟩
  · rintro ⟨p, hp, hm⟩
    exact ⟨(.empty, c), rfl, Traced.bind_eq_ok_iff.mpr ⟨p, hp, congrArg Except.ok hm.symm⟩⟩

/-- **A text of one definition is read exactly if its body is**, and then as this one function. The
body stands behind the header, which is that of a listing. -/
theorem read_definition (hl : l.WellFormed) {source : String} {ms : List Mark}
    (hcut : Token.Cut .start source.toList (l.headerKinds.map (⟨·, 1⟩) ++ ms))
    (htype : ∀ m ∈ ms, m.kind ≠ .word "type") :
    ∃ ctx h c, l.HeaderReadAs h ∧ c.Sees (⟨.opener .curly, 1⟩ :: ms)
      ∧ ((∃ m, (Module.read source).result = .ok m) → ∃ r, Function.readBody ctx h c = .ok r)
      ∧ ∀ f, Function.readBody ctx h c = .ok (f, c.past ms.length.succ) →
        ∃ m, (Module.read source).result = .ok m ∧ m.functions = [f] := by
  obtain ⟨s, hscan, hmarks, hstop⟩ := hcut
  have hno : ∀ t ∈ s.tokens, t.kind ≠ .word "type" := by
    intro t ht
    obtain ⟨m, hm, hshows⟩ := exists_right_of_forall₂ hmarks ht
    rw [hshows.kind]
    rcases List.mem_append.mp hm with hm | hm
    · obtain ⟨k, hk, rfl⟩ := List.mem_map.mp hm
      exact headerKinds_ne_type l k hk
    · exact htype m hm
  let c : Cursor := ⟨none, s.tokens, s.stop⟩
  have hsees : c.Sees (l.headerKinds.map (⟨·, 1⟩) ++ ms) :=
    ⟨s.tokens, [], (List.append_nil _).symm, hmarks⟩
  have hlength := hmarks.length_eq
  rw [headerKinds_eq, List.map_cons, List.cons_append] at hsees hlength
  rw [List.length_cons, List.length_append, List.length_map, List.length_append,
    List.length_singleton] at hlength
  obtain ⟨t, hrest, hcurrent, ht, _, hmore⟩ := hsees.uncons
  have hkind : c.current.kind = .word "define" := by rw [hcurrent, ht.kind]
  -- No token is left behind the body.
  have hend : ((c.advance.past l.signatureKinds.length).past ms.length.succ).current.kind = .eof := by
    have hremaining := hmore.remaining
    have hadvance := congrArg List.length hrest
    rw [List.length_append, List.length_map, List.length_append, List.length_singleton,
      Nat.add_assoc, Nat.add_comm 1, Cursor.past_add, Cursor.remaining, Cursor.remaining]
      at hremaining
    rw [List.length_cons] at hadvance
    have hall : c.rest.length = s.tokens.length := rfl
    have hnone : ((c.advance.past l.signatureKinds.length).past (ms.length + 1)).rest = [] :=
      List.eq_nil_of_length_eq_zero (by omega)
    have hsame : c.advance.stop = c.stop := c.stop_past 1
    rw [Nat.succ_eq_add_one, Cursor.current, hnone, List.headD_nil, Cursor.stop_past, Cursor.stop_past,
      hsame]
    exact hstop
  obtain ⟨h, hheader, hbody, hdefinition⟩ :=
    readDefinition_header ⟨.empty, Module.usesOpaquePointers s.tokens⟩ hl hmore
  refine ⟨⟨.empty, Module.usesOpaquePointers s.tokens⟩, h, c.advance.past l.signatureKinds.length,
    hheader, hbody, ?_, fun f hf => ?_⟩
  · rintro ⟨m, hm⟩
    obtain ⟨p, hp, _⟩ := (read_items hscan hno hstop m).mp hm
    obtain ⟨f, c', p', hf, _⟩ := (readItems_define hkind).mp hp
    exact ⟨(f, c'), hdefinition ▸ hf⟩
  · obtain ⟨p, hp, hfunctions⟩ := exists_push f c.current.start
    refine ⟨⟨.empty, p.functions.toList, Module.usesOpaquePointers s.tokens⟩,
      (read_items hscan hno hstop _).mpr ⟨p, ?_, rfl⟩, by rw [hfunctions]⟩
    refine (readItems_define hkind).mpr ⟨f, _, p, hdefinition.trans hf, hp, ?_⟩
    have htokens : s.tokens = t :: c.advance.rest := hrest
    rw [htokens]
    exact readItems_end hend

/-- **The text of a well-formed listing is read as one function**, which has the outline of the
listing as it was read. -/
theorem read_text (hl : l.WellFormed) (hedges : l.HasEdges) :
    ∃ m f, (Module.read l.text).result = .ok m ∧ m.functions = [f] ∧ l.Describes f := by
  obtain ⟨ctx, h, c, hheader, hc, _, hread⟩ := read_definition hl (cut_text hl)
    (lineMarks_ne_type hl.sound 2)
  obtain ⟨f, hf, hdescribes⟩ := readBody_listing ctx hl hedges hheader hc
  obtain ⟨m, hm, hfunctions⟩ := hread f hf
  exact ⟨m, f, hm, hfunctions, hdescribes⟩

/-! ## Inversion -/

/-- A form that is read as itself. -/
def Form.Faithful : Form → Prop
  | ret (some value) => value.ty.startsVoid = false
  | phi _ edges => edges ≠ []
  | _ => True

instance (form : Form) : Decidable form.Faithful :=
  match form with
  | .ret (some value) => inferInstanceAs (Decidable (value.ty.startsVoid = false))
  | .phi _ edges => inferInstanceAs (Decidable (edges ≠ []))
  | .ret none | .binary .. | .compare .. | .cast .. | .select .. | .freeze _ | .load ..
  | .store .. | .br _ | .condBr .. | .switch .. => .isTrue trivial

/-- No return has a value whose type starts with `void`, and no phi is without edges. -/
def Faithful (l : Listing) : Prop := ∀ s ∈ l.statements, s.form.Faithful

instance (l : Listing) : Decidable l.Faithful :=
  inferInstanceAs (Decidable (∀ s ∈ l.statements, s.form.Faithful))

theorem Form.faithful_iff (form : Form) : form.Faithful ↔ form.HasEdge ∧ form.asRead = form := by
  cases form with
  | ret value? =>
    cases value? with
    | none => exact ⟨fun _ => ⟨trivial, rfl⟩, fun _ => trivial⟩
    | some value =>
      rw [Form.Faithful, Form.asRead]
      by_cases hvoid : value.ty.startsVoid = true
      · rw [if_pos hvoid, hvoid]
        exact ⟨by simp, by simp⟩
      · rw [if_neg hvoid]
        exact ⟨fun _ => ⟨trivial, rfl⟩, fun _ => Bool.eq_false_iff.mpr hvoid⟩
  | phi ty edges => exact ⟨fun h => ⟨h, rfl⟩, fun h => h.1⟩
  | _ => exact ⟨fun _ => ⟨trivial, rfl⟩, fun _ => trivial⟩

theorem Faithful.hasEdges (h : l.Faithful) : l.HasEdges :=
  fun s hs => ((Form.faithful_iff _).mp (h s hs)).1

theorem Faithful.asRead_eq (h : l.Faithful) : l.asRead = l := by
  have hstatements : ∀ b ∈ l.blocks, b.statements.map Statement.asRead = b.statements := by
    intro b hb
    refine (List.map_congr_left fun s hs => ?_).trans (List.map_id b.statements)
    rw [Statement.asRead,
      ((Form.faithful_iff _).mp (h s (List.mem_flatMap.mpr ⟨b, hb, hs⟩))).2]
    rfl
  -- The statements stay the same, and so do the blocks that hold them.
  have hblocks : l.blocks.map Block.asRead = l.blocks := by
    refine (List.map_congr_left fun b hb => ?_).trans (List.map_id l.blocks)
    rw [Block.asRead, hstatements b hb]
    rfl
  rw [asRead, hblocks]

/-- A return that has lost its value does not look like the return that was written. -/
theorem Form.asRead_eq_of_uses {form : Form} (h : form.asRead.uses = form.uses) :
    form.asRead = form := by
  rcases form.asRead_cases with hread | ⟨⟨value, rfl, _⟩, hread⟩
  · exact hread
  · rw [hread] at h
    cases h

/-- Only what is read as itself keeps its outline. -/
theorem asRead_form_eq (h : l.asRead.outline = l.outline) :
    ∀ s ∈ l.statements, s.form.asRead = s.form := by
  intro s hs
  obtain ⟨b, hb, hs⟩ := List.mem_flatMap.mp hs
  have hblocks := congrArg Outline.blocks h
  rw [outline, outline, asRead, List.map_map] at hblocks
  have hblock := congrArg Prod.snd (List.map_inj_left.mp hblocks b hb)
  dsimp only [Function.comp_apply] at hblock
  rw [Block.asRead, List.map_map] at hblock
  exact Form.asRead_eq_of_uses (congrArg Outline.Instr.uses (List.map_inj_left.mp hblock s hs))

/-- What a walk arrives at comes from something on the way. -/
theorem exists_of_mem_mapM {α β : Type} {g : α → Option β} {xs : List α} {ys : List β} {y : β}
    (h : xs.mapM g = some ys) (hy : y ∈ ys) : ∃ x ∈ xs, g x = some y := by
  obtain ⟨x, hx, hg⟩ := exists_left_of_forall₂ (forall₂_of_mapM h) hy
  exact ⟨x, hx, hg⟩

/-- A statement in the outline of a function is one of its instructions. -/
theorem exists_instr {f : Function} (hf : f.outline? = some l.outline) {s : Statement}
    (hs : s ∈ l.statements) : ∃ i ∈ f.instrs, f.instrOutline? i = some s.outline := by
  obtain ⟨b, hb, hs⟩ := List.mem_flatMap.mp hs
  unfold Function.outline? at hf
  obtain ⟨params, _, hf⟩ := Option.bind_eq_some_iff.mp hf
  obtain ⟨blocks, hblocks, hf⟩ := Option.bind_eq_some_iff.mp hf
  have hsame : blocks = l.outline.blocks := congrArg Outline.blocks (Option.some.inj hf)
  have hmem : (b.name, b.statements.map Statement.outline) ∈ blocks := by
    rw [hsame]
    exact List.mem_map.mpr ⟨b, hb, rfl⟩
  obtain ⟨b', _, hb'⟩ := exists_of_mem_mapM hblocks hmem
  obtain ⟨instrs, hinstrs, heq⟩ := Option.bind_eq_some_iff.mp hb'
  have hin : s.outline ∈ instrs := by
    have hstatements : instrs = b.statements.map Statement.outline :=
      congrArg Prod.snd (Option.some.inj heq)
    rw [hstatements]
    exact List.mem_map.mpr ⟨s, hs, rfl⟩
  obtain ⟨id, _, hid⟩ := exists_of_mem_mapM hinstrs hin
  obtain ⟨i, hi, hid⟩ := Option.bind_eq_some_iff.mp hid
  exact ⟨i, Array.mem_of_getElem? hi, hid⟩

/-- No function that has been read has a phi without edges. -/
theorem hasEdges_of_isRead {f : Function} (hread : f.IsRead) (hf : f.outline? = some l.outline) :
    l.HasEdges := by
  obtain ⟨d, hd, hfinish⟩ := hread
  rintro ⟨result?, form⟩ hs
  cases form with
  | phi ty edges =>
    rintro rfl
    obtain ⟨i, hi, hinstr⟩ := exists_instr hf hs
    unfold Function.instrOutline? at hinstr
    obtain ⟨result, _, hinstr⟩ := Option.bind_eq_some_iff.mp hinstr
    obtain ⟨uses, huses, hinstr⟩ := Option.bind_eq_some_iff.mp hinstr
    obtain ⟨incoming, _, hinstr⟩ := Option.bind_eq_some_iff.mp hinstr
    have hphi : i.opcode = .phi := congrArg Outline.Instr.opcode (Option.some.inj hinstr)
    have hnone : uses = [] := congrArg Outline.Instr.uses (Option.some.inj hinstr)
    -- A phi is recorded with one operand for each edge, and reading leaves none without operands.
    apply (Draft.finish_spec hfinish).operands_ne_nil hd hi hphi
    cases hoperands : i.operands with
    | nil => rfl
    | cons id ids =>
      rw [hoperands, hnone, List.mapM_cons] at huses
      obtain ⟨_, _, huses⟩ := Option.bind_eq_some_iff.mp huses
      obtain ⟨_, _, huses⟩ := Option.bind_eq_some_iff.mp huses
      cases huses
  | _ => trivial

/-- **Reading undoes writing, exactly where every form is read as itself.** The function that is
written as a well-formed listing is the only one that is read from its text, names, types, blocks,
opcodes, predicates and operands included, unless a return loses a value whose type starts with
`void` or a phi has no edges. -/
theorem read_text_iff {f : Function} (hl : l.WellFormed) (hf : f.outline? = some l.outline) :
    (∃ m g, (Module.read l.text).result = .ok m ∧ m.functions = [g] ∧ g.outline? = f.outline?
      ∧ g.HasDistinctNames) ↔ l.Faithful := by
  rw [hf]
  constructor
  · rintro ⟨m, g, hread, hg, houtline, _⟩
    -- What the text was read as is known from its listing, so it is only to be compared.
    have hmem : g ∈ m.functions := by rw [hg]; exact List.mem_singleton_self g
    have hedges := hasEdges_of_isRead ((Module.read_spec hread).1 g hmem) houtline
    obtain ⟨m', g', hread', hg', hdescribes⟩ := read_text hl hedges
    cases hread.symm.trans hread'
    cases hg.symm.trans hg'
    have hsame := Option.some.inj (hdescribes.outline.symm.trans houtline)
    exact fun s hs => (Form.faithful_iff _).mpr ⟨hedges s hs, asRead_form_eq hsame s hs⟩
  · intro h
    obtain ⟨m, g, hread, hg, hdescribes⟩ := read_text hl h.hasEdges
    refine ⟨m, g, hread, hg, ?_, hdescribes.distinct⟩
    rw [hdescribes.outline, h.asRead_eq]

/-- A loop, with a phi that names a value from further down. -/
def loopListing : Listing where
  name := "count"
  ret := .int 32
  vararg := false
  params := [("n", .int 32)]
  blocks := [
    ⟨"entry", [⟨none, .br "loop"⟩]⟩,
    ⟨"loop", [
      ⟨some "i", .phi (.int 32) [(.numeral "0", "entry"), (.reference "next", "loop")]⟩,
      ⟨some "next", .binary .add (.int 32) (.reference "i") (.numeral "1")⟩,
      ⟨some "more", .compare (.int .slt) (.int 32) (.reference "next") (.reference "n")⟩,
      ⟨none, .condBr ⟨.int 1, .reference "more"⟩ "loop" "done"⟩]⟩,
    ⟨"done", [⟨none, .ret (some ⟨.int 32, .reference "i"⟩)⟩]⟩]

/-- The function that is written as `loopListing`. -/
def loopFunction : Function where
  name := "count"
  ret := .int 32
  vararg := false
  args := [0]
  blocks := #[⟨"entry", 1, [0]⟩, ⟨"loop", 2, [1, 2, 3, 4]⟩, ⟨"done", 3, [5]⟩]
  values := #[⟨"n", none, .int 32, .argument 0⟩, ⟨"entry", none, .label, .block 0⟩,
    ⟨"loop", none, .label, .block 1⟩, ⟨"done", none, .label, .block 2⟩,
    ⟨"", none, .void, .instruction 0⟩, ⟨"i", none, .int 32, .instruction 1⟩,
    ⟨"next", none, .int 32, .instruction 2⟩, ⟨"more", none, .int 1, .instruction 3⟩,
    ⟨"", none, .void, .instruction 4⟩, ⟨"", none, .void, .instruction 5⟩,
    .constant (.int 32) "0", .constant (.int 32) "1"]
  instrs := #[⟨4, .br, [2], .plain⟩, ⟨5, .phi, [10, 6], .phi [0, 1]⟩,
    ⟨6, .binary .add, [5, 11], .plain⟩, ⟨7, .icmp, [6, 0], .compare (.int .slt)⟩,
    ⟨8, .br, [7, 3, 2], .plain⟩, ⟨9, .ret, [5], .plain⟩]

/-- A function that returns the function it is given. -/
def callbackListing : Listing where
  name := "f"
  ret := .pointer (.function .void [] false) 0
  vararg := false
  params := [("x", .pointer (.function .void [] false) 0)]
  blocks := [⟨"entry",
    [⟨none, .ret (some ⟨.pointer (.function .void [] false) 0, .reference "x"⟩)⟩]⟩]

/-- The function that is written as `callbackListing`. -/
def callbackFunction : Function where
  name := "f"
  ret := .pointer (.function .void [] false) 0
  vararg := false
  args := [0]
  blocks := #[⟨"entry", 1, [0]⟩]
  values := #[⟨"x", none, .pointer (.function .void [] false) 0, .argument 0⟩,
    ⟨"entry", none, .label, .block 0⟩, ⟨"", none, .void, .instruction 0⟩]
  instrs := #[⟨2, .ret, [0], .plain⟩]

/-- The loop is read back, and the function that returns a `void ()*` is not. -/
theorem read_text_iff_loop :
    (∃ m g, (Module.read loopListing.text).result = .ok m ∧ m.functions = [g]
      ∧ g.outline? = loopFunction.outline? ∧ g.HasDistinctNames)
    ∧ ¬ ∃ m g, (Module.read callbackListing.text).result = .ok m ∧ m.functions = [g]
      ∧ g.outline? = callbackFunction.outline? ∧ g.HasDistinctNames := by
  have hloop : loopListing.Faithful := by decide
  have hcallback : ¬ callbackListing.Faithful := by decide
  exact ⟨(read_text_iff (by decide +kernel) (by decide +kernel)).mpr hloop,
    fun h => hcallback ((read_text_iff (by decide +kernel) (by decide +kernel)).mp h)⟩

end Listing

end IrRecords
