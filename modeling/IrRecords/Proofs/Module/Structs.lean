import IrRecords.Proofs.Module.SameReading
import IrRecords.Proofs.Reader.Placing
import IrRecords.Proofs.Ty.Borders
import IrRecords.Proofs.Ty.Passing
import IrRecords.Proofs.Ty.Tables

/-!
# The structs of a text that is put together

The first sweep over a text goes from token to token and looks for definitions of structs. What it finds
does not depend on what has been found before (`readStruct_eq`), nor on where a part of the text stands.
So it finds in a text that is put together from parts what it finds in the parts, one after the other
(`readStructs_of_defines`).
-/

namespace IrRecords.Module

open Reader

variable {types types' : TypeTable} {B : Border} {c c' later : Cursor} {d : Diagnostic}
  {s : Token.Stream} {ds : List (String × StructBody)}

/-! ## One step of the sweep -/

/-- The definition of a struct. -/
def readNamed : Reader (String × StructBody) := do
  match ← kind with
  | .localRef id =>
    let name := Ty.structName id
    advance
    expect .equal "'='"
    expectWord "type"
    return (name, ← readStructBody name)
  | _ => unexpected "a type name"

/-- What is found in a token that begins no definition: nothing, or the end of the text. -/
def passToken : Reader (Option (List (String × StructBody))) := do
  if ← isAt .eof then return none
  else
    advance
    return some []

/-- What the next step of the sweep finds. -/
def structAhead : Reader (Option (List (String × StructBody))) := do
  if atStruct (← get) then return some [← readNamed] else passToken

/-- What becomes of a table. -/
def enter (types : TypeTable) : Option (List (String × StructBody)) → Round TypeTable TypeTable
  | none => .done types
  | some ds => .again (types.insertAll ds)

theorem readStruct_eq (types : TypeTable) :
    readStruct types = (do return enter types (← structAhead)) := by
  rw [readStruct, structAhead, bind_assoc]
  congr 1
  funext c
  split
  · rw [readNamed, bind_assoc, bind_assoc]
    congr 1
    funext k
    cases k with
    | localRef id => simp only [bind_assoc, pure_bind, enter, TypeTable.insertAll, List.foldl]
    | _ => rfl
  · rw [passToken, bind_assoc]
    congr 1
    funext ends
    split <;> rfl

theorem goesForward_readStructBody (name : String) : (readStructBody name).GoesForward := by
  intro c
  rw [readStructBody]
  refine ((neutral_acceptWord _).passes c).bind fun bodiless _ c₁ _ => ?_
  split
  · exact .pure trivial
  · refine .position ((Ty.neutral_read.passes c₁).bind fun ty _ _ _ => ?_)
    split
    · exact .pure trivial
    · exact .failAt

theorem passesFrom_structAhead (c : Cursor) : PassesFrom c structAhead fun found ts =>
    found ≠ none → ts ≠ [] := by
  -- A definition passes its name, and everything else one token, unless the row is at its end.
  have hnamed : PassesFrom c readNamed fun _ ts => ts ≠ [] := by
    rw [readNamed]
    refine .kind ?_
    split
    · next id hid =>
      refine .advance (by rw [hid]; exact TokenKind.noConfusion) fun c₁ _ => ?_
      refine (passesFrom_expect TokenKind.noConfusion _).bind fun _ _ c₂ _ => ?_
      refine ((neutral_expectWord _).passes c₂).bind fun _ _ c₃ _ => ?_
      have hbody := goesForward_readStructBody (Ty.structName id) c₃
      exact hbody.bind fun _ _ _ _ => .pure (List.cons_ne_nil _ _)
    · exact .unexpected
  have hother : PassesFrom c passToken fun found ts => found ≠ none → ts ≠ [] := by
    rw [passToken]
    refine .isAt ?_
    split
    · exact .pure fun h => absurd rfl h
    · next hc =>
      rw [beq_iff_eq] at hc
      exact .advance hc fun _ _ => .pure fun _ => List.cons_ne_nil _ _
  rw [structAhead]
  intro hstop found later hread
  change (if atStruct c then _ else _ : Reader _) c = _ at hread
  split at hread
  · have hfound : PassesFrom c (readNamed >>= fun d => Pure.pure (some [d]))
        fun found ts => found ≠ none → ts ≠ [] :=
      hnamed.bind fun _ ts _ hts => .pure fun _ => by rwa [List.append_nil]
    exact hfound hstop _ _ hread
  · exact hother hstop _ _ hread

theorem productive_readStruct : Productive readStruct := by
  intro types c
  rw [readStruct_eq]
  refine (passesFrom_structAhead c).bind fun found ts c₁ hfound => .pure ?_
  rintro types' hround
  rw [List.append_nil]
  refine hfound ?_
  rintro rfl
  cases hround

theorem atStruct_eq_false
    (h : (c.lookahead 1).kind ≠ .equal ∨ (c.lookahead 2).kind ≠ .word "type") :
    atStruct c = false := by
  rw [atStruct]
  split
  · next hequal htype => exact absurd htype (h.resolve_left fun h => h hequal)
  · rfl

/-- No part begins in the middle of the definition of a struct. -/
theorem atStruct_eq (hc : B.Beside c c') (hin : c.rest ≠ []) : atStruct c' = atStruct c := by
  obtain ⟨t, ts, hrest⟩ := List.exists_cons_of_ne_nil hin
  have hequal : (B.behind.headD B.stop').kind ≠ .equal := fun h => by
    have hstarts := B.starts
    rw [h] at hstarts
    cases hstarts
  have htype : (B.behind.headD B.stop').kind ≠ .word "type" := fun h => by
    have hstarts := B.starts
    rw [h] at hstarts
    exact absurd hstarts (by decide)
  -- Three tokens decide. Those that the first row no longer has are the first ones behind it in the
  -- second, where a part starts, and none starts with an equals sign or with `type`.
  cases ts with
  | nil =>
    rw [atStruct_eq_false (.inl ?_), atStruct_eq_false (.inl ?_)]
    · rw [Cursor.lookahead, hrest, hc.stop, List.drop_one, List.tail_cons, List.headD_nil, B.eof]
      exact TokenKind.noConfusion
    · rw [Cursor.lookahead, hc.rest, hrest, hc.stop']
      exact hequal
  | cons u us =>
    cases us with
    | nil =>
      rw [atStruct_eq_false (.inr ?_), atStruct_eq_false (.inr ?_)]
      · rw [Cursor.lookahead, hrest, hc.stop]
        exact B.eof ▸ TokenKind.noConfusion
      · rw [Cursor.lookahead, hc.rest, hrest, hc.stop']
        exact htype
    | cons v us =>
      rw [atStruct, atStruct, hc.current hin]
      simp only [Cursor.lookahead, hc.rest, hrest, List.cons_append]
      rfl

theorem extends_readStructBody (name : String) : Local B (readStructBody name) := by
  rw [readStructBody]
  refine (extends_acceptWord rfl).bind fun bodiless => ?_
  split
  · exact extends_pure _
  · refine .position (fun p => ExtendsInside.bind Ty.extends_read.inside fun ty => ?_)
      fun p => Starves.bind Ty.starves_read
    split
    · exact extends_pure _
    · exact extends_failAt _ _

theorem extendsInside_structAhead : ExtendsInside B structAhead structAhead := by
  have hnamed : ExtendsInside B readNamed readNamed := by
    rw [readNamed]
    refine .kind fun k => ?_
    split
    · refine extendsInside_advance.bind fun _ => ?_
      refine (extends_expect TokenKind.noConfusion _).bind fun _ => ?_
      refine (extends_expectWord _).bind fun _ => (extends_readStructBody _).bind fun _ => ?_
      exact extends_pure _
    · exact (extends_unexpected _).inside
  have hother : ExtendsInside B passToken passToken := by
    rw [passToken]
    refine .isAt fun ends => ?_
    split
    · exact (extends_pure _).inside
    · exact extendsInside_advance.bind fun _ => extends_pure _
  rw [structAhead]
  intro c c' hc hin
  change B.Outcome ((if atStruct c then _ else _ : Reader _) c)
    ((if atStruct c' then _ else _ : Reader _) c')
  rw [atStruct_eq hc hin]
  split
  · exact (hnamed.bind fun _ => extends_pure _) c c' hc hin
  · exact hother c c' hc hin

theorem extendsInside_readStruct (types : TypeTable) :
    ExtendsInside B (readStruct types) (readStruct types) := by
  rw [readStruct_eq]
  exact extendsInside_structAhead.bind fun _ => extends_pure _

/-- The same definitions are seen where lines begin with the same tokens. -/
theorem sameStructs_of_first {T : Twins}
    (hfirst : ∀ p p', T.Moves p p' → (p'.column = 1 ↔ p.column = 1)) : SameStructs T := by
  intro c c' hc
  rw [atStruct, atStruct, hc.current.kind, (hc.lookahead 1).kind, (hc.lookahead 2).kind]
  split
  · next hk _ _ =>
    rw [Bool.eq_iff_iff, beq_iff_eq, beq_iff_eq]
    exact hfirst _ _ (moves_current hc (by rw [hk]; exact TokenKind.noConfusion))
  · rfl

/-- The same definitions are seen further down. -/
theorem sameStructs_of_column {T : Twins} (hcolumn : ∀ p p', T.Moves p p' → p'.column = p.column) :
    SameStructs T :=
  sameStructs_of_first fun p p' h => by rw [hcolumn p p' h]

/-! ## What is found does not depend on what has been found -/

theorem readStruct_eq_ok_iff {round : Round TypeTable TypeTable} :
    readStruct types c = .ok (round, later)
      ↔ ∃ found, structAhead c = .ok (found, later) ∧ round = enter types found := by
  rw [readStruct_eq, bind_eq_ok_iff]
  constructor
  · rintro ⟨found, c₁, hfound, hround⟩
    cases hround
    exact ⟨found, hfound, rfl⟩
  · rintro ⟨found, hfound, rfl⟩
    exact ⟨found, later, hfound, rfl⟩

theorem readStruct_eq_error_iff : readStruct types c = .error d ↔ structAhead c = .error d := by
  rw [readStruct_eq]
  cases h : structAhead c with
  | error d' =>
    simp only [Bind.bind, StateT.bind, h, Except.bind, Except.error.injEq]
  | ok x =>
    obtain ⟨found, later⟩ := x
    rw [bind_of_ok h]
    exact ⟨nofun, nofun⟩

theorem exists_insertAll_of_rounds (h : Rounds readStruct types c types' later) :
    ∃ ds, types' = types.insertAll ds
      ∧ ∀ types, Rounds readStruct types c (types.insertAll ds) later := by
  induction h with
  | refl types c => exact ⟨[], rfl, fun types => .refl types c⟩
  | @again types types₁ types' c c₁ later h _ ih =>
    obtain ⟨found, hfound, hround⟩ := readStruct_eq_ok_iff.mp h
    cases found with
    | none => cases hround
    | some ds =>
      cases hround
      obtain ⟨ds', rfl, hrounds⟩ := ih
      refine ⟨ds ++ ds', types.insertAll_append ds ds' |>.symm, fun types => ?_⟩
      rw [TypeTable.insertAll_append]
      exact .again (readStruct_eq_ok_iff.mpr ⟨some ds, hfound, rfl⟩) (hrounds _)

/-- The sweep ends at the end of the text. -/
theorem current_of_done (h : readStruct types c = .ok (.done types', later)) :
    c.current.kind = .eof ∧ later = c ∧ types' = types := by
  obtain ⟨found, hfound, hround⟩ := readStruct_eq_ok_iff.mp h
  cases found with
  | some ds => cases hround
  | none =>
    cases hround
    rw [structAhead] at hfound
    change (if atStruct c then _ else _ : Reader _) c = _ at hfound
    split at hfound
    · obtain ⟨_, _, _, h⟩ := bind_eq_ok_iff.mp hfound
      cases h
    · change (if (c.current.kind == .eof) = true then _ else _ : Reader _) c = _ at hfound
      split at hfound
      · next heof =>
        cases hfound
        exact ⟨beq_iff_eq.mp heof, rfl, rfl⟩
      · cases hfound

theorem readStruct_of_end (types : TypeTable) (hend : c.rest = []) (heof : c.stop.kind = .eof) :
    readStruct types c = .ok (.done types, c) := by
  have hkind : ∀ n, (c.lookahead n).kind = .eof := fun n => by
    rw [Cursor.lookahead, hend, List.drop_nil, List.headD_nil, heof]
  have hno : atStruct c = false := atStruct_eq_false (.inl (by rw [hkind]; exact TokenKind.noConfusion))
  have hcurrent : (c.current.kind == .eof) = true := beq_iff_eq.mpr (hkind 0)
  refine readStruct_eq_ok_iff.mpr ⟨none, ?_, rfl⟩
  rw [structAhead]
  change (if atStruct c then _ else _ : Reader _) c = _
  rw [hno, if_neg Bool.false_ne_true, passToken]
  change (if (c.current.kind == .eof) = true then _ else _ : Reader _) c = _
  rw [if_pos hcurrent]
  rfl

/-! ## Parts -/

/-- In the text the structs `ds` are defined, one after the other. -/
def Defines (s : Token.Stream) (ds : List (String × StructBody)) : Prop :=
  ∀ types, ∃ c, Rounds readStruct types s.start (types.insertAll ds) c ∧ c.rest = []

/-- The text is refused for one of its structs. -/
def RefusesStructs (s : Token.Stream) : Prop :=
  ∃ d, ∀ types, ∃ types' c, Rounds readStruct types s.start types' c
    ∧ readStruct types' c = .error d

variable {ss : List Token.Stream} {line : Nat} {dss : List (List (String × StructBody))} {T : Twins}

/-- The sweep over a text goes through to its end or to a failure. -/
theorem defines_or_refuses (hlexed : ∀ t ∈ s.tokens, t.Lexed) (hstop : s.stop.kind = .eof) :
    (∃ ds, Defines s ds) ∨ RefusesStructs s := by
  obtain ⟨types₁, c₁, hrounds, hc₁, hlast⟩ :=
    exists_last_round productive_readStruct TypeTable.empty (c := s.start) hstop
  obtain ⟨ds, rfl, hall⟩ := exists_insertAll_of_rounds hrounds
  rcases hlast with ⟨d, hd⟩ | ⟨types', later, hdone⟩
  · refine .inr ⟨d, fun types => ⟨_, c₁, hall types, ?_⟩⟩
    exact readStruct_eq_error_iff.mpr (readStruct_eq_error_iff.mp hd)
  · refine .inl ⟨ds, fun types => ⟨c₁, hall types, ?_⟩⟩
    have heof := (current_of_done hdone).1
    obtain ⟨ts, hts⟩ := hrounds.exists_reaches productive_readStruct hstop
    rw [Cursor.current] at heof
    cases hrest : c₁.rest with
    | nil => rfl
    | cons t us =>
      rw [hrest, List.headD_cons] at heof
      have ht : t ∈ s.tokens := by
        have hall : s.tokens = ts ++ c₁.rest := hts.rest
        rw [hall, hrest]
        exact List.mem_append_right ts List.mem_cons_self
      exact absurd heof (hlexed t ht).kind_ne_eof

theorem RefusesStructs.exists_error (h : RefusesStructs s) (hstop : s.stop.kind = .eof) :
    ∃ d, readStructs s.start = .error d
      ∧ ∀ types, ∃ types' c, Rounds readStruct types s.start types' c
        ∧ readStruct types' c = .error d := by
  obtain ⟨d, hd⟩ := h
  obtain ⟨types', c, hrounds, herror⟩ := hd TypeTable.empty
  refine ⟨d, ?_, hd⟩
  rw [readStructs, hrounds.iterate_eq productive_readStruct hstop, iterate_of_error herror]

/-! ## Parts in their places -/

theorem agrees_readStruct (hcolumn : ∀ p p', T.Moves p p' → p'.column = p.column)
    (types types' : TypeTable) (h : types = types') :
    Agrees T (SameRound Eq Eq) (readStruct types) (readStruct types') := by
  subst h
  exact (steady_readStruct (sameStructs_of_column hcolumn) types).mono fun _ _ => sameRound_eq

/-- Over a part in its place the sweep makes the rounds that it makes over the part by itself. -/
theorem exists_iterate_eq (hplace : IsPlace T B s ss c) (hstop : c.stop.kind = .eof)
    (h : Rounds readStruct types s.start types' later) :
    ∃ c₁, iterate readStruct types c = iterate readStruct types' c₁ ∧ Placed T B later c₁ := by
  obtain ⟨_, c₁, hrounds, rfl, hc₁⟩ := h.placed productive_readStruct extendsInside_readStruct
    (agrees_readStruct hplace.column) rfl hplace.placed
  exact ⟨c₁, hrounds.iterate_eq productive_readStruct hstop, hc₁⟩

/-- The sweep over a text that is put together goes over its parts, one after the other. -/
theorem exists_rounds_of_defines (hc : c.AtRows line ss) (hparts : ∀ s ∈ ss, s.StartsPart)
    (hdss : List.Forall₂ Defines ss dss) (types : TypeTable) :
    ∃ later, Rounds readStruct types c (types.insertAll dss.flatten) later ∧ later.rest = [] := by
  induction hdss generalizing line c types with
  | nil => exact ⟨c, .refl _ c, hc.rest_eq_nil⟩
  | @cons s ds ss dss hds _ ih =>
    rw [List.forall_mem_cons] at hparts
    obtain ⟨T, B, hplace⟩ := exists_isPlace hc hparts.1.stop hparts.2
    obtain ⟨c₁, hrounds, hend⟩ := hds types
    obtain ⟨_, c₁', hrounds', rfl, hc₁⟩ := hrounds.placed productive_readStruct extendsInside_readStruct
      (agrees_readStruct hplace.column) rfl hplace.placed
    obtain ⟨later, hrest, hlater⟩ := ih (hplace.atRows hc₁ hend) hparts.2 (types.insertAll ds)
    refine ⟨later, ?_, hlater⟩
    rw [List.flatten_cons, TypeTable.insertAll_append]
    exact hrounds'.trans hrest

/-- The sweep ends where nothing is left. -/
theorem iterate_of_rounds {types' : TypeTable} (h : Rounds readStruct types c types' later)
    (hend : later.rest = []) (hc : c.stop.kind = .eof) :
    iterate readStruct types c = .ok (types', later) := by
  obtain ⟨ts, hts⟩ := h.exists_reaches productive_readStruct hc
  rw [h.iterate_eq productive_readStruct hc]
  exact iterate_done (readStruct_of_end _ hend (hts.stop ▸ hc))

/-- **In a text that is put together the structs of its parts are found, one after the other.** -/
theorem readStructs_of_defines (hc : c.AtRows line ss) (hparts : ∀ s ∈ ss, s.StartsPart)
    (hdss : List.Forall₂ Defines ss dss) (types : TypeTable) :
    ∃ later, iterate readStruct types c = .ok (types.insertAll dss.flatten, later) := by
  obtain ⟨later, hrounds, hend⟩ := exists_rounds_of_defines hc hparts hdss types
  exact ⟨later, iterate_of_rounds hrounds hend hc.stop⟩

/-- What is found in a text is found in it only. -/
theorem Defines.insertAll_eq {ds ds' : List (String × StructBody)} (h : Defines s ds) (h' : Defines s ds')
    (hs : s.stop.kind = .eof) (types : TypeTable) : types.insertAll ds = types.insertAll ds' := by
  obtain ⟨c, hrounds, hend⟩ := h types
  obtain ⟨c', hrounds', hend'⟩ := h' types
  have hstart := iterate_of_rounds hrounds hend (c := s.start) hs
  rw [iterate_of_rounds hrounds' hend' (c := s.start) hs, Except.ok.injEq, Prod.mk.injEq] at hstart
  exact hstart.1.symm

/-- If a part is refused for one of its structs, in which nothing is missing, so is the text, and not
because something is missing. -/
theorem exists_error_of_refusesStructs (hc : c.AtRows line ss) (hparts : ∀ s ∈ ss, s.StartsPart)
    (hcomplete : ∀ s ∈ ss, Complete (readStructs s.start))
    (hlexed : ∀ s ∈ ss, ∀ t ∈ s.tokens, t.Lexed) (h : ∃ s ∈ ss, ∀ ds, ¬ Defines s ds)
    (types : TypeTable) : ∃ d, iterate readStruct types c = .error d ∧ d.fault.wantsMore = false := by
  -- Any part can be the one that is refused, and the parts in front of it fill the table, so the
  -- induction is on the parts for every table.
  induction ss generalizing line c types with
  | nil =>
    obtain ⟨_, hs, _⟩ := h
    cases hs
  | cons s ss ih =>
    rw [List.forall_mem_cons] at hparts hcomplete hlexed
    have hstop := hparts.1.stop
    obtain ⟨T, B, hplace⟩ := exists_isPlace hc hstop hparts.2
    rcases defines_or_refuses hlexed.1 hstop with ⟨ds, hds⟩ | hrefuses
    · obtain ⟨c₁, hrounds, hend⟩ := hds types
      obtain ⟨c₁', hsame, hc₁⟩ := exists_iterate_eq hplace hc.stop hrounds
      rw [hsame]
      refine ih (hplace.atRows hc₁ hend) hparts.2 hcomplete.2 hlexed.2 ?_ _
      obtain ⟨s', hs', hno⟩ := h
      rcases List.mem_cons.mp hs' with rfl | hs'
      · exact absurd hds (hno ds)
      · exact ⟨s', hs', hno⟩
    · obtain ⟨d, hfails, hd⟩ := hrefuses.exists_error hstop
      obtain ⟨types', c₁, hrounds, herror⟩ := hd types
      obtain ⟨c₁', hsame, mid, hfacing, hbeside⟩ := exists_iterate_eq hplace hc.stop hrounds
      have hin : mid.rest ≠ [] := by
        -- A part that is used up would have ended its loop and not failed it.
        intro hmid
        have hrest := hfacing.rest
        rw [hmid] at hrest
        obtain ⟨ts, hts⟩ := hrounds.exists_reaches productive_readStruct hstop
        have hdone := readStruct_of_end types' (List.forall₂_nil_right_iff.mp hrest) (hts.stop ▸ hstop)
        rw [herror] at hdone
        cases hdone
      have hcarried := Carried.intro (agrees_readStruct hplace.column types' _ rfl c₁ mid hfacing)
        (extendsInside_readStruct types' mid c₁' hbeside hin)
      have hround : Complete (readStruct types' c₁) := by
        intro d' hd'
        rw [herror, Except.error.injEq] at hd'
        exact hd' ▸ hcomplete.1 d hfails
      obtain ⟨d', hd', hfault⟩ := hcarried.exists_error herror hround
      exact ⟨d', by rw [hsame, iterate_of_error hd'], hfault⟩

end IrRecords.Module
