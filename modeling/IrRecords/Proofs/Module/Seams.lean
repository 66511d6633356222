import IrRecords.Proofs.Function.Seams
import IrRecords.Proofs.Module.Loops
import IrRecords.Proofs.Module.Structs

/-!
# Modules up to a seam

Both sweeps over a text do in front of the seam what they did before. In the first one, the definition of
a struct is told by three tokens, and none of those that may be put in is the second or the third of them
(`feeds_readStruct`). In the second one, functions and whatever else there is are passed one after the
other (`PassesItems`).
-/

namespace IrRecords.Module

open Reader

variable {S : Seam} {c c' later : Cursor} {ahead : List Token}

/-! ## Structs -/

theorem feeds_readStructBody (name : String) : Feeds S (readStructBody name) (readStructBody name) := by
  rw [readStructBody]
  refine .accept (copies_pure _) (.position fun p => Ty.feeds_read.bind fun ty => ?_)
  split
  · exact copies_pure _
  · exact (feeds_failAt _ _).toCopies

theorem feeds_readNamed : Feeds S readNamed readNamed := by
  rw [readNamed]
  refine .kind fun k => ?_
  split
  · refine feeds_advance.feeds fun _ => (feeds_expect _ _).feeds fun _ => ?_
    exact (feeds_expectWord _).feeds fun _ => (feeds_readStructBody _).bind fun _ => copies_pure _
  · exact feeds_unexpected _

/-- The name, the equals sign and the word are passed. -/
theorem passesFrom_readNamed (c : Cursor) : PassesFrom c readNamed fun _ ts => 3 ≤ ts.length := by
  rw [readNamed]
  refine .kind ?_
  split
  · next id hid =>
    refine .advance (by rw [hid]; exact TokenKind.noConfusion) fun c₁ _ => ?_
    refine (passesFrom_expect TokenKind.noConfusion _).bind fun _ ts c₂ hts => ?_
    refine (passesFrom_expect TokenKind.noConfusion _).bind fun _ us c₃ hus => ?_
    refine (goesForward_readStructBody (Ty.structName id) c₃).bind fun _ vs _ _ => .pure ?_
    rw [hts.1, hus.1]
    simp
  · exact .unexpected

/-- A definition that begins at most two tokens in front of the seam goes on behind it. -/
theorem remaining_readNamed_lt {x : String × StructBody} (hc : S.Beside ahead c c')
    (hlength : ahead.length ≤ 2) (h : readNamed c = .ok (x, later)) :
    later.remaining < S.behind.length := by
  obtain ⟨ts, hts, hthree⟩ := passesFrom_readNamed c (hc.stop ▸ S.eof) x later h
  have hall := congrArg List.length hts.rest
  rw [hc.rest, List.length_append, List.length_append] at hall
  rw [Cursor.remaining]
  omega

theorem atStruct_congr (hcurrent : c'.current = c.current)
    (hnext : (c'.lookahead 1).kind = (c.lookahead 1).kind)
    (hthird : (c'.lookahead 2).kind = (c.lookahead 2).kind) : atStruct c' = atStruct c := by
  rw [atStruct, atStruct, hcurrent, hnext, hthird]

/-- Where three tokens are in front of the seam, the same is seen. Where there are less, nothing is seen
that was not seen before. -/
theorem atStruct_beside {t : Token} {ts : List Token} (hc : S.Beside (t :: ts) c c') :
    atStruct c' = atStruct c ∨ atStruct c' = false ∧ (t :: ts).length ≤ 2 := by
  have hcurrent : c'.current = c.current := hc.current.2.trans hc.current.1.symm
  have hequal : ∀ k : TokenKind, k.isInert = true → k ≠ .equal := by
    rintro k hk rfl
    cases hk
  have htype : ∀ k : TokenKind, k.isInert = true → k ≠ .word "type" := by
    rintro k hk rfl
    exact absurd hk (by decide)
  -- Three tokens decide. The first one behind the seam is inert, and none of the three can be that, or the
  -- kinds behind the seam are the same in both rows.
  match ts with
  | [] =>
    obtain ⟨hnext, hnext'⟩ := hc.kind_lookahead 0
    obtain ⟨hthird, hthird'⟩ := hc.kind_lookahead 1
    rcases S.inert with hinert | hsame
    · exact .inr ⟨atStruct_eq_false (.inl (hequal _ (hnext' ▸ hinert))), Nat.le_succ 1⟩
    · exact .inl (atStruct_congr hcurrent (hnext'.trans ((hsame 0).trans hnext.symm))
        (hthird'.trans ((hsame 1).trans hthird.symm)))
  | [u] =>
    obtain ⟨hthird, hthird'⟩ := hc.kind_lookahead 0
    rcases S.inert with hinert | hsame
    · exact .inr ⟨atStruct_eq_false (.inr (htype _ (hthird' ▸ hinert))), Nat.le_refl 2⟩
    · exact .inl (atStruct_congr hcurrent (congrArg Token.kind (hc.lookahead_eq (by simp)))
        (hthird'.trans ((hsame 0).trans hthird.symm)))
  | u :: v :: us =>
    exact .inl (atStruct_congr hcurrent (congrArg Token.kind (hc.lookahead_eq (by simp)))
      (congrArg Token.kind (hc.lookahead_eq (by simp))))

theorem passToken_eq (c : Cursor) : passToken c
    = if (c.current.kind == .eof) = true then .ok (none, c) else .ok (some [], c.advance) := by
  rw [passToken]
  change (if (c.current.kind == .eof) = true then _ else _ : Reader _) c = _
  split <;> rfl

theorem feeds_passToken : Feeds S passToken passToken := by
  -- It passes one token, if there is one.
  have hpasses : ∀ {c : Cursor} {found later}, passToken c = .ok (found, later) →
      later.rest <:+ c.rest ∧ (c.current.kind ≠ .eof → later.rest = c.rest.tail) := by
    intro c found later h
    rw [passToken_eq] at h
    split at h
    · next heof =>
      cases h
      exact ⟨List.suffix_rfl, fun hne => absurd (beq_iff_eq.mp heof) hne⟩
    · cases h
      rw [rest_advance]
      exact ⟨List.tail_suffix _, fun _ => rfl⟩
  refine .intro (fun c found later h => (hpasses h).1) (fun c hc found later h => ?_)
    fun t ts c c' hc => ?_
  · obtain ⟨b, bs, hb⟩ := List.exists_cons_of_ne_nil S.ne_nil
    have hkind : c.current.kind ≠ .eof := by
      rw [Cursor.current, hc, hb]
      exact S.kind_ne_eof b (hb ▸ List.mem_cons_self)
    rw [Cursor.remaining, (hpasses h).2 hkind, hc, hb]
    exact Nat.lt_succ_self _
  · rw [passToken_eq, passToken_eq, hc.current.1, hc.current.2]
    split
    · exact .of_beside hc
    · exact .of_beside hc.advance

theorem structAhead_eq (c : Cursor) : structAhead c
    = (if atStruct c = true then readNamed >>= fun d => Pure.pure (some [d]) else passToken) c := rfl

/-- What is done in front of a definition and in front of any other token is the same, and so is which of
the two there is, up to definitions that go on behind the seam. -/
theorem same_structAhead {n : Nat} {t : Token} {ts : List Token} (hc : S.Beside (t :: ts) c c')
    (hn : S.behind.length ≤ n)
    (hnamed : S.Same n ((readNamed >>= fun d => Pure.pure (some [d])) c)
      ((readNamed >>= fun d => Pure.pure (some [d])) c'))
    (hpass : S.Same n (passToken c) (passToken c')) : S.Same n (structAhead c) (structAhead c') := by
  rw [structAhead_eq, structAhead_eq]
  rcases atStruct_beside hc with hsame | ⟨hnone, hlength⟩
  · rw [hsame]
    split
    · exact hnamed
    · exact hpass
  · rw [hnone, if_neg Bool.false_ne_true]
    split
    · intro found later h hle
      obtain ⟨x, c₁, hx, hfound⟩ := bind_eq_ok_iff.mp h
      cases hfound
      have hlt := remaining_readNamed_lt hc hlength hx
      exact absurd (Nat.le_trans hn hle) (Nat.not_le.mpr hlt)
    · exact hpass

theorem feeds_structAhead : Feeds S structAhead structAhead := by
  have hnamed : Feeds S (readNamed >>= fun d => Pure.pure (some [d]))
      (readNamed >>= fun d => Pure.pure (some [d])) := feeds_readNamed.bind fun _ => copies_pure _
  have hpass : Feeds S passToken passToken := feeds_passToken
  have hungry : ∀ c : Cursor, c.rest = S.behind → ∀ found later, structAhead c = .ok (found, later) →
      later.remaining < S.behind.length := by
    intro c hc found later h
    rw [structAhead_eq] at h
    split at h
    · exact hnamed.hungry c hc found later h
    · exact hpass.hungry c hc found later h
  refine ⟨⟨.intro (fun c found later h => ?_) fun t ts c c' hc => ?_, fun hS ahead c c' hc => ?_⟩, hungry⟩
  · rw [structAhead_eq] at h
    split at h
    · exact hnamed.forward c found later h
    · exact hpass.forward c found later h
  · exact same_structAhead hc (Nat.le_succ _) (hnamed.same _ c c' hc) (hpass.same _ c c' hc)
  · cases ahead with
    | nil => exact fun found later h hle => absurd hle (Nat.not_le.mpr (hungry c hc.rest found later h))
    | cons t ts =>
      exact same_structAhead hc (Nat.le_refl _) (hnamed.upTo hS _ c c' hc) (hpass.upTo hS _ c c' hc)

theorem feeds_readStruct (types : TypeTable) : Feeds S (readStruct types) (readStruct types) := by
  rw [readStruct_eq]
  exact feeds_structAhead.bind fun _ => copies_pure _

/-! ## Items -/

theorem tracks_skipItem : Tracks S skipItem skipItem := by
  rw [skipItem]
  refine .isAt fun group => ?_
  split
  · refine (tracks_skipWhile _).bind fun _ => .isAt fun opens => ?_
    split
    · exact feeds_skipGroup.toTracks
    · exact (copies_pure ()).toTracks
  · exact tracks_skipLine

/-- One item is passed, and if it is a function it is added. -/
inductive PassesItem (ctx : Draft.Context) : Progress → Cursor → Progress → Cursor → Prop
  | definition {p p₁ : Progress} {c c₁ : Cursor} {f : Function}
      (hkind : c.current.kind = .word "define")
      (hread : (Function.readDefinition ctx c.advance).result = .ok (f, c₁))
      (hpush : p.push f c.current.start = .ok p₁) : PassesItem ctx p c p₁ c₁
  | declaration {p p₁ : Progress} {c c₁ : Cursor} {f : Function}
      (hkind : c.current.kind = .word "declare")
      (hread : (Function.readDeclaration c.advance).result = .ok (f, c₁))
      (hpush : p.push f c.current.start = .ok p₁) : PassesItem ctx p c p₁ c₁
  | other {p : Progress} {c c₁ : Cursor} (heof : c.current.kind ≠ .eof)
      (hdefine : c.current.kind ≠ .word "define") (hdeclare : c.current.kind ≠ .word "declare")
      (hread : skipItem c = .ok ((), c₁)) : PassesItem ctx p c p c₁

/-- Some items are passed. -/
inductive PassesItems (ctx : Draft.Context) : Progress → Cursor → Progress → Cursor → Prop
  | refl (p : Progress) (c : Cursor) : PassesItems ctx p c p c
  | item {p p₁ p₂ : Progress} {c c₁ c₂ : Cursor} (h : PassesItem ctx p c p₁ c₁)
      (hrest : PassesItems ctx p₁ c₁ p₂ c₂) : PassesItems ctx p c p₂ c₂

variable {ctx : Draft.Context} {p p₁ : Progress} {c₁ : Cursor}

/-- An item passes a token. -/
theorem PassesItem.forward (h : PassesItem ctx p c p₁ c₁) (hstop : c.stop.kind = .eof) :
    c₁.rest <:+ c.rest ∧ c₁.stop = c.stop ∧ c₁.remaining < c.remaining := by
  cases h with
  | definition hkind hread _ =>
    have hends := endsAhead_readDefinition ctx hstop (by rw [hkind]; exact TokenKind.noConfusion)
    rw [hread] at hends
    exact ⟨hends.1, hends.2.1, hends.2.2 trivial⟩
  | declaration hkind hread _ =>
    have hends := endsAhead_readDeclaration hstop (by rw [hkind]; exact TokenKind.noConfusion)
    rw [hread] at hends
    exact ⟨hends.1, hends.2.1, hends.2.2 trivial⟩
  | other heof _ _ hread =>
    have hends := endsAhead_skipItem hstop heof
    rw [hread] at hends
    exact ⟨hends.1, hends.2.1, hends.2.2 trivial⟩

/-- Behind an item the loop goes on. -/
theorem PassesItem.readItems_eq (h : PassesItem ctx p c p₁ c₁) (t : Token) (bound : List Token) :
    (readItems ctx (t :: bound) p c).result = (readItems ctx bound p₁ c₁).result := by
  have hbind : ∀ {α β : Type} {r : Traced Diagnostic α} {a : α} {f : α → Traced Diagnostic β},
      r.result = .ok a → (r >>= f).result = (f a).result := by
    intro α β r a f hr
    obtain ⟨log, result⟩ := r
    cases hr
    rfl
  rw [readItems]
  dsimp only
  cases h with
  | definition hkind hread hpush =>
    rw [hkind]
    exact (hbind hread).trans (hbind (a := p₁) hpush)
  | declaration hkind hread hpush =>
    rw [hkind]
    exact (hbind hread).trans (hbind (a := p₁) hpush)
  | other heof hdefine hdeclare hread =>
    split
    · next hk => exact absurd hk heof
    · next hk => exact absurd hk hdefine
    · next hk => exact absurd hk hdeclare
    · rw [hbind (a := ((), c₁)) hread]

theorem PassesItems.forward (h : PassesItems ctx p c p₁ c₁) (hstop : c.stop.kind = .eof) :
    c₁.rest <:+ c.rest ∧ c₁.stop = c.stop := by
  induction h with
  | refl p c => exact ⟨List.suffix_rfl, rfl⟩
  | item h _ ih =>
    obtain ⟨hrest, hstop₁, _⟩ := h.forward hstop
    obtain ⟨hrest₂, hstop₂⟩ := ih (hstop₁ ▸ hstop)
    exact ⟨hrest₂.trans hrest, hstop₂.trans hstop₁⟩

/-- **The loop over the items goes on behind some of them** as if it were started there. -/
theorem PassesItems.readItems_eq (h : PassesItems ctx p c p₁ c₁) (hstop : c.stop.kind = .eof) :
    (readItems ctx c.bound p c).result = (readItems ctx c₁.bound p₁ c₁).result := by
  induction h with
  | refl p c => rfl
  | @item p p₁ p₂ c c₁ c₂ h _ ih =>
    obtain ⟨_, hstop₁, hlt⟩ := h.forward hstop
    have heof : c₁.stop.kind = .eof := hstop₁ ▸ hstop
    rw [← ih heof, Cursor.bound, h.readItems_eq]
    exact congrArg Traced.result
      (Module.readItems_eq p₁ heof hlt (Nat.lt_succ_self c₁.remaining))

/-- Where tokens are left in front of the seam, both cursors stand in front of one of them. -/
theorem current_eq_of_remaining (hc : S.Beside ahead c c') (h : S.behind.length < c.remaining) :
    ∃ t ts, ahead = t :: ts ∧ c.current = t ∧ c'.current = t := by
  cases ahead with
  | nil =>
    rw [hc.remaining, List.length_nil, Nat.zero_add] at h
    exact absurd h (Nat.lt_irrefl _)
  | cons t ts => exact ⟨t, ts, rfl, hc.current⟩

/-- An item in front of the seam is an item of the other text. -/
theorem PassesItem.tracks (h : PassesItem ctx p c p₁ c₁) (hc : S.Beside ahead c c')
    (hle : S.behind.length + 1 ≤ c₁.remaining) :
    ∃ us c₁', PassesItem ctx p c' p₁ c₁' ∧ S.Beside us c₁ c₁' := by
  have hlt := (h.forward (hc.stop ▸ S.eof)).2.2
  obtain ⟨t, ts, rfl, hcurrent, hcurrent'⟩ :=
    current_eq_of_remaining hc (Nat.lt_of_lt_of_le hle (Nat.le_of_lt hlt))
  cases h with
  | definition hkind hread hpush =>
    obtain ⟨us, c₁', hread', hc₁⟩ := Function.same_readDefinition_beside hc.advance _ _ hread hle
    rw [hcurrent] at hkind hpush
    exact ⟨us, c₁', .definition (hcurrent' ▸ hkind) hread' (hcurrent' ▸ hpush), hc₁⟩
  | declaration hkind hread hpush =>
    obtain ⟨us, c₁', hread', hc₁⟩ := Function.same_readDeclaration_beside hc.advance _ _ hread hle
    rw [hcurrent] at hkind hpush
    exact ⟨us, c₁', .declaration (hcurrent' ▸ hkind) hread' (hcurrent' ▸ hpush), hc₁⟩
  | other heof hdefine hdeclare hread =>
    obtain ⟨us, c₁', hread', hc₁⟩ := tracks_skipItem.same _ c c' hc () c₁ hread hle
    rw [hcurrent] at heof hdefine hdeclare
    exact ⟨us, c₁', .other (hcurrent' ▸ heof) (hcurrent' ▸ hdefine) (hcurrent' ▸ hdeclare) hread', hc₁⟩

/-- Items in front of the seam are items of the other text. -/
theorem PassesItems.tracks (h : PassesItems ctx p c p₁ c₁) (hc : S.Beside ahead c c')
    (hle : S.behind.length + 1 ≤ c₁.remaining) :
    ∃ us c₁', PassesItems ctx p c' p₁ c₁' ∧ S.Beside us c₁ c₁' := by
  induction h generalizing ahead c' with
  | refl p c => exact ⟨ahead, c', .refl p c', hc⟩
  | @item p p₁ p₂ c c₁ c₂ h hrest ih =>
    obtain ⟨_, hstop₁, _⟩ := h.forward (hc.stop ▸ S.eof)
    have hforward := (hrest.forward (hstop₁ ▸ hc.stop ▸ S.eof)).1
    obtain ⟨us, c₁', h', hc₁⟩ := h.tracks hc (Nat.le_trans hle (remaining_le_of_suffix hforward))
    obtain ⟨vs, c₂', hrest', hc₂⟩ := ih hc₁ hle
    exact ⟨vs, c₂', .item h' hrest', hc₂⟩

end IrRecords.Module
