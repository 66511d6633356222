import IrRecords.Proofs.Reader.Rounds
import IrRecords.Proofs.Reader.Settling

/-!
# Reading up to a seam

Something is put into a text, and what was read in front of that place is to be read as before. A reader
passes tokens and looks at one or two more. If it stops in front of the seam with a token to spare, then
it has not seen what is behind, unless the one token is a comma and the next one is asked for; and then it
makes no difference if nothing goes on behind a comma that way (`TokenKind.isInert`). `Tracks` is the
judgement for this, and it holds of every reader.

A reader that stops at the seam has seen what is behind and has decided to stop. It decides the same in the
other text if an attachment was put in, a comma and metadata, since nothing takes these two for more of
itself (`Copies`). A loop over items that are separated by commas would; but what follows such a loop wants
a bracket, so that it does not stop at the seam. `Feeds` is for readers that pass at least a token.

What a reader does that goes on behind the seam is none of this module's business.
-/

namespace IrRecords

/-- A token that may be put into a text: a comma, or a word that nothing looks for two tokens ahead. -/
def TokenKind.isInert : TokenKind → Bool
  | .comma => true
  | .word w => !(isTypeWord w || ["type", "addrspace", "align", "inrange"].contains w)
  | _ => false

/-- The kind is that of the name of metadata. -/
def TokenKind.isMetadata : TokenKind → Bool
  | .metadata _ => true
  | _ => false

/-- The kind of the token that stands `n` tokens further on. -/
def Token.kindAt (ts : List Token) (stop : Token) (n : Nat) : TokenKind := ((ts.drop n).headD stop).kind

/-- A place between two tokens, and what stands behind it in a text and in another one. -/
structure Seam where
  behind : List Token
  behind' : List Token
  /-- The end of the first text. -/
  stop : Token
  /-- The end of the second text. -/
  stop' : Token
  ne_nil : behind ≠ []
  length_le : behind.length ≤ behind'.length
  kind_ne_eof : ∀ t ∈ behind, t.kind ≠ .eof
  eof : stop.kind = .eof
  /-- What is put in makes no sense behind a comma, or nothing is put in. -/
  inert : (Token.kindAt behind' stop' 0).isInert = true
    ∨ ∀ n, Token.kindAt behind' stop' n = Token.kindAt behind stop n

namespace Seam

/-- An attachment is put in, or nothing. -/
def Attaches (S : Seam) : Prop :=
  (Token.kindAt S.behind' S.stop' 0 = .comma ∧ (Token.kindAt S.behind' S.stop' 1).isMetadata = true)
    ∨ ∀ n, Token.kindAt S.behind' S.stop' n = Token.kindAt S.behind S.stop n

/-- Both cursors stand in front of the tokens `ahead`, which are in front of the seam. -/
structure Beside (S : Seam) (ahead : List Token) (c c' : Cursor) : Prop where
  rest : c.rest = ahead ++ S.behind
  rest' : c'.rest = ahead ++ S.behind'
  stop : c.stop = S.stop
  stop' : c'.stop = S.stop'
  lastLine? : c'.lastLine? = c.lastLine?

variable {α β : Type} {S : Seam} {c c' later : Cursor} {ahead ts us : List Token} {t : Token}

/-! ## Cursors -/

theorem Beside.remaining (h : S.Beside ahead c c') :
    c.remaining = ahead.length + S.behind.length := by
  rw [Cursor.remaining, h.rest, List.length_append]

/-- Both cursors go on to a later place in front of the seam. -/
theorem Beside.pass (h : S.Beside (ts ++ us) c c') :
    S.Beside us ⟨(ts.getLast?.map Token.line).or c.lastLine?, us ++ S.behind, c.stop⟩
      ⟨(ts.getLast?.map Token.line).or c'.lastLine?, us ++ S.behind', c'.stop⟩ :=
  ⟨rfl, rfl, h.stop, h.stop', by rw [h.lastLine?]⟩

theorem Beside.advance (h : S.Beside (t :: ts) c c') : S.Beside ts c.advance c'.advance := by
  have hsplit : S.Beside ([t] ++ ts) c c' := h
  have hpass := hsplit.pass
  rw [Cursor.advance, Cursor.advance, h.rest, h.rest']
  exact hpass

/-- In front of a token that is in front of the seam, both cursors see it. -/
theorem Beside.current (h : S.Beside (t :: ts) c c') : c.current = t ∧ c'.current = t := by
  rw [Cursor.current, Cursor.current, h.rest, h.rest']
  exact ⟨rfl, rfl⟩

/-- In front of two such tokens, they see the second as well. -/
theorem Beside.next {u : Token} (h : S.Beside (t :: u :: ts) c c') :
    c.lookahead 1 = u ∧ c'.lookahead 1 = u := by
  rw [Cursor.lookahead, Cursor.lookahead, h.rest, h.rest']
  exact ⟨rfl, rfl⟩

/-- What both cursors see in front of the seam. -/
theorem Beside.lookahead_eq {n : Nat} (h : S.Beside ahead c c') (hn : n < ahead.length) :
    c'.lookahead n = c.lookahead n := by
  rw [Cursor.lookahead, Cursor.lookahead, h.rest, h.rest',
    List.drop_append_of_le_length (Nat.le_of_lt hn), List.drop_append_of_le_length (Nat.le_of_lt hn)]
  cases hdrop : ahead.drop n with
  | nil => exact absurd (List.drop_eq_nil_iff.mp hdrop) (Nat.not_le.mpr hn)
  | cons t ts => rfl

/-- What they see behind it. -/
theorem Beside.kind_lookahead (h : S.Beside ahead c c') (n : Nat) :
    (c.lookahead (ahead.length + n)).kind = Token.kindAt S.behind S.stop n
      ∧ (c'.lookahead (ahead.length + n)).kind = Token.kindAt S.behind' S.stop' n := by
  rw [Cursor.lookahead, Cursor.lookahead, h.rest, h.rest', h.stop, h.stop', List.drop_append,
    List.drop_append]
  simp [Token.kindAt]

/-- In front of the last token before the seam, the second cursor sees behind it what is put in. -/
theorem Beside.next_end (h : S.Beside [t] c c') : (c'.lookahead 1).kind.isInert = true
    ∨ (c'.lookahead 1).kind = (c.lookahead 1).kind := by
  obtain ⟨hnext, hnext'⟩ := h.kind_lookahead 0
  rw [List.length_singleton, Nat.add_zero] at hnext hnext'
  rw [hnext, hnext']
  exact S.inert.imp_right fun hsame => hsame 0

/-- At the seam, the second cursor sees an attachment, or both see the same. -/
theorem Attaches.kinds (hS : S.Attaches) (h : S.Beside [] c c') :
    (c'.current.kind = .comma ∧ (c'.lookahead 1).kind.isMetadata = true)
      ∨ c'.current.kind = c.current.kind ∧ (c'.lookahead 1).kind = (c.lookahead 1).kind := by
  obtain ⟨hfirst, hfirst'⟩ := h.kind_lookahead 0
  obtain ⟨hnext, hnext'⟩ := h.kind_lookahead 1
  rw [List.length_nil, Nat.zero_add] at hfirst hfirst' hnext hnext'
  have hcurrent : c.current = c.lookahead 0 := rfl
  have hcurrent' : c'.current = c'.lookahead 0 := rfl
  rw [hcurrent, hcurrent', hfirst, hfirst', hnext, hnext']
  exact hS.imp_right fun hsame => ⟨hsame 0, hsame 1⟩

theorem Beside.bound_length_le (h : S.Beside ahead c c') : c.bound.length ≤ c'.bound.length := by
  rw [Cursor.bound, Cursor.bound, h.rest, h.rest', List.length_cons, List.length_cons,
    List.length_append, List.length_append]
  exact Nat.succ_le_succ (Nat.add_le_add_left S.length_le _)

/-- Passing tokens that are not like all in front of the seam, nor like the first ones behind it. -/
theorem Beside.advanceWhile {p : Token → Bool} (h : S.Beside ahead c c')
    (hp : (∃ t ∈ ahead, p t = false) ∨ (∀ u, S.behind.head? = some u → p u = false)
      ∧ ∀ u, S.behind'.head? = some u → p u = false) :
    S.Beside (ahead.dropWhile p) (c.advanceWhile p) (c'.advanceWhile p) := by
  obtain ⟨htake, hdrop⟩ := Border.takeWhile_dropWhile_append (hp.imp_right And.left)
  obtain ⟨htake', hdrop'⟩ := Border.takeWhile_dropWhile_append (hp.imp_right And.right)
  rw [Cursor.advanceWhile, Cursor.advanceWhile, Cursor.advanceWhileIn_eq, Cursor.advanceWhileIn_eq,
    h.rest, h.rest', htake, hdrop, htake', hdrop']
  refine Beside.pass ?_
  rw [List.takeWhile_append_dropWhile]
  exact h

/-- A group that is closed in front of the seam is closed at the same place for both. -/
theorem Beside.skipBrackets {stack : List Bracket} (h : S.Beside ahead c c') {later : Cursor}
    (hgroup : Cursor.skipBrackets stack c (ahead ++ S.behind) = some later)
    (hle : S.behind.length ≤ later.remaining) :
    ∃ us later', Cursor.skipBrackets stack c' (ahead ++ S.behind') = some later'
      ∧ S.Beside us later later' := by
  induction ahead generalizing c c' stack with
  | nil =>
    -- A group that is closed behind the seam leaves fewer tokens ahead than `hle` allows.
    obtain ⟨us, hus, hne⟩ := Cursor.exists_reaches_skipBrackets h.rest hgroup
    have hlength := congrArg List.length hus.rest
    rw [h.rest, List.nil_append, List.length_append] at hlength
    have hpos := List.length_pos_iff.mpr hne
    rw [Cursor.remaining] at hle
    omega
  | cons t ts ih =>
    have hsplit : S.Beside ([t] ++ ts) c c' := h
    have hpass := hsplit.pass
    rw [List.cons_append, Cursor.skipBrackets] at hgroup
    rw [List.cons_append, Cursor.skipBrackets]
    split at hgroup
    · cases hgroup
      exact ⟨ts, _, rfl, hpass⟩
    · exact ih hpass hgroup

theorem Beside.textUpTo {ahead' : List Token} {later later' : Cursor} (h : S.Beside ahead c c')
    (h' : S.Beside ahead' later later') : c'.textUpTo later' = c.textUpTo later := by
  have htokens : c'.tokensUpTo later' = c.tokensUpTo later := by
    have hlength : ahead.length + S.behind.length - (ahead'.length + S.behind.length)
        = ahead.length - ahead'.length := Nat.add_sub_add_right _ _ _
    have hlength' : ahead.length + S.behind'.length - (ahead'.length + S.behind'.length)
        = ahead.length - ahead'.length := Nat.add_sub_add_right _ _ _
    rw [Cursor.tokensUpTo, Cursor.tokensUpTo, Cursor.remaining, Cursor.remaining, Cursor.remaining,
      Cursor.remaining, h.rest, h'.rest, h.rest', h'.rest', List.length_append, List.length_append,
      List.length_append, List.length_append, hlength, hlength',
      List.take_append_of_le_length (Nat.sub_le _ _), List.take_append_of_le_length (Nat.sub_le _ _)]
  rw [Cursor.textUpTo, Cursor.textUpTo, htokens]

/-! ## Runs that are the same -/

/-- Where the first run ends with `n` tokens ahead or more, the second one answers the same and ends in
front of the same tokens. -/
def Same (S : Seam) (n : Nat) (e e' : Except Diagnostic (α × Cursor)) : Prop :=
  ∀ a later, e = .ok (a, later) → n ≤ later.remaining →
    ∃ ahead later', e' = .ok (a, later') ∧ S.Beside ahead later later'

theorem Same.of_error {n : Nat} {d : Diagnostic} {e' : Except Diagnostic (α × Cursor)} :
    S.Same n (.error d) e' :=
  fun _ _ h => nomatch h

theorem Same.of_beside {n : Nat} {a : α} (h : S.Beside ahead c c') :
    S.Same n (.ok (a, c)) (.ok (a, c')) := by
  rintro b later hb _
  cases hb
  exact ⟨ahead, c', rfl, h⟩

theorem Same.mono {n m : Nat} {e e' : Except Diagnostic (α × Cursor)} (h : S.Same n e e') (hle : n ≤ m) :
    S.Same m e e' :=
  fun a later ha hm => h a later ha (Nat.le_trans hle hm)

/-- Nothing is asked of a run that goes on too far. -/
theorem Same.of_lt {n : Nat} {a : α} {e' : Except Diagnostic (α × Cursor)} (h : c.remaining < n) :
    S.Same n (.ok (a, c)) e' := by
  rintro b later hb hle
  cases hb
  exact absurd hle (Nat.not_le.mpr h)

end Seam

namespace Reader

variable {α β σ : Type} {S : Seam} {r r' : Reader α} {f f' : α → Reader β} {k : TokenKind}

/-! ## The judgements -/

/-- The reader goes forward, and what it does up to a place in front of the seam, it does in both texts. -/
structure Tracks (S : Seam) (r r' : Reader α) : Prop where
  forward : ∀ c a later, r c = .ok (a, later) → later.rest <:+ c.rest
  same : ∀ ahead c c', S.Beside ahead c c' → S.Same (S.behind.length + 1) (r c) (r' c')

/-- The same up to the seam, if an attachment was put in. -/
structure Copies (S : Seam) (r r' : Reader α) : Prop extends Tracks S r r' where
  upTo : S.Attaches → ∀ ahead c c', S.Beside ahead c c' → S.Same S.behind.length (r c) (r' c')

/-- The same of a reader that passes a token if it is started at the seam. -/
structure Feeds (S : Seam) (r r' : Reader α) : Prop extends Copies S r r' where
  hungry : ∀ c, c.rest = S.behind → ∀ a later, r c = .ok (a, later) → later.remaining < S.behind.length

/-- The rule for readers that do not look at what is put in. -/
theorem Copies.intro (forward : ∀ c a later, r c = .ok (a, later) → later.rest <:+ c.rest)
    (h : ∀ ahead c c', S.Beside ahead c c' → S.Same S.behind.length (r c) (r' c')) : Copies S r r' :=
  ⟨⟨forward, fun ahead c c' hc => Seam.Same.mono (h ahead c c' hc) (Nat.le_succ _)⟩, fun _ => h⟩

/-- The rule for readers that pass a token: where they are started at the seam, nothing is asked. -/
theorem Feeds.intro (forward : ∀ c a later, r c = .ok (a, later) → later.rest <:+ c.rest)
    (hungry : ∀ c, c.rest = S.behind → ∀ a later, r c = .ok (a, later) → later.remaining < S.behind.length)
    (h : ∀ t ts c c', S.Beside (t :: ts) c c' → S.Same S.behind.length (r c) (r' c')) :
    Feeds S r r' := by
  refine ⟨.intro forward fun ahead c c' hc => ?_, hungry⟩
  cases ahead with
  | nil => exact fun a later ha hle => absurd hle (Nat.not_le.mpr (hungry c hc.rest a later ha))
  | cons t ts => exact h t ts c c' hc

/-- A reader that stops in front of the seam was started there. -/
theorem Tracks.intro (forward : ∀ c a later, r c = .ok (a, later) → later.rest <:+ c.rest)
    (h : ∀ t ts c c', S.Beside (t :: ts) c c' → S.Same (S.behind.length + 1) (r c) (r' c')) :
    Tracks S r r' := by
  refine ⟨forward, fun ahead c c' hc => ?_⟩
  cases ahead with
  | nil =>
    intro a later ha hle
    have hlater := (forward c a later ha).length_le
    rw [hc.rest, List.nil_append] at hlater
    exact absurd (Nat.le_trans hle hlater) (Nat.not_succ_le_self _)
  | cons t ts => exact h t ts c c' hc

theorem remaining_le_of_suffix {c later : Cursor} (h : later.rest <:+ c.rest) :
    later.remaining ≤ c.remaining := h.length_le

/-- A place that has as many tokens ahead as the seam is the seam. -/
theorem rest_eq_of_remaining {ahead : List Token} {c c' later : Cursor} (hc : S.Beside ahead c c')
    (h : later.rest <:+ c.rest) (hlength : later.remaining = S.behind.length) :
    later.rest = S.behind := by
  rw [hc.rest] at h
  exact (List.suffix_of_suffix_length_le h (List.suffix_append _ _)
    (Nat.le_of_eq hlength)).eq_of_length hlength

/-! ### Sequencing -/

theorem forward_bind (hr : ∀ c a later, r c = .ok (a, later) → later.rest <:+ c.rest)
    (hf : ∀ a c b later, f a c = .ok (b, later) → later.rest <:+ c.rest) :
    ∀ c b later, (r >>= f) c = .ok (b, later) → later.rest <:+ c.rest := by
  intro c b later h
  obtain ⟨a, c₁, ha, hb⟩ := bind_eq_ok_iff.mp h
  exact (hf a c₁ b later hb).trans (hr c a c₁ ha)

theorem Tracks.bind (hr : Tracks S r r') (hf : ∀ a, Tracks S (f a) (f' a)) :
    Tracks S (r >>= f) (r' >>= f') := by
  refine ⟨forward_bind hr.forward fun a => (hf a).forward, fun ahead c c' hc b later h hle => ?_⟩
  obtain ⟨a, c₁, ha, hb⟩ := bind_eq_ok_iff.mp h
  have hle₁ := Nat.le_trans hle (remaining_le_of_suffix ((hf a).forward c₁ b later hb))
  obtain ⟨ahead₁, c₁', ha', hc₁⟩ := hr.same ahead c c' hc a c₁ ha hle₁
  rw [bind_of_ok ha']
  exact (hf a).same ahead₁ c₁ c₁' hc₁ b later hb hle

theorem Copies.bind (hr : Copies S r r') (hf : ∀ a, Copies S (f a) (f' a)) :
    Copies S (r >>= f) (r' >>= f') := by
  refine ⟨hr.toTracks.bind fun a => (hf a).toTracks, fun hS ahead c c' hc b later h hle => ?_⟩
  obtain ⟨a, c₁, ha, hb⟩ := bind_eq_ok_iff.mp h
  have hle₁ := Nat.le_trans hle (remaining_le_of_suffix ((hf a).forward c₁ b later hb))
  obtain ⟨ahead₁, c₁', ha', hc₁⟩ := hr.upTo hS ahead c c' hc a c₁ ha hle₁
  rw [bind_of_ok ha']
  exact (hf a).upTo hS ahead₁ c₁ c₁' hc₁ b later hb hle

/-- A reader that passes a token may be followed by any that copies. -/
theorem Feeds.bind (hr : Feeds S r r') (hf : ∀ a, Copies S (f a) (f' a)) :
    Feeds S (r >>= f) (r' >>= f') := by
  refine ⟨hr.toCopies.bind hf, fun c hc b later h => ?_⟩
  obtain ⟨a, c₁, ha, hb⟩ := bind_eq_ok_iff.mp h
  exact Nat.lt_of_le_of_lt (remaining_le_of_suffix ((hf a).forward c₁ b later hb)) (hr.hungry c hc a c₁ ha)

/-- In front of a reader that passes a token any reader is good enough: it does not stop at the seam. -/
theorem Tracks.feeds (hr : Tracks S r r') (hf : ∀ a, Feeds S (f a) (f' a)) :
    Feeds S (r >>= f) (r' >>= f') := by
  have hlt : ∀ a c₁ b later, c₁.rest = S.behind → f a c₁ = .ok (b, later) →
      later.remaining < S.behind.length := fun a c₁ b later => fun hc₁ h => (hf a).hungry c₁ hc₁ b later h
  refine ⟨⟨hr.bind fun a => (hf a).toTracks, fun hS ahead c c' hc b later h hle => ?_⟩,
    fun c hc b later h => ?_⟩
  · obtain ⟨a, c₁, ha, hb⟩ := bind_eq_ok_iff.mp h
    have hle₁ := Nat.le_trans hle (remaining_le_of_suffix ((hf a).forward c₁ b later hb))
    have hne : S.behind.length ≠ c₁.remaining := fun heq => Nat.not_le.mpr
      (hlt a c₁ b later (rest_eq_of_remaining hc (hr.forward c a c₁ ha) heq.symm) hb) hle
    obtain ⟨ahead₁, c₁', ha', hc₁⟩ := hr.same ahead c c' hc a c₁ ha (Nat.lt_of_le_of_ne hle₁ hne)
    rw [bind_of_ok ha']
    exact (hf a).upTo hS ahead₁ c₁ c₁' hc₁ b later hb hle
  · obtain ⟨a, c₁, ha, hb⟩ := bind_eq_ok_iff.mp h
    have hsuffix := hr.forward c a c₁ ha
    rw [hc] at hsuffix
    rcases Nat.lt_or_eq_of_le hsuffix.length_le with hless | heq
    · exact Nat.lt_of_le_of_lt (remaining_le_of_suffix ((hf a).forward c₁ b later hb)) hless
    · exact hlt a c₁ b later (hsuffix.eq_of_length heq) hb

/-! ### Readers that do not read -/

theorem copies_pure (a : α) : Copies S (Pure.pure a) (Pure.pure a) := by
  refine .intro (fun c b later h => ?_) fun ahead c c' hc => .of_beside hc
  cases h
  exact List.suffix_rfl

theorem Feeds.of_fails (h : ∀ c, ∃ d, r c = .error d) : Feeds S r r' := by
  have hno : ∀ {c a later}, r c ≠ .ok (a, later) := by
    intro c a later ha
    obtain ⟨d, hd⟩ := h c
    rw [hd] at ha
    cases ha
  exact ⟨.intro (fun _ _ _ ha => absurd ha hno) fun _ _ _ _ _ _ ha => absurd ha hno,
    fun _ _ _ _ ha => absurd ha hno⟩

theorem feeds_unexpected (what : String) : Feeds S (unexpected what : Reader α) r' :=
  .of_fails fun _ => ⟨_, rfl⟩

theorem feeds_failAt (p : Position) (fault : Fault) : Feeds S (failAt p fault : Reader α) r' :=
  .of_fails fun _ => ⟨_, rfl⟩

/-- A computation that reads nothing. -/
theorem copies_lift (e : Except Diagnostic α) : Copies S (liftM e : Reader α) (liftM e : Reader α) := by
  cases e with
  | ok a => exact copies_pure a
  | error d => exact (Feeds.of_fails fun _ => ⟨d, rfl⟩).toCopies

/-! ### Looking -/

theorem forward_look {look : Reader α} (hlook : ∀ c, ∃ a, look c = .ok (a, c))
    (hf : ∀ a c b later, f a c = .ok (b, later) → later.rest <:+ c.rest) :
    ∀ c b later, (look >>= f) c = .ok (b, later) → later.rest <:+ c.rest := by
  refine forward_bind (fun c a later ha => ?_) hf
  obtain ⟨a', ha'⟩ := hlook c
  rw [ha'] at ha
  cases ha
  exact List.suffix_rfl

theorem Tracks.current {f f' : Token → Reader β} (h : ∀ t, Tracks S (f t) (f' t)) :
    Tracks S (Reader.current >>= f) (Reader.current >>= f') := by
  refine .intro (forward_look (fun c => ⟨_, rfl⟩) fun t => (h t).forward) fun t ts c c' hc => ?_
  change S.Same _ (f c.current c) (f' c'.current c')
  rw [hc.current.1, hc.current.2]
  exact (h t).same _ c c' hc

theorem Feeds.current {f f' : Token → Reader β} (h : ∀ t, Feeds S (f t) (f' t)) :
    Feeds S (Reader.current >>= f) (Reader.current >>= f') := by
  refine ⟨⟨.current fun t => (h t).toTracks, fun hS ahead c c' hc => ?_⟩,
    fun c hc b later hb => (h c.current).hungry c hc b later hb⟩
  cases ahead with
  | nil =>
    intro b later hb hle
    exact absurd hle (Nat.not_le.mpr ((h c.current).hungry c hc.rest b later hb))
  | cons t ts =>
    change S.Same _ (f c.current c) (f' c'.current c')
    rw [hc.current.1, hc.current.2]
    exact (h t).upTo hS _ c c' hc

theorem Tracks.kind {f f' : TokenKind → Reader β} (h : ∀ k, Tracks S (f k) (f' k)) :
    Tracks S (Reader.kind >>= f) (Reader.kind >>= f') :=
  @Tracks.current β S (fun t => f t.kind) (fun t => f' t.kind) fun t => h t.kind

theorem Feeds.kind {f f' : TokenKind → Reader β} (h : ∀ k, Feeds S (f k) (f' k)) :
    Feeds S (Reader.kind >>= f) (Reader.kind >>= f') :=
  @Feeds.current β S (fun t => f t.kind) (fun t => f' t.kind) fun t => h t.kind

/-- The rule for readers that may stop: they do so in front of a comma, too. -/
theorem Copies.kind {f f' : TokenKind → Reader β} (h : ∀ k, Copies S (f k) (f' k))
    (hend : ∀ k, Feeds S (f k) (f' k) ∨ f' .comma = f' k) :
    Copies S (Reader.kind >>= f) (Reader.kind >>= f') := by
  refine ⟨.kind fun k => (h k).toTracks, fun hS ahead c c' hc => ?_⟩
  change S.Same _ (f c.current.kind c) (f' c'.current.kind c')
  cases ahead with
  | nil =>
    rcases hS.kinds hc with ⟨hcomma, _⟩ | ⟨hsame, _⟩
    · rw [hcomma]
      rcases hend c.current.kind with hfeeds | heq
      · intro b later hb hle
        exact absurd hle (Nat.not_le.mpr (hfeeds.hungry c hc.rest b later hb))
      · rw [heq]
        exact (h c.current.kind).upTo hS _ c c' hc
    · rw [hsame]
      exact (h c.current.kind).upTo hS _ c c' hc
  | cons t ts =>
    rw [hc.current.1, hc.current.2]
    exact (h t.kind).upTo hS _ c c' hc

theorem Tracks.isAt {f f' : Bool → Reader β} (h : ∀ b, Tracks S (f b) (f' b)) :
    Tracks S (Reader.isAt k >>= f) (Reader.isAt k >>= f') :=
  @Tracks.kind β S (fun k' => f (k' == k)) (fun k' => f' (k' == k)) fun k' => h (k' == k)

theorem Feeds.isAt {f f' : Bool → Reader β} (h : ∀ b, Feeds S (f b) (f' b)) :
    Feeds S (Reader.isAt k >>= f) (Reader.isAt k >>= f') :=
  @Feeds.kind β S (fun k' => f (k' == k)) (fun k' => f' (k' == k)) fun k' => h (k' == k)

theorem Copies.isAt {f f' : Bool → Reader β} (hk : k ≠ .comma) (htrue : Feeds S (f true) (f' true))
    (hfalse : Copies S (f false) (f' false)) :
    Copies S (Reader.isAt k >>= f) (Reader.isAt k >>= f') := by
  refine @Copies.kind β S (fun k' => f (k' == k)) (fun k' => f' (k' == k)) (fun k' => ?_)
    fun k' => ?_
  · cases k' == k with
    | true => exact htrue.toCopies
    | false => exact hfalse
  · rw [beq_eq_false_iff_ne.mpr hk.symm]
    cases k' == k with
    | true => exact .inl htrue
    | false => exact .inr rfl

theorem Tracks.position {f f' : Position → Reader β} (h : ∀ p, Tracks S (f p) (f' p)) :
    Tracks S (Reader.position >>= f) (Reader.position >>= f') :=
  @Tracks.current β S (fun t => f t.start) (fun t => f' t.start) fun t => h t.start

theorem Feeds.position {f f' : Position → Reader β} (h : ∀ p, Feeds S (f p) (f' p)) :
    Feeds S (Reader.position >>= f) (Reader.position >>= f') :=
  @Feeds.current β S (fun t => f t.start) (fun t => f' t.start) fun t => h t.start

/-! ### Moving on -/

theorem rest_advance (c : Cursor) : c.advance.rest = c.rest.tail := by
  rw [Cursor.advance]
  split
  · next h => rw [h]; rfl
  · next t rest h => rw [h]; rfl

theorem feeds_advance : Feeds S advance advance := by
  refine .intro (fun c a later h => ?_) (fun c hc a later h => ?_) fun t ts c c' hc => .of_beside hc.advance
  · cases h
    rw [rest_advance]
    exact List.tail_suffix _
  · cases h
    rw [Cursor.remaining, rest_advance, hc, List.length_tail]
    exact Nat.sub_one_lt (List.length_pos_iff.mpr S.ne_nil).ne'

theorem tracks_accept (k : TokenKind) : Tracks S (accept k) (accept k) := by
  rw [accept]
  refine .isAt fun b => ?_
  split
  · exact (feeds_advance.bind fun _ => copies_pure true).toTracks
  · exact (copies_pure false).toTracks

theorem copies_accept (hk : k ≠ .comma) : Copies S (accept k) (accept k) :=
  .isAt hk (feeds_advance.bind fun _ => copies_pure true) (copies_pure false)

/-- The rule for readers that go on if a token is not there. -/
theorem Feeds.accept {f f' : Bool → Reader β} (htrue : Copies S (f true) (f' true))
    (hfalse : Feeds S (f false) (f' false)) :
    Feeds S (Reader.accept k >>= f) (Reader.accept k >>= f') := by
  rw [Reader.accept, bind_assoc, bind_assoc]
  refine .isAt fun b => ?_
  cases b with
  | true => exact feeds_advance.bind fun _ => htrue
  | false => exact hfalse

theorem copies_acceptWord (w : String) : Copies S (acceptWord w) (acceptWord w) :=
  copies_accept TokenKind.noConfusion

theorem feeds_expect (k : TokenKind) (what : String) : Feeds S (expect k what) (expect k what) := by
  rw [expect]
  refine .isAt fun b => ?_
  split
  · exact feeds_advance
  · exact feeds_unexpected what

theorem feeds_expectWord (w : String) : Feeds S (expectWord w) (expectWord w) := feeds_expect _ _

theorem feeds_expectComma : Feeds S expectComma expectComma := feeds_expect _ _

theorem feeds_expectNumber (bound : Nat) (what : String) :
    Feeds S (expectNumber bound what) (expectNumber bound what) := by
  rw [expectNumber]
  refine .kind fun k => ?_
  split
  · split
    · exact feeds_advance.bind fun _ => copies_pure _
    · exact feeds_unexpected what
  · exact feeds_unexpected what

/-! ### Passing rows -/

theorem forward_skipWhile (p : Token → Bool) (c : Cursor) (a : Unit) (later : Cursor)
    (h : skipWhile p c = .ok (a, later)) : later.rest <:+ c.rest := by
  cases h
  exact ⟨_, (c.reaches_advanceWhile p).rest.symm⟩

/-- Where all tokens in front of the seam are passed, none is left there. -/
theorem remaining_advanceWhile_le {p : Token → Bool} {ahead : List Token} {c c' : Cursor}
    (hc : S.Beside ahead c c') (hp : ∀ t ∈ ahead, p t = true) :
    (c.advanceWhile p).remaining = (S.behind.dropWhile p).length := by
  rw [Cursor.advanceWhile, Cursor.advanceWhileIn_eq, Cursor.remaining, hc.rest,
    List.dropWhile_append_of_pos hp]

theorem tracks_skipWhile (p : Token → Bool) : Tracks S (skipWhile p) (skipWhile p) := by
  refine ⟨forward_skipWhile p, fun ahead c c' hc => ?_⟩
  by_cases hstops : ∃ t ∈ ahead, p t = false
  · exact .of_beside (hc.advanceWhile (.inl hstops))
  · have hpass : ∀ t ∈ ahead, p t = true := by simpa using hstops
    refine .of_lt (Nat.lt_succ_of_le ?_)
    rw [remaining_advanceWhile_le hc hpass]
    exact (List.dropWhile_suffix p).length_le

theorem copies_skipWhile {p : Token → Bool} (hkind : ∀ t t', t'.kind = t.kind → p t' = p t)
    (hcomma : ∀ t, t.kind = .comma → p t = false) : Copies S (skipWhile p) (skipWhile p) := by
  refine ⟨tracks_skipWhile p, fun hS ahead c c' hc => ?_⟩
  by_cases hstops : ∃ t ∈ ahead, p t = false
  · exact .of_beside (hc.advanceWhile (.inl hstops))
  have hpass : ∀ t ∈ ahead, p t = true := by simpa using hstops
  -- All in front of the seam is passed, so the first token behind it decides: the first row goes on past
  -- the seam, or both rows stop there.
  obtain ⟨b, bs, hb⟩ := List.exists_cons_of_ne_nil S.ne_nil
  cases hpb : p b with
  | true =>
    refine .of_lt ?_
    rw [remaining_advanceWhile_le hc hpass, hb, List.dropWhile_cons_of_pos hpb, List.length_cons]
    exact Nat.lt_succ_of_le (List.dropWhile_suffix p).length_le
  | false =>
    refine .of_beside (hc.advanceWhile (.inr ⟨fun u hu => ?_, fun u hu => ?_⟩))
    · rw [hb, List.head?_cons, Option.some.injEq] at hu
      exact hu ▸ hpb
    · have hfirst : Token.kindAt S.behind' S.stop' 0 = u.kind := by
        rw [Token.kindAt, List.drop_zero, List.headD_eq_head?_getD, hu]
        rfl
      rcases hS with ⟨h, _⟩ | h
      · exact hcomma u (hfirst ▸ h)
      · have hsame : u.kind = b.kind := by
          rw [← hfirst, h 0, hb]
          rfl
        rw [hkind b u hsame, hpb]

theorem copies_skipWords (ws : List String) : Copies S (skipWords ws) (skipWords ws) :=
  copies_skipWhile (fun t t' ht => by rw [isWordOf, isWordOf, ht]) fun t ht => by rw [isWordOf, ht]

theorem tracks_skipLine : Tracks S skipLine skipLine := by
  refine .intro (fun c a later h => ?_) fun t ts c c' hc => ?_
  · cases h
    exact ⟨_, (c.reaches_advanceWhile _).rest.symm⟩
  · rw [skipLine, skipLine, Cursor.skipLine, Cursor.skipLine, hc.current.1, hc.current.2]
    exact (tracks_skipWhile (·.line == t.line)).same _ c c' hc

theorem tracks_skipRestOfLine : Tracks S skipRestOfLine skipRestOfLine := by
  refine ⟨fun c a later h => ?_, fun ahead c c' hc => ?_⟩
  · cases h
    obtain ⟨ts, hts, _⟩ := c.reaches_skipRestOfLine
    exact ⟨ts, hts.rest.symm⟩
  · rw [skipRestOfLine, skipRestOfLine, Cursor.skipRestOfLine, Cursor.skipRestOfLine, hc.lastLine?]
    cases c.lastLine? with
    | none => exact .of_beside hc
    | some line => exact (tracks_skipWhile (·.line == line)).same ahead c c' hc

theorem feeds_skipGroup : Feeds S skipGroup skipGroup := by
  have hreaches : ∀ {c : Cursor} {a later}, skipGroup c = .ok (a, later) →
      ∃ ts, c.Reaches ts later ∧ ts ≠ [] := by
    intro c a later h
    rw [skipGroup] at h
    split at h
    · next hgroup =>
      cases h
      exact Cursor.exists_reaches_skipBrackets rfl hgroup
    · cases h
  refine .intro (fun c a later h => ?_) (fun c hc a later h => ?_) fun t ts c c' hc => ?_
  · obtain ⟨us, hus, _⟩ := hreaches h
    exact ⟨us, hus.rest.symm⟩
  · obtain ⟨us, hus, hne⟩ := hreaches h
    have hlength := congrArg List.length hus.rest
    rw [hc, List.length_append] at hlength
    have hpos := List.length_pos_iff.mpr hne
    rw [Cursor.remaining]
    omega
  · intro a later h hle
    rw [skipGroup] at h
    rw [skipGroup]
    rw [Cursor.skipGroup?, hc.rest] at h
    rw [Cursor.skipGroup?, hc.rest']
    split at h
    · next hgroup =>
      cases h
      -- A group that is closed in front of the seam is closed there in both rows.
      obtain ⟨us, later', hgroup', hlater⟩ := hc.skipBrackets hgroup hle
      exact ⟨us, later', by rw [hgroup'], hlater⟩
    · cases h

/-! ### Texts -/

theorem passedText_cases {r : Reader Unit} {c later : Cursor} {text : String}
    (h : passedText r c = .ok (text, later)) : r c = .ok ((), later) ∧ text = c.textUpTo later := by
  rw [passedText] at h
  split at h
  · cases h
  · next hr =>
    cases h
    exact ⟨hr, rfl⟩

/-- What is passed is shown alike. -/
theorem same_passedText {n : Nat} {r r' : Reader Unit} {ahead : List Token} {c c' : Cursor}
    (hc : S.Beside ahead c c') (h : S.Same n (r c) (r' c')) :
    S.Same n (passedText r c) (passedText r' c') := by
  intro text later htext hle
  obtain ⟨hr, rfl⟩ := passedText_cases htext
  obtain ⟨us, later', hr', hlater⟩ := h _ _ hr hle
  refine ⟨us, later', ?_, hlater⟩
  rw [passedText, hr']
  dsimp only
  rw [hc.textUpTo hlater]

theorem Feeds.passedText {r r' : Reader Unit} (hr : Feeds S r r') :
    Feeds S (passedText r) (passedText r') where
  forward c _ later h := hr.forward c _ later (passedText_cases h).1
  same ahead c c' hc := same_passedText hc (hr.same ahead c c' hc)
  upTo hS ahead c c' hc := same_passedText hc (hr.upTo hS ahead c c' hc)
  hungry c hc _ later h := hr.hungry c hc _ later (passedText_cases h).1

/-! ### Two tokens ahead -/

theorem forward_kinds {f : TokenKind → TokenKind → Reader β}
    (hf : ∀ k n c b later, f k n c = .ok (b, later) → later.rest <:+ c.rest) :
    ∀ c b later, (Reader.kind >>= fun k => Reader.nextKind >>= f k) c = .ok (b, later) →
      later.rest <:+ c.rest :=
  fun c b later h => hf c.current.kind (c.lookahead 1).kind c b later h

/-- The rule for readers that look two tokens ahead: in front of the last token they pass it and go on, or
they do the same in front of what may be put in. -/
theorem Tracks.kinds {f f' : TokenKind → TokenKind → Reader β} (h : ∀ k n, Tracks S (f k n) (f' k n))
    (hnext : ∀ k n n', n'.isInert = true → f' k n' = f' k n
      ∨ ∃ g g' : Reader β, f k n = (Reader.advance >>= fun _ => g) ∧ Tracks S g g') :
    Tracks S (Reader.kind >>= fun k => Reader.nextKind >>= f k)
      (Reader.kind >>= fun k => Reader.nextKind >>= f' k) := by
  refine .intro (forward_kinds fun k n => (h k n).forward) fun t ts c c' hc => ?_
  change S.Same _ (f c.current.kind (c.lookahead 1).kind c) (f' c'.current.kind (c'.lookahead 1).kind c')
  rw [hc.current.1, hc.current.2]
  cases ts with
  | cons u us =>
    rw [hc.next.1, hc.next.2]
    exact (h t.kind u.kind).same _ c c' hc
  | nil =>
    rcases hc.next_end with hinert | hsame
    on_goal 2 =>
      rw [hsame]
      exact (h _ _).same _ c c' hc
    rcases hnext t.kind (c.lookahead 1).kind (c'.lookahead 1).kind hinert with heq | ⟨g, g', hf, hg⟩
    · rw [heq]
      exact (h _ _).same _ c c' hc
    · rw [hf]
      intro b later hb hle
      have hlater := remaining_le_of_suffix (hg.forward c.advance b later hb)
      rw [hc.advance.remaining, List.length_nil, Nat.zero_add] at hlater
      exact absurd (Nat.le_trans hle hlater) (Nat.not_succ_le_self _)

/-- The same up to the seam. What passes the last token has to pass one more. -/
theorem Copies.kinds {f f' : TokenKind → TokenKind → Reader β} (h : ∀ k n, Copies S (f k n) (f' k n))
    (hnext : ∀ k n n', n'.isInert = true → f' k n' = f' k n
      ∨ ∃ g g' : Reader β, f k n = (Reader.advance >>= fun _ => g) ∧ Feeds S g g')
    (hend : ∀ k n n', n'.isMetadata = true → Feeds S (f k n) (f' k n) ∨ f' .comma n' = f' k n) :
    Copies S (Reader.kind >>= fun k => Reader.nextKind >>= f k)
      (Reader.kind >>= fun k => Reader.nextKind >>= f' k) := by
  refine ⟨.kinds (fun k n => (h k n).toTracks) fun k n n' hn => ?_, fun hS ahead c c' hc => ?_⟩
  · exact (hnext k n n' hn).imp_right fun ⟨g, g', hf, hg⟩ => ⟨g, g', hf, hg.toTracks⟩
  change S.Same _ (f c.current.kind (c.lookahead 1).kind c) (f' c'.current.kind (c'.lookahead 1).kind c')
  -- What is looked at is this token and the next one: the seam is in front of both, between them or
  -- behind them.
  match ahead with
  | [] =>
    rcases hS.kinds hc with ⟨hcomma, hname⟩ | ⟨hsame, hsame'⟩
    on_goal 2 =>
      rw [hsame, hsame']
      exact (h _ _).upTo hS _ c c' hc
    rw [hcomma]
    rcases hend c.current.kind (c.lookahead 1).kind (c'.lookahead 1).kind hname with hfeeds | heq
    · intro b later hb hle
      exact absurd hle (Nat.not_le.mpr (hfeeds.hungry c hc.rest b later hb))
    · rw [heq]
      exact (h _ _).upTo hS _ c c' hc
  | [t] =>
    rw [hc.current.1, hc.current.2]
    rcases hc.next_end with hinert | hsame
    on_goal 2 =>
      rw [hsame]
      exact (h _ _).upTo hS _ c c' hc
    rcases hnext t.kind (c.lookahead 1).kind (c'.lookahead 1).kind hinert with heq | ⟨g, g', hf, hg⟩
    · rw [heq]
      exact (h _ _).upTo hS _ c c' hc
    · rw [hf]
      intro b later hb hle
      exact absurd hle (Nat.not_le.mpr (hg.hungry c.advance hc.advance.rest b later hb))
  | t :: u :: us =>
    rw [hc.current.1, hc.current.2, hc.next.1, hc.next.2]
    exact (h t.kind u.kind).upTo hS _ c c' hc

/-- The rule for an item behind a comma. What is put in starts none. -/
theorem Copies.item {starts : TokenKind → Bool} {yes yes' no no' : Reader β}
    (hinert : ∀ k, k.isInert = true → starts k = false)
    (hname : ∀ k, k.isMetadata = true → starts k = false) (hyes : Feeds S yes yes')
    (hno : Copies S no no') :
    Copies S
      (Reader.isAt .comma >>= fun more => Reader.nextKind >>= fun k =>
        if (more && starts k) = true then Reader.advance >>= fun _ => yes else no)
      (Reader.isAt .comma >>= fun more => Reader.nextKind >>= fun k =>
        if (more && starts k) = true then Reader.advance >>= fun _ => yes' else no') := by
  have hskip : ∀ (more : Bool) k, starts k = false → ¬ (more && starts k) = true := by
    intro more k hk
    rw [hk, Bool.and_false]
    exact Bool.false_ne_true
  refine @Copies.kinds β S
    (fun k n => if ((k == .comma) && starts n) = true then Reader.advance >>= fun _ => yes else no)
    (fun k n => if ((k == .comma) && starts n) = true then Reader.advance >>= fun _ => yes' else no')
    (fun k n => ?_) (fun k n n' hn => ?_) fun k n n' hn => ?_
  · split
    · exact (feeds_advance.bind fun _ => hyes.toCopies).toCopies
    · exact hno
  · rw [if_neg (hskip _ _ (hinert n' hn))]
    split
    · exact .inr ⟨yes, yes', rfl, hyes⟩
    · exact .inl rfl
  · rw [if_neg (hskip _ _ (hname n' hn))]
    split
    · exact .inl (feeds_advance.bind fun _ => hyes.toCopies)
    · exact .inr rfl

/-! ### Loops -/

theorem Tracks.iterate {step step' : σ → Reader (Round σ α)} (hstep : ∀ s, Tracks S (step s) (step' s))
    (s : σ) : Tracks S (iterate step s) (iterate step' s) := by
  have hloop : ∀ {bound bound' : List Token}, bound.length ≤ bound'.length →
      Tracks S (iterateFor step bound s) (iterateFor step' bound' s) := by
    intro bound bound' hbound
    refine iterateFor_rule (P := Tracks S) (fun r r' h => (Feeds.of_fails fun c => ⟨_, h c⟩).toTracks)
      (fun k k' hagain hdone s => (hstep s).bind fun round => ?_) hbound s
    cases round with
    | again s => exact hagain s
    | done a =>
      rw [(hdone a).1, (hdone a).2]
      exact (copies_pure a).toTracks
  exact ⟨fun c => (hloop (Nat.le_refl c.bound.length)).forward c,
    fun ahead c c' hc => (hloop hc.bound_length_le).same ahead c c' hc⟩

theorem Copies.iterate {step step' : σ → Reader (Round σ α)} (hstep : ∀ s, Copies S (step s) (step' s))
    (s : σ) : Copies S (iterate step s) (iterate step' s) := by
  have hloop : ∀ {bound bound' : List Token}, bound.length ≤ bound'.length →
      Copies S (iterateFor step bound s) (iterateFor step' bound' s) := by
    intro bound bound' hbound
    refine iterateFor_rule (P := Copies S) (fun r r' h => (Feeds.of_fails fun c => ⟨_, h c⟩).toCopies)
      (fun k k' hagain hdone s => (hstep s).bind fun round => ?_) hbound s
    cases round with
    | again s => exact hagain s
    | done a =>
      rw [(hdone a).1, (hdone a).2]
      exact copies_pure a
  exact ⟨⟨fun c => (hloop (Nat.le_refl c.bound.length)).forward c,
    fun ahead c c' hc => (hloop hc.bound_length_le).same ahead c c' hc⟩,
    fun hS ahead c c' hc => (hloop hc.bound_length_le).upTo hS ahead c c' hc⟩

/-- The rule for loops of which every round passes a token. In a round it may be used that what follows
another round passes a token, too. -/
theorem Feeds.iterate {step step' : σ → Reader (Round σ α)}
    (hround : ∀ k k' : Round σ α → Reader α, (∀ s, Feeds S (k (.again s)) (k' (.again s))) →
      (∀ a, k (.done a) = Pure.pure a ∧ k' (.done a) = Pure.pure a) →
      ∀ s, Feeds S (step s >>= k) (step' s >>= k'))
    (s : σ) : Feeds S (iterate step s) (iterate step' s) := by
  have hloop : ∀ {bound bound' : List Token}, bound.length ≤ bound'.length →
      Feeds S (iterateFor step bound s) (iterateFor step' bound' s) :=
    fun hbound => iterateFor_rule (P := Feeds S) (fun r r' h => .of_fails fun c => ⟨_, h c⟩) hround hbound s
  exact ⟨⟨⟨fun c => (hloop (Nat.le_refl c.bound.length)).forward c,
    fun ahead c c' hc => (hloop hc.bound_length_le).same ahead c c' hc⟩,
    fun hS ahead c c' hc => (hloop hc.bound_length_le).upTo hS ahead c c' hc⟩,
    fun c hc => (hloop (Nat.le_refl c.bound.length)).hungry c hc⟩

theorem Tracks.commaSeparated {item item' : Reader α} (hitem : Tracks S item item') :
    Tracks S (commaSeparated item) (commaSeparated item') := by
  rw [Reader.commaSeparated, Reader.commaSeparated]
  refine Tracks.bind (.iterate (fun items => hitem.bind fun a => ?_) #[])
    fun items => (copies_pure _).toTracks
  refine (tracks_accept .comma).bind fun more => ?_
  split <;> exact (copies_pure _).toTracks

theorem tracks_skipAttributes (isAttribute takesNumber : String → Bool) :
    Tracks S (skipAttributes isAttribute takesNumber) (skipAttributes isAttribute takesNumber) := by
  rw [skipAttributes]
  refine .iterate (fun _ => .kind fun k => ?_) ()
  split
  · split
    · refine feeds_advance.toTracks.bind fun _ => .kind fun k => ?_
      dsimp only
      split
      · exact feeds_skipGroup.toTracks.bind fun _ => (copies_pure _).toTracks
      · split
        · exact feeds_advance.toTracks.bind fun _ => (copies_pure _).toTracks
        · exact (copies_pure _).toTracks
      · exact (copies_pure _).toTracks
    · exact (copies_pure _).toTracks
  · exact (copies_pure _).toTracks

/-! ### Rounds -/

section

variable {step step' : σ → Reader (Round σ α)} {s s₁ : σ} {c c' c₁ : Cursor} {ahead : List Token}

theorem Rounds.forward (h : Rounds step s c s₁ c₁) (hstep : ∀ s, Tracks S (step s) (step' s)) :
    c₁.rest <:+ c.rest := by
  induction h with
  | refl s c => exact List.suffix_rfl
  | again h _ ih => exact ih.trans ((hstep _).forward _ _ _ h)

/-- Rounds that end in front of the seam are rounds in the other text. -/
theorem Rounds.tracks (h : Rounds step s c s₁ c₁) (hstep : ∀ s, Tracks S (step s) (step' s))
    (hc : S.Beside ahead c c') (hle : S.behind.length + 1 ≤ c₁.remaining) :
    ∃ us c₁', Rounds step' s c' s₁ c₁' ∧ S.Beside us c₁ c₁' := by
  induction h generalizing ahead c' with
  | refl s c => exact ⟨ahead, c', .refl s c', hc⟩
  | @again s s₁ s₂ c c₁ c₂ h hrest ih =>
    have hle₁ := Nat.le_trans hle (remaining_le_of_suffix (hrest.forward hstep))
    obtain ⟨us, c₁', h', hc₁⟩ := (hstep s).same ahead c c' hc _ _ h hle₁
    obtain ⟨vs, c₂', hrest', hc₂⟩ := ih hc₁ hle
    exact ⟨vs, c₂', .again h' hrest', hc₂⟩

/-- Rounds that end at the seam are rounds in the other text if an attachment was put in. -/
theorem Rounds.copies (h : Rounds step s c s₁ c₁) (hstep : ∀ s, Copies S (step s) (step' s))
    (hS : S.Attaches) (hc : S.Beside ahead c c') (hle : S.behind.length ≤ c₁.remaining) :
    ∃ us c₁', Rounds step' s c' s₁ c₁' ∧ S.Beside us c₁ c₁' := by
  induction h generalizing ahead c' with
  | refl s c => exact ⟨ahead, c', .refl s c', hc⟩
  | @again s s₁ s₂ c c₁ c₂ h hrest ih =>
    have hforward := hrest.forward fun s => (hstep s).toTracks
    have hle₁ := Nat.le_trans hle (remaining_le_of_suffix hforward)
    obtain ⟨us, c₁', h', hc₁⟩ := (hstep s).upTo hS ahead c c' hc _ _ h hle₁
    obtain ⟨vs, c₂', hrest', hc₂⟩ := ih hc₁ hle
    exact ⟨vs, c₂', .again h' hrest', hc₂⟩

end

end Reader

end IrRecords
