import IrRecords.Proofs.Token.Splices

/-!
# Attachments and flags as tokens

An attachment is put in at the end of a line, flags are put in behind a word. Both are cut into tokens of
their own, and all other tokens of the text stay what they were (`exists_splice_attachment`,
`exists_splice_words`). An attachment behind a comment belongs to the comment, and then nothing is put in.
-/

namespace IrRecords.Token

variable {p q : Position} {cs ds rest gap w front back : List Char} {c d : Char} {t : Token}
  {ts us : List Token} {s x : Stream} {kind : TokenKind} {L : Nat}

/-! ## The end of a line -/

/-- A text is cut at the end of a line: the tokens that begin on it or above, what is left of the line, and the
text below. -/
structure CutAt (front ds : List Char) (s : Stream) (ts : List Token) (q : Position) (gap : List Char)
    (x : Stream) : Prop where
  calls : Calls Position.start (front ++ '\n' :: ds) ts q (gap ++ '\n' :: ds)
  text : front = ts.flatMap piece ++ gap
  place : q = Position.start.after (ts.flatMap piece)
  isGap : gapFrom false gap = gap.length
  below : scanFrom (q.after (gap ++ ['\n'])) ds = .ok x
  stream : s = ⟨ts ++ (x.widen (gap ++ ['\n'])).tokens, (x.widen (gap ++ ['\n'])).stop⟩

/-- The place behind the last token of a row is the place behind the row. -/
theorem Calls.stop_line (h : Calls p cs ts q rest) (hp : p.line ≤ L)
    (hts : ∀ t ∈ ts, (t.start.after t.text).line ≤ L) : q.line ≤ L := by
  induction h with
  | nil p cs => exact hp
  | cons _ _ _ ih =>
    rw [List.forall_mem_cons] at hts
    exact ih hts.1 hts.2

/-- Where a text is more than a gap, its first token begins behind the gap. -/
theorem exists_first_of_gapLength_lt (h : scanFrom p cs = .ok s) (hlt : gapLength cs < cs.length) :
    ∃ t us, s.tokens = t :: us ∧ t.start = p.after (cs.take (gapLength cs)) := by
  rw [Token.scanFrom_eq] at h
  cases hnext : next p cs with
  | error d => rw [hnext] at h; cases h
  | ok r =>
    obtain ⟨t, rest⟩ := r
    obtain ⟨htext, hgap, hstart, _, heof⟩ := next_spec hnext
    rw [hnext] at h
    dsimp only at h
    split at h
    · next hkind =>
      -- If there were no token, the text would be nothing but its gap.
      obtain ⟨hnone, hrest⟩ := heof hkind
      rw [piece, hnone, hrest, List.append_nil, List.append_nil] at htext
      have hlength : cs.length ≤ gapLength cs := by
        rw [htext, hgap]
        exact Nat.le_trans (List.length_take_le _ _) (by rw [← hgap, ← htext])
      exact absurd hlt (Nat.not_lt.mpr hlength)
    · cases hscan : scanFrom (t.start.after t.text) rest with
      | error d => rw [hscan] at h; cases h
      | ok s' =>
        rw [hscan] at h
        cases h
        exact ⟨t, s'.tokens, rfl, hgap ▸ hstart⟩

/-- **A text is cut at the end of each line** that no token goes on behind. -/
theorem exists_cutAt (hs : scanFrom Position.start (front ++ '\n' :: ds) = .ok s)
    (hL : (Position.start.after front).line = L)
    (hclosed : ∀ t ∈ s.tokens, t.line ≤ L → (t.start.after t.text).line ≤ L) :
    ∃ ts q gap x, CutAt front ds s ts q gap x ∧ (∀ t ∈ ts, t.line ≤ L)
      ∧ ∀ t ∈ x.tokens, L < t.line := by
  have hsplit : s.tokens.takeWhile (·.line ≤ L) ++ s.tokens.dropWhile (·.line ≤ L) = s.tokens :=
    List.takeWhile_append_dropWhile
  have habove : ∀ t ∈ s.tokens.takeWhile (·.line ≤ L), t.line ≤ L := fun t ht => by
    simpa using List.mem_takeWhile_imp ht
  generalize hts : s.tokens.takeWhile (·.line ≤ L) = ts at hsplit habove
  generalize hus : s.tokens.dropWhile (·.line ≤ L) = us at hsplit
  obtain ⟨q, rest, hcalls, hrest⟩ := exists_calls_of_append hs hsplit.symm
  obtain ⟨htext, hq⟩ := hcalls.text
  have hqline : q.line ≤ L := by
    refine hcalls.stop_line (hL ▸ Position.line_le_after _ _) fun t ht => ?_
    exact hclosed t (hsplit ▸ List.mem_append_left us ht) (habove t ht)
  -- The row of tokens ends in front of the line break.
  obtain ⟨gap, hfront, rfl⟩ : ∃ gap, front = ts.flatMap piece ++ gap ∧ rest = gap ++ '\n' :: ds := by
    rcases List.append_eq_append_iff.mp htext with ⟨behind, hall, hrest⟩ | ⟨gap, hall, hrest⟩
    · cases behind with
      | nil => exact ⟨[], by rw [hall, List.append_nil, List.append_nil], hrest.symm⟩
      | cons d behind =>
        obtain ⟨rfl, -⟩ := List.cons.inj hrest
        have hbreak := Position.line_le_after ((Position.start.after front).next '\n') behind
        have hnext : ((Position.start.after front).next '\n').line = L + 1 := congrArg (· + 1) hL
        rw [hq, hall, Position.after_append, Position.after_cons] at hqline
        omega
    · exact ⟨gap, hall, hrest⟩
  have hend : (q.after gap).line = L := by rw [hq, ← Position.after_append, ← hfront, hL]
  -- Its first token would be on the line, were there one in front of the line break.
  have hgap : gapFrom false gap = gap.length := by
    refine gapFrom_eq_length ('\n' :: ds) (Nat.le_of_not_lt fun hlt => ?_)
    obtain ⟨t, us', rfl, hstart⟩ := exists_first_of_gapLength_lt hrest
      (Nat.lt_of_lt_of_le hlt (by rw [List.length_append]; exact Nat.le_add_right _ _))
    have hbelow : ¬ t.line ≤ L := by
      have hhead := List.head?_dropWhile_not (·.line ≤ L) s.tokens
      rw [hus] at hhead
      simpa using hhead
    refine hbelow ?_
    have hle : gapLength (gap ++ '\n' :: ds) ≤ gap.length := Nat.le_of_lt hlt
    have hprefix : gap = (gap ++ '\n' :: ds).take (gapLength (gap ++ '\n' :: ds))
        ++ gap.drop (gapLength (gap ++ '\n' :: ds)) := by
      rw [List.take_append_of_le_length hle, List.take_append_drop]
    rw [← hend, hprefix, Position.after_append, ← hstart]
    exact Position.line_le_after _ _
  have hscan := scanFrom_of_gapLength (gapFrom_append_newline hgap ds) q
  rw [List.append_assoc, List.singleton_append, hrest] at hscan
  cases hx : scanFrom (q.after (gap ++ ['\n'])) ds with
  | error d => rw [hx] at hscan; cases hscan
  | ok x =>
    rw [hx] at hscan
    have hstream : (⟨us, s.stop⟩ : Stream) = x.widen (gap ++ ['\n']) := Except.ok.inj hscan
    refine ⟨ts, q, gap, x, ⟨hcalls, hfront, hq, hgap, hx, ?_⟩, habove, fun t ht => ?_⟩
    · rw [← hstream, hsplit]
    · have hline := ((scanFrom_spec hx).line_bounds ht).1
      have hnext : (q.after (gap ++ ['\n'])).line = L + 1 := by
        rw [Position.after_append, ← hend]
        rfl
      rw [hnext] at hline
      exact hline

/-- Where a token begins, seen from another one in front of it. -/
theorem Tiles.start_eq {pre mid post : List Token} {u : Token} (h : Tiles p cs s)
    (hrow : s.tokens = pre ++ t :: (mid ++ u :: post)) :
    u.start = t.start.after (t.text ++ mid.flatMap piece ++ u.gap) := by
  have ht := h.placed pre t _ hrow
  have hu := h.placed (pre ++ t :: mid) u post (by rw [hrow, List.append_assoc, List.cons_append])
  rw [hu, ht, ← Position.after_append]
  simp only [List.flatMap_append, List.flatMap_cons, piece, List.append_assoc]

/-- Of two tokens the first one does not begin further down. -/
theorem Tiles.line_le {pre mid post : List Token} {u : Token} (h : Tiles p cs s)
    (hrow : s.tokens = pre ++ t :: (mid ++ u :: post)) : t.line ≤ u.line := by
  rw [line, line, h.start_eq hrow]
  exact Position.line_le_after _ _

/-- Of two tokens on a line the second one is not in the first column. -/
theorem Tiles.column_ne_one {pre mid post : List Token} {u : Token} (h : Tiles p cs s) (hp : 0 < p.column)
    (hrow : s.tokens = pre ++ t :: (mid ++ u :: post)) (hline : u.line = t.line) : u.start.column ≠ 1 := by
  have hstart := h.start_eq hrow
  have hflat : '\n' ∉ t.text ++ mid.flatMap piece ++ u.gap := by
    refine Position.newline_not_mem_of_line (p := t.start) ?_
    rw [← hstart]
    exact hline
  have hne : t.text ++ mid.flatMap piece ++ u.gap ≠ [] := by
    obtain ⟨c, w, htext, _⟩ := (h.lexed t (by rw [hrow]; simp)).exists_first
    rw [htext]
    exact List.cons_ne_nil _ _
  have hpos : 0 < t.start.column := h.placed pre t _ hrow ▸ Position.column_pos_after hp _
  have hcolumn := Position.column_lt_after hflat hne hpos
  rw [← hstart] at hcolumn
  exact Nat.ne_of_gt hcolumn

/-- If there is a token further down, the line of a token ends in front of it. -/
theorem Tiles.exists_line_end {pre mid post : List Token} {u : Token} (h : Tiles p cs s)
    (hrow : s.tokens = pre ++ t :: (mid ++ u :: post)) (hlt : t.line < u.line) :
    ∃ front ds, cs = front ++ '\n' :: ds ∧ (p.after front).line = t.line := by
  have hstart := h.start_eq hrow
  have hmem : '\n' ∈ t.text ++ mid.flatMap piece ++ u.gap := by
    by_contra hflat
    rw [line, line, hstart, line_after hflat] at hlt
    exact absurd hlt (Nat.lt_irrefl _)
  obtain ⟨w, w', hw, hflat⟩ := List.eq_append_cons_of_mem hmem
  refine ⟨pre.flatMap piece ++ t.gap ++ w, w' ++ u.text ++ post.flatMap piece ++ s.stop.gap, ?_, ?_⟩
  · have htext : cs = pre.flatMap piece ++ t.gap ++ (t.text ++ mid.flatMap piece ++ u.gap)
        ++ u.text ++ post.flatMap piece ++ s.stop.gap := by
      rw [h.text, hrow]
      simp only [List.flatMap_append, List.flatMap_cons, piece, List.append_assoc]
    rw [htext, hw]
    simp only [List.append_assoc, List.cons_append]
  · rw [Position.after_append, ← h.placed pre t _ hrow]
    exact line_after hflat _

/-- What stands behind a token of a line, up to the end of the line. -/
theorem Tiles.exists_rest_of_line {pre rest : List Token} (h : Tiles p cs s) (hsplit : s.tokens = ts ++ us)
    (habove : ∀ t ∈ ts, t.line ≤ L) (hbelow : ∀ t ∈ us, L < t.line)
    (hrow : s.tokens = pre ++ t :: rest) (ht : t.line = L) :
    ∃ rs, ts = pre ++ t :: rs ∧ rest = rs ++ us ∧ ∀ u ∈ rs, u.line = L := by
  have hall : (pre ++ [t]) ++ rest = ts ++ us := by rw [← hsplit, hrow, List.append_assoc]; rfl
  rcases List.append_eq_append_iff.mp hall with ⟨rs, hts, hrest⟩ | ⟨mid, hpre, hus⟩
  · rw [List.append_assoc, List.singleton_append] at hts
    refine ⟨rs, hts, hrest, fun u hu => Nat.le_antisymm (habove u ?_) ?_⟩
    · rw [hts]
      exact List.mem_append_right _ (List.mem_cons_of_mem _ hu)
    · obtain ⟨before, behind, rfl⟩ := List.append_of_mem hu
      rw [hrest, List.append_assoc, List.cons_append] at hrow
      exact ht ▸ h.line_le hrow
  · rcases List.eq_nil_or_concat mid with rfl | ⟨mid, u, rfl⟩
    · refine ⟨[], ?_, hus.symm, List.forall_mem_nil _⟩
      rw [← List.append_nil ts, ← hpre]
    · -- The token itself would be below the line.
      rw [List.concat_eq_append, ← List.append_assoc] at hpre
      obtain ⟨_, rfl⟩ := List.append_singleton_inj.mp hpre
      have hmem : t ∈ us := hus ▸ List.mem_append_left _ (by simp)
      exact absurd (hbelow t hmem) (by omega)

/-- Where calls lead to the line break, and the next line begins as it did, the same tokens follow. -/
theorem CutAt.exists_splice {text : List Char} {is : List Token} {q' : Position}
    (h : CutAt front ds s ts q gap x) (margin : List Char)
    (hs : scanFrom Position.start (front ++ '\n' :: ds) = .ok s)
    (hcalls : Calls Position.start text (ts ++ is) q' (margin ++ ds))
    (hmargin : gapLength (margin ++ ds) = margin.length + gapLength ds)
    (hplace : (q.after (gap ++ ['\n'])).Aligned (q'.after margin)) :
    ∃ s' us', scanFrom Position.start text = .ok s'
      ∧ Splice s s' ts is (x.widen (gap ++ ['\n'])).tokens us' := by
  obtain ⟨x', hx', htokens, hstop⟩ := exists_scanFrom_of_aligned h.below hplace
  have hrest : scanFrom q' (margin ++ ds) = .ok (x'.widen margin) := by
    rw [scanFrom_of_gapLength hmargin, hx']
    rfl
  have hs' := hcalls.scanFrom_eq hrest
  have hspec := scanFrom_spec hs
  have hspec' := scanFrom_spec hs'
  have hline : (x'.widen margin).stop.line = (x.widen (gap ++ ['\n'])).stop.line := by
    rw [line, line, (Stream.stop_widen _ _).2, (Stream.stop_widen _ _).2]
    exact hstop.start.line
  have hrow : SameRow (x.widen (gap ++ ['\n'])).tokens (x'.widen margin).tokens := by
    rw [Stream.tokens_widen, Stream.tokens_widen]
    exact (sameRow_of_shifted htokens).widen _ _
  refine ⟨_, (x'.widen margin).tokens, hs', ?_⟩
  rw [h.stream] at hspec ⊢
  exact ⟨rfl, List.append_assoc _ _ _, hrow, fun t ht => hspec.lexed t (List.mem_append_right _ ht),
    fun t ht => hspec'.lexed t (List.mem_append_right _ ht), hspec.stop, hspec'.stop, hline⟩

/-! ## Attachments -/

/-- The characters of the names of metadata. -/
def isMetadataChar (c : Char) : Bool := Text.isNameChar c || c == '\\'

/-- What stands behind the exclamation mark of metadata. -/
structure IsMetadataName (w : List Char) : Prop where
  nonempty : w ≠ []
  chars : ∀ c ∈ w, isMetadataChar c = true

/-- The text `, !name !node`. -/
def attachmentText (name node : List Char) : List Char :=
  ',' :: ' ' :: '!' :: (name ++ ' ' :: '!' :: node)

variable {name node : List Char}

theorem lexeme_bang (hw : IsMetadataName w) (hrest : ∀ c, rest.head? = some c → isMetadataChar c = false) :
    lexeme '!' (w ++ rest) = .ok (.metadata (String.ofList w), w.length) := by
  have htake : (w ++ rest).takeWhile (fun d => Text.isNameChar d || d == '\\') = w :=
    takeWhile_append (p := isMetadataChar) hw.chars hrest
  rw [lexeme_exclamation, htake]
  exact if_neg fun h => hw.nonempty (List.isEmpty_iff.mp h)

theorem IsMetadataName.newline_not_mem (hw : IsMetadataName w) : '\n' ∉ w :=
  fun h => absurd (hw.chars _ h) (by decide)

theorem newline_not_mem_attachmentText (hname : IsMetadataName name) (hnode : IsMetadataName node) :
    '\n' ∉ attachmentText name node := by
  simp [attachmentText, hname.newline_not_mem, hnode.newline_not_mem]

/-- **An attachment is cut into three tokens**, all on one line. -/
theorem exists_calls_attachment (rest : List Char) (hname : IsMetadataName name) (hnode : IsMetadataName node)
    (hgap : ∀ cs, gapLength (gap ++ ',' :: cs) = gap.length)
    (hrest : ∀ c, rest.head? = some c → isMetadataChar c = false) (q : Position) :
    ∃ is q', Calls q (gap ++ (attachmentText name node ++ rest)) is q' rest
      ∧ is.map Token.kind = [.comma, .metadata (String.ofList name), .metadata (String.ofList node)]
      ∧ ∀ t ∈ is, t.line = (q.after gap).line := by
  have hblank : ∀ c, (' ' :: '!' :: (node ++ rest)).head? = some c → isMetadataChar c = false := by
    rintro c hc
    cases hc
    rfl
  have hmetadata : ∀ {w rest : List Char}, IsMetadataName w →
      (∀ c, rest.head? = some c → isMetadataChar c = false) → ∀ p : Position,
      next p (' ' :: '!' :: (w ++ rest))
        = .ok (⟨.metadata (String.ofList w), [' '], '!' :: w, p.after [' ']⟩, rest) :=
    fun hw hrest => next_of_lexeme [' '] rfl (lexeme_bang hw hrest)
  have hlex : lexeme ',' ([] ++ ' ' :: '!' :: (name ++ ' ' :: '!' :: (node ++ rest))) = .ok (.comma, 0) := rfl
  have hcomma := next_of_lexeme gap (hgap (' ' :: '!' :: (name ++ ' ' :: '!' :: (node ++ rest)))) hlex q
  have htext : gap ++ (attachmentText name node ++ rest)
      = gap ++ ',' :: ([] ++ ' ' :: '!' :: (name ++ ' ' :: '!' :: (node ++ rest))) := by
    simp [attachmentText]
  rw [htext]
  refine ⟨_, _, .cons hcomma TokenKind.noConfusion (.cons (hmetadata hname hblank _)
    TokenKind.noConfusion (.cons (hmetadata hnode hrest _) TokenKind.noConfusion (.nil _ _))), rfl, ?_⟩
  -- Only a line break inside of the first name could move the second one to another line.
  have hflat : '\n' ∉ '!' :: name := by simp [hname.newline_not_mem]
  simp only [List.forall_mem_cons]
  refine ⟨rfl, rfl, ?_, List.forall_mem_nil _⟩
  exact line_after hflat _

/-- **What is put in at the end of a line are the tokens of the attachment**, or nothing if the line ends with
a comment. -/
theorem exists_splice_attachment (hname : IsMetadataName name) (hnode : IsMetadataName node)
    (hs : scanFrom Position.start (front ++ '\n' :: ds) = .ok s)
    (hL : (Position.start.after front).line = L)
    (hclosed : ∀ t ∈ s.tokens, t.line ≤ L → (t.start.after t.text).line ≤ L) :
    ∃ s' ts is us us',
      scanFrom Position.start (front ++ (attachmentText name node ++ '\n' :: ds)) = .ok s'
        ∧ Splice s s' ts is us us' ∧ (∀ t ∈ ts, t.line ≤ L) ∧ (∀ t ∈ us, L < t.line)
        ∧ (is = [] ∨ is.map Token.kind
          = [.comma, .metadata (String.ofList name), .metadata (String.ofList node)])
        ∧ ∀ t ∈ is, t.line = L := by
  obtain ⟨ts, q, gap, x, hcut, habove, hbelow⟩ := exists_cutAt hs hL hclosed
  have hbelow' : ∀ t ∈ (x.widen (gap ++ ['\n'])).tokens, L < t.line := by
    rw [Stream.tokens_widen]
    exact mem_widen_line hbelow
  have hend : (q.after gap).line = L := by
    rw [hcut.place, ← Position.after_append, ← hcut.text, hL]
  have hflat := newline_not_mem_attachmentText hname hnode
  -- What is left of the line, or the comma, ends the row of tokens.
  obtain ⟨d, es, hrow, hd⟩ : ∃ d es, gap ++ (attachmentText name node ++ '\n' :: ds) = d :: es
      ∧ endsToken d = true := by
    have hgap := hcut.isGap
    cases gap with
    | nil => exact ⟨_, _, rfl, rfl⟩
    | cons d gap => exact ⟨d, _, rfl, endsToken_of_isBreak (isBreak_of_gapLength hgap)⟩
  have hcalls := hcut.calls.before hd es
  rw [← hrow, ← List.append_assoc, ← hcut.text] at hcalls
  obtain ⟨inside, hgap⟩ := exists_gapFrom_append hcut.isGap
  have hnewline : q.after (gap ++ ['\n']) = (q.after gap).after ['\n'] := Position.after_append _ _ _
  cases inside with
  | false =>
    obtain ⟨is, q', hatt, hkinds, hlines⟩ := exists_calls_attachment ('\n' :: ds) hname hnode
      (fun cs => hgap (',' :: cs)) (fun c hc => by cases hc; rfl) q
    have hplace : q' = q.after (gap ++ attachmentText name node) := by
      obtain ⟨htext, hq'⟩ := hatt.text
      rw [← List.append_assoc] at htext
      rw [hq', List.append_cancel_right htext]
    obtain ⟨s', us', hs', hsplice⟩ := hcut.exists_splice ['\n'] hs (hcalls.append hatt)
      (Nat.add_comm _ _) (by
        rw [hnewline, hplace, Position.after_append]
        exact Position.aligned_newline (line_after hflat _))
    exact ⟨s', ts, is, _, us', hs', hsplice, habove, hbelow', .inr hkinds, fun t ht => hend ▸ hlines t ht⟩
  | true =>
    have hmargin : ∀ cs, gapLength (gap ++ (attachmentText name node ++ ['\n']) ++ cs)
        = (gap ++ (attachmentText name node ++ ['\n'])).length + gapLength cs := by
      intro cs
      rw [List.append_assoc, gapLength, hgap, List.append_assoc, gapFrom_true_append hflat,
        List.singleton_append, gapFrom_newline]
      simp only [List.length_append, List.length_singleton, gapLength]
      omega
    obtain ⟨s', us', hs', hsplice⟩ := hcut.exists_splice (gap ++ (attachmentText name node ++ ['\n'])) hs (by
        rw [List.append_nil]
        simpa using hcalls) (hmargin ds) (by
        rw [hnewline, ← List.append_assoc, Position.after_append _ _ ['\n'], Position.after_append]
        exact Position.aligned_newline (line_after hflat _))
    exact ⟨s', ts, [], _, us', hs', hsplice, habove, hbelow', .inl rfl, List.forall_mem_nil _⟩

/-! ## Words -/

/-- Only a row of name characters is a word, and no colon stands behind it. -/
theorem wordOrLabel_of_lexeme {text : String} {used : Nat} (h : lexeme c cs = .ok (.word text, used)) :
    Text.isNameChar c = true
      ∧ wordOrLabel c cs (runLength Text.isNameChar cs) = (.word text, used) := by
  generalize hkind : TokenKind.word text = kind at h ⊢
  cases lexes_of_lexeme h with
  | word hname _ hword => exact ⟨hname, hword⟩
  | punctuation hp =>
    -- No character is a word by itself.
    subst hkind
    unfold punctuation? at hp
    split at hp
    all_goals cases hp
  | @negative isFloat _ _ _ _ => cases isFloat <;> cases hkind
  | @numeral isFloat _ _ _ _ => cases isFloat <;> cases hkind
  | _ => cases hkind

/-- What may stand behind a word. -/
def EndsWord (rest : List Char) : Prop :=
  ∀ d, rest.head? = some d → Text.isNameChar d = false ∧ d ≠ ':'

/-- A word is a row of name characters, up to what ends it. -/
theorem endsWord_of_lexeme {text : String} (h : lexeme c (w ++ rest) = .ok (.word text, w.length)) :
    (∀ d ∈ c :: w, Text.isNameChar d = true) ∧ EndsWord rest := by
  obtain ⟨hc, hword⟩ := wordOrLabel_of_lexeme h
  rw [wordOrLabel] at hword
  split at hword
  · cases hword
  · next hcolon =>
    obtain ⟨-, hrun⟩ := Prod.mk.inj hword
    rw [hrun, List.drop_left] at hcolon
    have hsplit : (w ++ rest).takeWhile Text.isNameChar ++ (w ++ rest).dropWhile Text.isNameChar
        = w ++ rest := List.takeWhile_append_dropWhile
    obtain ⟨htake, hdrop⟩ := List.append_inj hsplit hrun
    refine ⟨List.forall_mem_cons.mpr ⟨hc, fun d hd => ?_⟩, fun d hd => ⟨?_, ?_⟩⟩
    · rw [← htake] at hd
      exact List.mem_takeWhile_imp hd
    · have hhead := List.head?_dropWhile_not Text.isNameChar (w ++ rest)
      rw [hdrop, hd] at hhead
      simpa using hhead
    · rintro rfl
      exact hcolon hd

/-- A word of two characters or more. -/
structure IsFlag (w : String) : Prop where
  word : IsWord w.toList
  long : 2 ≤ w.toList.length

instance (w : String) : Decidable (IsFlag w) :=
  decidable_of_iff (IsWord w.toList ∧ 2 ≤ w.toList.length) ⟨fun h => ⟨h.1, h.2⟩, fun h => ⟨h.1, h.2⟩⟩

/-- The text of some words, with a blank in front of each. -/
def wordsText (ws : List String) : List Char := ws.flatMap fun w => ' ' :: w.toList

theorem next_flag {w : String} (hw : IsFlag w) (hrest : EndsWord rest) (p : Position) :
    next p (' ' :: (w.toList ++ rest)) = .ok (⟨.word w, [' '], w.toList, p.after [' ']⟩, rest) := by
  have hword : w = String.ofList w.toList := String.ofList_toList.symm
  obtain ⟨⟨⟨c, cs, hcs, hc⟩, hall⟩, hlong⟩ := hw
  rw [hcs] at hall hlong hword ⊢
  have hquote : (cs ++ rest).head? ≠ some '"' := by
    cases cs with
    | nil => exact absurd hlong (Nat.not_succ_le_self 1)
    | cons d cs =>
      intro h
      cases h
      exact absurd (hall '"' (by simp)) (by decide)
  have htake : (cs ++ rest).takeWhile Text.isNameChar = cs :=
    takeWhile_append (fun d hd => hall d (List.mem_cons_of_mem _ hd)) fun d hd => (hrest d hd).1
  have hcolon : rest.head? ≠ some ':' := fun h => (hrest _ h).2 rfl
  have hlex : lexeme c (cs ++ rest) = .ok (.word w, cs.length) := by
    rw [lexeme_of_isAlpha hc hquote, runLength, htake, wordOrLabel, List.drop_left, if_neg hcolon,
      List.take_left, ← hword]
  exact next_of_lexeme [' ']
    (congrArg (· + 1) (gapLength_of_isNameChar (isNameChar_of_isAlpha hc) _)) hlex p

/-- **Words are cut into one token each**, all on one line. -/
theorem exists_calls_words {ws : List String} (hws : ∀ w ∈ ws, IsFlag w) (hrest : EndsWord rest)
    (q : Position) : ∃ is q', Calls q (wordsText ws ++ rest) is q' rest
      ∧ is.map Token.kind = ws.map .word ∧ ∀ t ∈ is, t.line = q.line := by
  induction ws generalizing q with
  | nil => exact ⟨[], q, .nil q rest, rfl, List.forall_mem_nil _⟩
  | cons w ws ih =>
    rw [List.forall_mem_cons] at hws
    -- What follows a word is the blank of the next one, or the rest of the text.
    have hends : EndsWord (wordsText ws ++ rest) := by
      cases ws with
      | nil => exact hrest
      | cons w ws =>
        rintro d hd
        cases hd
        exact ⟨rfl, by decide⟩
    have hnext := next_flag hws.1 hends q
    obtain ⟨is, q', hcalls, hkinds, hlines⟩ := ih hws.2 ((q.after [' ']).after w.toList)
    have htext : wordsText (w :: ws) ++ rest = ' ' :: (w.toList ++ (wordsText ws ++ rest)) := by
      simp [wordsText]
    have hflat : ((q.after [' ']).after w.toList).line = q.line :=
      line_after (newline_not_mem hws.1.word.2) _
    rw [htext]
    refine ⟨_, q', .cons hnext TokenKind.noConfusion hcalls, ?_, ?_⟩
    · rw [List.map_cons, List.map_cons, hkinds]
    · exact List.forall_mem_cons.mpr ⟨rfl, fun t ht => (hlines t ht).trans hflat⟩

theorem newline_not_mem_wordsText {ws : List String} (hws : ∀ w ∈ ws, IsFlag w) :
    '\n' ∉ wordsText ws := by
  rw [wordsText, List.mem_flatMap]
  rintro ⟨w, hw, h⟩
  rcases List.mem_cons.mp h with h | h
  · cases h
  · exact newline_not_mem (hws w hw).word.2 h

/-- Behind a row of calls that ends with a word is the place behind the word, and what may stand there. -/
theorem Calls.last_word {pre : List Token} {text : String} (h : Calls p cs (pre ++ [t]) q rest)
    (hword : t.kind = .word text) :
    q = t.start.after t.text ∧ '\n' ∉ t.text ∧ t.text ≠ [] ∧ EndsWord rest := by
  generalize hts : pre ++ [t] = ts at h
  induction h generalizing pre with
  | nil p cs => simp at hts
  | @cons p q cs cs₁ rest t' ts hnext hne hrest ih =>
    cases pre with
    | cons _ pre => exact ih (List.cons.inj hts).2
    | nil =>
      obtain ⟨rfl, rfl⟩ := List.cons.inj hts
      cases hrest
      obtain ⟨c, w, ht, _, _, hlex⟩ := exists_lexeme_of_next hnext hne
      rw [hword] at hlex
      obtain ⟨hall, hends⟩ := endsWord_of_lexeme hlex
      have htext : t.text = c :: w := by rw [ht]
      rw [htext]
      exact ⟨rfl, newline_not_mem hall, List.cons_ne_nil _ _, hends⟩

/-- **What is put in behind a word are the words.** -/
theorem exists_splice_words {ws : List String} {pre : List Token} {text : String}
    (hws : ∀ w ∈ ws, IsFlag w) (hne : ws ≠ [])
    (hs : scanFrom Position.start (front ++ back) = .ok s) (htokens : s.tokens = (pre ++ [t]) ++ us)
    (hfront : front = (pre ++ [t]).flatMap piece) (hword : t.kind = .word text) :
    ∃ s' is us', scanFrom Position.start (front ++ (wordsText ws ++ back)) = .ok s'
      ∧ Splice s s' (pre ++ [t]) is us us' ∧ is.map Token.kind = ws.map .word
      ∧ ∀ u ∈ is, u.line = t.line := by
  obtain ⟨q, rest, hcalls, hrest⟩ := exists_calls_of_append hs htokens
  obtain ⟨htext, hq⟩ := hcalls.text
  rw [← hfront] at htext
  obtain rfl : back = rest := List.append_cancel_left htext
  obtain ⟨hplace, hflat, htextne, hback⟩ := hcalls.last_word hword
  obtain ⟨is, q', hwords, hkinds, hlines⟩ := exists_calls_words hws hback q
  have hplace' : q' = q.after (wordsText ws) := by
    rw [hwords.text.2, List.append_cancel_right hwords.text.1]
  -- Both what was behind the word and what is there now begin inside of the line.
  have hpos : 0 < t.start.column := by
    rw [(scanFrom_spec hs).placed pre t us (by rw [htokens, List.append_assoc]; rfl)]
    exact Position.column_pos_after Nat.one_pos _
  have hcolumn : 1 < q.column := hplace ▸ Position.column_lt_after hflat htextne hpos
  have hne' : wordsText ws ≠ [] := by
    cases ws with
    | nil => exact absurd rfl hne
    | cons w ws => exact List.cons_ne_nil _ _
  have hflat' := newline_not_mem_wordsText hws
  have hcolumn' : 1 < q'.column :=
    hplace' ▸ Position.column_lt_after hflat' hne' (Nat.zero_lt_of_lt hcolumn)
  have haligned : q.Aligned q' :=
    ⟨hplace' ▸ line_after hflat' q, by omega, Nat.zero_lt_of_lt hcolumn, Nat.zero_lt_of_lt hcolumn'⟩
  obtain ⟨x, hx, hrow, hstop⟩ := exists_scanFrom_of_aligned hrest haligned
  obtain ⟨es, hes⟩ : ∃ es, wordsText ws ++ back = ' ' :: es := by
    cases ws with
    | nil => exact absurd rfl hne
    | cons w ws => exact ⟨_, rfl⟩
  have hfirst := hcalls.before (d := ' ') rfl es
  rw [← hes, ← hfront] at hfirst
  have hs' := (hfirst.append hwords).scanFrom_eq hx
  have hspec := scanFrom_spec hs
  have hspec' := scanFrom_spec hs'
  refine ⟨_, is, x.tokens, hs', ⟨htokens, List.append_assoc _ _ _, sameRow_of_shifted hrow,
    fun u hu => hspec.lexed u (htokens ▸ List.mem_append_right _ hu),
    fun u hu => hspec'.lexed u (List.mem_append_right _ hu), hspec.stop, hspec'.stop, hstop.start.line⟩,
    hkinds, fun u hu => (hlines u hu).trans (hplace ▸ line_after hflat _)⟩

end IrRecords.Token
