import IrRecords.Proofs.Reader.Placing

/-!
# Bracketed groups

A group in which all brackets are matched is passed up to its own closer, whatever stands in it and behind
it. Where they are not matched it takes more to say what has been passed: a closer that does not answer the
innermost open bracket is passed over, even if it would answer one further out. `Inside b ts` says which
rows stand between an opener of `b` and the closer that answers it, in terms of the rows alone. Such a row
leaves every stack with `b` on top as it was (`Inside.skipBrackets_eq`), and wherever a stack is emptied
such a row is ahead of the closer that answers its top (`exists_closer`). So what comes of a group is known
for every row of tokens (`matchesBrackets_of_opener`).
-/

namespace IrRecords

/-! ## Rows of brackets -/

namespace Token

/-- A row of groups and of tokens that are no brackets. A group is an opener, such a row, and the closer
of the same bracket. -/
inductive Balanced : List Token → Prop
  | nil : Balanced []
  | plain {t : Token} {ts : List Token} (ht : t.kind.isBracket = false) (h : Balanced ts) :
      Balanced (t :: ts)
  | group {b : Bracket} {opener closer : Token} {inner ts : List Token}
      (hopener : opener.kind = .opener b) (hinner : Balanced inner) (hcloser : closer.kind = .closer b)
      (h : Balanced ts) : Balanced (opener :: (inner ++ closer :: ts))

/-- A row between an opener of `b` and the closer that answers it: groups, tokens that are no brackets,
and closers of other brackets, which answer nothing. -/
inductive Inside : Bracket → List Token → Prop
  | nil {b : Bracket} : Inside b []
  | plain {b : Bracket} {t : Token} {ts : List Token} (ht : t.kind.isBracket = false)
      (h : Inside b ts) : Inside b (t :: ts)
  | stray {b b' : Bracket} {t : Token} {ts : List Token} (ht : t.kind = .closer b') (hne : b' ≠ b)
      (h : Inside b ts) : Inside b (t :: ts)
  | group {b b' : Bracket} {opener closer : Token} {inner ts : List Token}
      (hopener : opener.kind = .opener b') (hinner : Inside b' inner)
      (hcloser : closer.kind = .closer b') (h : Inside b ts) :
      Inside b (opener :: (inner ++ closer :: ts))

/-- Where all brackets are matched there is nothing to pass over. -/
theorem Balanced.inside {ts : List Token} (h : Balanced ts) (b : Bracket) : Inside b ts := by
  induction h generalizing b with
  | nil => exact .nil
  | plain ht _ ih => exact .plain ht (ih b)
  | group hopener _ hcloser _ ihinner ih => exact .group hopener (ihinner _) hcloser (ih b)

end Token

/-! ## What rows do to the open brackets -/

namespace Cursor

variable {b : Bracket} {S S' : List Bracket} {t : Token}

/-- A token behind which a bracket is open is passed. Of the cursor nothing is kept but the end of the
text. -/
theorem skipBrackets_of_open (h : bracketsAfter S t = b :: S') (c : Cursor) (ts : List Token) :
    skipBrackets S c (t :: ts) = skipBrackets (b :: S') c ts := by
  rw [skipBrackets, h]
  cases ts <;> rfl

/-- A token behind which no bracket is open is the last one. -/
theorem skipBrackets_of_closed (h : bracketsAfter S t = []) (c : Cursor) (ts : List Token) :
    skipBrackets S c (t :: ts) = some ⟨some t.line, ts, c.stop⟩ := by
  rw [skipBrackets, h]

end Cursor

namespace Token

open Cursor

variable {b : Bracket} {closer : Token} {ts inner after : List Token}

/-- **What stands inside of a bracket leaves the stack as it was**, whatever is open further out. -/
theorem Inside.skipBrackets_eq (h : Inside b ts) (S : List Bracket) (c : Cursor) (us : List Token) :
    skipBrackets (b :: S) c (ts ++ us) = skipBrackets (b :: S) c us := by
  -- The stack is general because a group inside puts its own bracket on top of it.
  induction h generalizing S us with
  | nil => rfl
  | plain ht _ ih => rw [List.cons_append, skipBrackets_of_open (bracketsAfter_plain ht _), ih]
  | stray ht hne _ ih => rw [List.cons_append, skipBrackets_of_open (bracketsAfter_stray ht hne _), ih]
  | group hopener _ hcloser _ ihinner ih =>
    rw [List.cons_append, skipBrackets_of_open (bracketsAfter_opener hopener _), List.append_assoc,
      ihinner, List.cons_append, skipBrackets_of_open (bracketsAfter_closer hcloser _), ih]

/-- The closer behind it is the last token of the group. -/
theorem Inside.skipBrackets_closer (h : Inside b inner) (hcloser : closer.kind = .closer b)
    (c : Cursor) : skipBrackets [b] c (inner ++ closer :: after) = some ⟨some closer.line, after, c.stop⟩ := by
  rw [h.skipBrackets_eq, skipBrackets_of_closed (bracketsAfter_closer hcloser _)]

/-- **Where the brackets are closed before the tokens run out, the closer of the innermost one is
ahead**, behind a row that stands inside of it. -/
theorem exists_closer {S : List Bracket} {c later : Cursor}
    (h : skipBrackets (b :: S) c ts = some later) : ∃ inner closer after,
      ts = inner ++ closer :: after ∧ Inside b inner ∧ closer.kind = .closer b := by
  -- The induction is on the length of the row, because behind a group inside it is the rest of the row
  -- that counts.
  induction hn : ts.length using Nat.strongRecOn generalizing b S ts with
  | ind n ih =>
    cases ts with
    | nil => cases h
    | cons t ts =>
      have hts : ts.length < n := by rw [← hn, List.length_cons]; exact Nat.lt_succ_self _
      -- One more token in front, behind which `b` is the innermost bracket again.
      have hcons : (∀ {inner}, Inside b inner → Inside b (t :: inner)) →
          bracketsAfter (b :: S) t = b :: S → ∃ inner closer after,
            t :: ts = inner ++ closer :: after ∧ Inside b inner ∧ closer.kind = .closer b := by
        intro hinside hsame
        rw [skipBrackets_of_open hsame] at h
        obtain ⟨inner, closer, after, rfl, hinner, hcloser⟩ := ih _ hts h rfl
        exact ⟨t :: inner, closer, after, rfl, hinside hinner, hcloser⟩
      cases hk : t.kind
      case closer b' =>
        by_cases hb : b' = b
        · exact ⟨[], t, ts, rfl, .nil, hk.trans (congrArg _ hb)⟩
        · exact hcons (.stray hk hb) (bracketsAfter_stray hk hb S)
      case opener b' =>
        -- First the group that begins here, then what is behind it.
        rw [skipBrackets_of_open (bracketsAfter_opener hk _)] at h
        obtain ⟨inner, closer, after, rfl, hinner, hcloser⟩ := ih _ hts h rfl
        rw [hinner.skipBrackets_eq, skipBrackets_of_open (bracketsAfter_closer hcloser _)] at h
        have hafter : after.length < n := by
          rw [List.length_append, List.length_cons] at hts
          omega
        obtain ⟨inner', closer', after', rfl, hinner', hcloser'⟩ := ih _ hafter h rfl
        exact ⟨t :: (inner ++ closer :: inner'), closer', after', by simp,
          .group hk hinner hcloser hinner', hcloser'⟩
      all_goals
        have hplain : t.kind.isBracket = false := by rw [hk]; rfl
        exact hcons (.plain hplain) (bracketsAfter_plain hplain _)

end Token

/-! ## What comes of a group -/

namespace Reader

open Token

/-- What comes of the group whose opener, of the bracket `b`, is ahead of `c`. -/
structure MatchesBrackets (b : Bracket) (c : Cursor) : Prop where
  /-- A group with all brackets matched is passed up to its own closer, whatever follows. -/
  balanced : ∀ inner closer after, c.rest = c.current :: (inner ++ closer :: after) → Balanced inner →
    closer.kind = .closer b → skipGroup c = .ok ((), ⟨some closer.line, after, c.stop⟩)
  /-- The reader succeeds behind the closer that answers the opener, and where there is one it does. -/
  closed : ∀ later, skipGroup c = .ok ((), later) ↔ ∃ inner closer after,
    c.rest = c.current :: (inner ++ closer :: after) ∧ Inside b inner ∧ closer.kind = .closer b
      ∧ later = ⟨some closer.line, after, c.stop⟩
  /-- Otherwise the tokens run out, and the fault is reported at the opener. -/
  unclosed : ∀ d, skipGroup c = .error d ↔ d = ⟨c.current.start, .unbalancedBrackets⟩
    ∧ ∀ inner closer after, c.rest = c.current :: (inner ++ closer :: after) → Inside b inner →
      closer.kind ≠ .closer b
  message : ∀ d, skipGroup c = .error d → d.fault.message = "unbalanced brackets"

variable {b : Bracket} {c : Cursor} {inner after : List Token} {closer : Token}

/-- Behind the opener the stack is the opener's bracket. -/
theorem skipGroup?_of_opener {ts : List Token} (h : c.current.kind = .opener b)
    (hrest : c.rest = c.current :: ts) : c.skipGroup? = Cursor.skipBrackets [b] c ts := by
  rw [Cursor.skipGroup?, hrest, Cursor.skipBrackets_of_open (bracketsAfter_opener h [])]

/-- A closer that answers the opener ends the group. -/
theorem skipGroup_of_inside (h : c.current.kind = .opener b)
    (hrest : c.rest = c.current :: (inner ++ closer :: after)) (hinner : Inside b inner)
    (hcloser : closer.kind = .closer b) :
    skipGroup c = .ok ((), ⟨some closer.line, after, c.stop⟩) := by
  rw [skipGroup, skipGroup?_of_opener h hrest, hinner.skipBrackets_closer hcloser]

/-- Where a group is passed there is a closer that answers its opener. -/
theorem exists_closer_of_skipGroup? {later : Cursor} (h : c.current.kind = .opener b)
    (hgroup : c.skipGroup? = some later) : ∃ inner closer after,
      c.rest = c.current :: (inner ++ closer :: after) ∧ Inside b inner ∧ closer.kind = .closer b := by
  cases hrest : c.rest with
  | nil =>
    rw [Cursor.skipGroup?, hrest] at hgroup
    cases hgroup
  | cons t ts =>
    have hrow : c.rest = c.current :: ts := by rw [Cursor.current, hrest, List.headD_cons]
    rw [skipGroup?_of_opener h hrow] at hgroup
    obtain ⟨inner, closer, after, rfl, hinner, hcloser⟩ := exists_closer hgroup
    exact ⟨inner, closer, after, hrest ▸ hrow, hinner, hcloser⟩

/-- There is one fault, and it is reported at the opener. -/
theorem eq_of_skipGroup_error {d : Diagnostic} (h : skipGroup c = .error d) :
    d = ⟨c.current.start, .unbalancedBrackets⟩ := by
  rw [skipGroup] at h
  split at h
  · cases h
  · cases h
    rfl

/-- **A group is passed up to the closer that answers its opener**, and is refused if there is none. -/
theorem matchesBrackets_of_opener (h : c.current.kind = .opener b) : MatchesBrackets b c where
  balanced _ _ _ hrest hinner hcloser := skipGroup_of_inside h hrest (hinner.inside b) hcloser
  closed later := by
    constructor
    · intro hread
      cases hgroup : c.skipGroup? with
      | none => rw [skipGroup, hgroup] at hread; cases hread
      | some later' =>
        obtain ⟨inner, closer, after, hrest, hinner, hcloser⟩ := exists_closer_of_skipGroup? h hgroup
        rw [skipGroup_of_inside h hrest hinner hcloser] at hread
        cases hread
        exact ⟨inner, closer, after, hrest, hinner, hcloser, rfl⟩
    · rintro ⟨inner, closer, after, hrest, hinner, hcloser, rfl⟩
      exact skipGroup_of_inside h hrest hinner hcloser
  unclosed d := by
    constructor
    · intro hread
      refine ⟨eq_of_skipGroup_error hread, fun inner closer after hrest hinner hcloser => ?_⟩
      rw [skipGroup_of_inside h hrest hinner hcloser] at hread
      cases hread
    · rintro ⟨rfl, hnone⟩
      cases hgroup : c.skipGroup? with
      | none => rw [skipGroup, hgroup]
      | some later =>
        obtain ⟨inner, closer, after, hrest, hinner, hcloser⟩ := exists_closer_of_skipGroup? h hgroup
        exact absurd hcloser (hnone inner closer after hrest hinner)
  message d hread := by
    rw [eq_of_skipGroup_error hread]
    rfl

/-- Brackets that cross, a group with all of them matched inside, and a closer behind. -/
def crossedSource : String := "( [ ) < ( a ) ] > ) ] ) , )"

theorem matchesBrackets_of_opener_crossed : ∃ s, scan crossedSource = .ok s
    ∧ s.start.current.kind = .opener .round ∧ MatchesBrackets .round s.start
    ∧ (skipGroup s.start).toOption.map (·.2.rest.map Token.kind) = some [.comma, .closer .round] := by
  have hsome : (scan crossedSource).toOption.map (fun s =>
      (s.start.current.kind, (skipGroup s.start).toOption.map (·.2.rest.map Token.kind)))
        = some (.opener .round, some [.comma, .closer .round]) := by decide +kernel
  obtain ⟨s, hs, houtcome⟩ := exists_ok_of_toOption hsome
  rw [Prod.mk.injEq] at houtcome
  exact ⟨s, hs, houtcome.1, matchesBrackets_of_opener houtcome.1, houtcome.2⟩

end Reader

end IrRecords
