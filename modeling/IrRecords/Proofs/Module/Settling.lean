import IrRecords.Proofs.Function.Settling
import IrRecords.Proofs.Module.Items
import IrRecords.Proofs.Token.Calls

/-!
# How reading a module ends

The two sweeps over a module are loops as well, and every item has a token at least. So reading gets to
its end on every text, and where it fails it tells the position of a token (`diagnostic_position`).
-/

namespace IrRecords

open Reader

variable {S : Scene} {n : Nat} {c : Cursor}

/-! ## Faults of the lexer -/

namespace Token

variable {α β : Type}

/-- Cutting fails for sound faults only. -/
def FailsSoundly (e : Except Fault α) : Prop := ∀ fault, e = .error fault → fault.IsSound

theorem FailsSoundly.ok (a : α) : FailsSoundly (.ok a : Except Fault α) :=
  fun _ h => by cases h

theorem FailsSoundly.bind {e : Except Fault α} {f : α → Except Fault β} (he : FailsSoundly e)
    (hf : ∀ a, FailsSoundly (f a)) : FailsSoundly (e >>= f) := by
  cases e with
  | error fault => exact fun _ h => Except.error.inj h ▸ he fault rfl
  | ok a => exact hf a

theorem failsSoundly_nameOf (bytes : List UInt8) : FailsSoundly (nameOf bytes) := by
  intro fault h
  rw [nameOf] at h
  split at h <;> cases h
  trivial

theorem failsSoundly_quoted (cs : List Char) : FailsSoundly (quoted cs) := by
  intro fault h
  rw [quoted] at h
  split at h <;> cases h
  trivial

theorem FailsSoundly.ite {p : Prop} [Decidable p] {e e' : Except Fault α} (he : FailsSoundly e)
    (he' : FailsSoundly e') : FailsSoundly (if p then e else e') := by
  split
  · exact he
  · exact he'

theorem failsSoundly_reference (sigil : Char) (cs : List Char) :
    FailsSoundly (reference sigil cs) := by
  have hmissing : FailsSoundly (.error (.nameMissing sigil) : Except Fault (Ident × Nat)) :=
    fun _ h => Except.error.inj h ▸ trivial
  rw [reference.eq_def]
  split
  · exact hmissing
  · exact (failsSoundly_quoted _).bind fun _ => (failsSoundly_nameOf _).bind fun _ => .ok _
  · refine .ite ?_ (.ite (.ok _) hmissing)
    dsimp only
    split
    · exact .ok _
    · exact fun _ h => Except.error.inj h ▸ trivial

theorem failsSoundly_lexeme (c : Char) (cs : List Char) : FailsSoundly (lexeme c cs) := by
  rw [lexeme]
  cases punctuation? c with
  | some kind => exact .ok _
  | none =>
    -- The branches follow the tests of `lexeme`; references and quoted texts are those that can fail.
    refine .ite (.ok _) (.ite ?_ (.ite ?_ (.ite (.ite (.ok _) (.ok _)) (.ite (.ok _) (.ite ?_
      (.ite ?_ (.ite (.ok _) (.ite (.ite (.ok _) (.ok _)) (.ite (.ok _) (.ok _))))))))))
    · exact (failsSoundly_reference c cs).bind fun _ => .ok _
    · exact (failsSoundly_reference c cs).bind fun _ => .ok _
    · refine (failsSoundly_quoted cs).bind fun _ => ?_
      exact .ite ((failsSoundly_nameOf _).bind fun _ => .ok _) (.ok _)
    · exact (failsSoundly_quoted _).bind fun _ => .ok _

/-- A call that fails has a fault of the token ahead. -/
theorem isSound_of_next {p : Position} {cs : List Char} {d : Diagnostic}
    (h : next p cs = .error d) : d.fault.IsSound := by
  rw [next] at h
  split at h
  · cases h
  · split at h
    · next fault hlex =>
      cases h
      exact failsSoundly_lexeme _ _ fault hlex
    · cases h

end Token

/-! ## Functions -/

namespace Function

/-- The function and the cursor behind it, where a function was read from `n` tokens ahead. -/
def ReadFrom (S : Scene) (n : Nat) (r : Function × Cursor) : Prop :=
  S.Holds r.2 ∧ r.2.remaining ≤ n

theorem allows_readDeclaration (hc : S.Holds c) :
    S.Allows (ReadFrom S c.remaining) (readDeclaration c).result := by
  rw [readDeclaration, Traced.result_bind]
  refine (goes_readHeader _ c hc rfl).bind fun r hr => ?_
  rw [Traced.result_bind, Traced.result_bind]
  have hfunction : S.Allows (fun _ => True) (Draft.ofHeader r.1 >>= Draft.finish) :=
    (Draft.allows_ofHeader hr.2.2).bind fun d hd => hd.finish
  refine hfunction.bind fun f _ => ?_
  obtain ⟨hlater, hle⟩ := goes_skipRestOfLine _ r.2 hr.1 rfl
  exact ⟨hlater, Nat.le_trans hle.1 hr.2.1⟩

theorem allows_readDefinition (ctx : Draft.Context) (hc : S.Holds c) :
    S.Allows (ReadFrom S c.remaining) (readDefinition ctx c).result := by
  rw [readDefinition, Traced.result_bind]
  refine (goes_readHeader _ c hc rfl).bind fun r hr => ?_
  rw [Traced.result_bind]
  refine (goes_readBody ctx hr.2.2 _ r.2 hr.1 rfl).mono fun r' hr' => ?_
  exact ⟨hr'.1, Nat.le_trans hr'.2.1 hr.2.1⟩

end Function

namespace Module

/-! ## Identified structs -/

theorem goes_readStructBody (name : String) : Goes S (readStructBody name) fun _ => True := by
  rw [readStructBody]
  refine (goes_acceptWord _).skip fun bodiless => ?_
  cases bodiless with
  | true => exact .pure trivial
  | false =>
    refine goes_position.bind fun position hposition => Ty.goes_read.skip fun ty => ?_
    split
    · exact .pure trivial
    · exact .failAt hposition trivial

/-- A struct has a token at least, and any other token is passed alone. -/
theorem settles_atStruct {α : Type} {r r' : Reader α} {Q : α → Nat → Prop} (hr : Settles S n r Q)
    (hr' : Settles S n r' Q) : Settles S n (get >>= fun c => if atStruct c then r else r') Q := by
  intro c hc hn
  change S.Admits _ ((if atStruct c then r else r') c)
  split
  · exact hr c hc hn
  · exact hr' c hc hn

theorem settles_readStruct (types : TypeTable) :
    Settles S n (readStruct types) (RoundWithin n (fun _ => True) fun _ => True) := by
  rw [readStruct]
  refine settles_atStruct (settles_kind.bind fun k m h => ?_)
    (settles_isAt_eof.bind fun ends m h => ?_)
  · obtain ⟨rfl, hpos⟩ := h
    split
    · have := hpos (by simp)
      refine settles_advance.bind fun _ m₁ h₁ => (goes_expect _ _ m₁).bind fun _ m₂ h₂ => ?_
      refine (goes_expectWord _ m₂).bind fun _ m₃ h₃ => ?_
      refine (goes_readStructBody _ m₃).bind fun _ m₄ h₄ => .pure ⟨?_, trivial⟩
      have := h₂.1
      have := h₃.1
      have := h₄.1
      omega
    · exact .unexpected
  · obtain ⟨rfl, hpos⟩ := h
    cases ends with
    | true => exact .pure ⟨Nat.le_refl _, trivial⟩
    | false =>
      have := hpos rfl
      exact settles_advance.bind fun _ m₁ h₁ => .pure ⟨by omega, trivial⟩

theorem goes_readStructs : Goes S readStructs fun _ => True :=
  .iterate (I := fun _ => True) (fun _ types _ => settles_readStruct types) trivial

/-! ## Items -/

/-- Whatever is no function is passed with the token that it starts with. -/
theorem admits_skipItem (hc : S.Holds c) (heof : c.current.kind ≠ .eof) :
    S.Admits (fun _ m => m < c.remaining) (skipItem c) := by
  have hpos := hc.remaining_pos heof
  have hgroup : Goes S (do if ← isAt (.opener .curly) then skipGroup) fun _ => True := by
    refine (goes_isAt _).skip fun group => ?_
    cases group with
    | true => exact goes_skipGroup
    | false => exact .pure trivial
  rw [skipItem]
  change S.Admits _ ((if (c.current.kind == .word "attributes") = true then _ else _ : Reader _) c)
  split
  · next h =>
    -- The word in front of the group opens no body, so it is passed.
    have hopens : (!Function.opensBody c.current) = true := by
      rw [Function.opensBody, beq_iff_eq.mp h]
      rfl
    obtain ⟨hlater, hlt⟩ := holds_advanceWhile (p := (!Function.opensBody ·)) hc hpos hopens
    exact (hgroup _ _ hlater rfl).mono fun r hr => ⟨hr.1, Nat.lt_of_le_of_lt hr.2.1 hlt⟩
  · exact settles_skipLine hpos c hc rfl

/-- The positions at which functions were found are marked, and so is the next. -/
theorem allows_push (p : Progress) (f : Function) {position : Position}
    (h : S.Marked position) : S.Allows (fun _ => True) (p.push f position) := by
  rw [Progress.push]
  split
  · exact trivial
  · split
    · exact ⟨h, trivial⟩
    · exact trivial

/-- **A bound that is longer than the row of tokens ahead is long enough for all items.** -/
theorem allows_readItems (ctx : Draft.Context) {bound : List Token} (p : Progress)
    (hc : S.Holds c) (hbound : c.remaining < bound.length) :
    S.Allows (fun _ => True) (readItems ctx bound p c).result := by
  induction bound generalizing p c with
  | nil => cases hbound
  | cons t bound ih =>
    have hadvance := hc.advance
    -- Behind the word of a function there are fewer tokens, and so there are behind the function.
    have hpushed : ∀ r, c.current.kind ≠ .eof → Function.ReadFrom S c.advance.remaining r →
        S.Allows (fun _ => True)
          (p.push r.1 c.current.start >>= fun p' => (readItems ctx bound p' r.2).result) := by
      intro r hkind hr
      refine (allows_push p r.1 hc.marked).bind fun p' _ => ih p' hr.1 ?_
      have := hr.2
      have := hc.remaining_pos hkind
      have := c.remaining_advance
      rw [List.length_cons] at hbound
      omega
    rw [readItems]
    dsimp only
    split
    · exact trivial
    · next hkind =>
      rw [Traced.result_bind]
      refine (Function.allows_readDefinition ctx hadvance).bind fun r hr => ?_
      rw [Traced.result_bind]
      exact hpushed r (by rw [hkind]; exact TokenKind.noConfusion) hr
    · next hkind =>
      rw [Traced.result_bind]
      refine (Function.allows_readDeclaration hadvance).bind fun r hr => ?_
      rw [Traced.result_bind]
      exact hpushed r (by rw [hkind]; exact TokenKind.noConfusion) hr
    · next heof _ _ =>
      rw [Traced.result_bind]
      refine (admits_skipItem hc heof).bind fun r hr => ih p hr.1 ?_
      have := hr.2
      rw [List.length_cons] at hbound
      omega

/-! ## Modules -/

/-- The tokens of a stream, and the positions that they start at. -/
def sceneOf (s : Token.Stream) (hstop : s.stop.kind = .eof) : Scene where
  stream := s
  Marked p := ∃ t ∈ s.tokens ++ [s.stop], t.start = p
  eof := hstop
  starts t ht := ⟨t, ht, rfl⟩

/-- Reading the tokens of a text gets to its end, and fails at the start of one of them. -/
theorem allows_ofStream (S : Scene) : S.Allows (fun _ => True) (ofStream S.stream).result := by
  rw [ofStream]
  dsimp only
  rw [Traced.result_bind]
  refine (goes_readStructs _ _ S.holds_start rfl).bind fun r _ => ?_
  obtain ⟨types, c⟩ := r
  dsimp only
  rw [Traced.result_bind]
  refine (allows_readItems _ _ S.holds_start (Nat.lt_succ_self _)).bind fun p _ => ?_
  exact trivial

/-- A token starts behind the characters `front` of a source text: one of its tokens, the end of the
text included, or the one at which cutting the text fails with `d`. -/
inductive TokenStarts (source : String) (d : Diagnostic) (front : List Char) : Prop
  | token {pre post : List Token} {t : Token} (h : Token.tokenize source = .ok (pre ++ t :: post))
      (hfront : front = pre.flatMap Token.piece ++ t.gap)
  | failure {ts : List Token} {q : Position} {rest : List Char}
      (h : Token.Calls Position.start source.toList ts q rest) (hfail : Token.next q rest = .error d)
      (hfront : front = ts.flatMap Token.piece ++ rest.take (Token.gapLength rest))

/-- A text that cannot be cut fails where a token starts. -/
theorem starts_of_scan_error {source : String} {d : Diagnostic}
    (h : Token.scan source = .error d) : ∃ front rest, source.toList = front ++ rest
      ∧ d.position = Position.start.after front ∧ TokenStarts source d front := by
  obtain ⟨ts, q, rest, hcalls, hfail⟩ := Token.exists_calls_of_error h
  obtain ⟨htext, hq⟩ := hcalls.text
  refine ⟨_, rest.drop (Token.gapLength rest), ?_, ?_, .failure hcalls hfail rfl⟩
  · rw [List.append_assoc, List.take_append_drop, htext]
  · rw [Token.next_error hfail, hq, Position.after_append]

/-- A token of a text that is cut stands behind the tokens in front of it and its gap. -/
theorem starts_of_mem {source : String} {d : Diagnostic} {s : Token.Stream} {t : Token}
    (hs : Token.scan source = .ok s) (ht : t ∈ s.tokens ++ [s.stop]) (hd : t.start = d.position) :
    ∃ front rest, source.toList = front ++ rest ∧ d.position = Position.start.after front
      ∧ TokenStarts source d front := by
  obtain ⟨pre, post, hsplit⟩ := List.append_of_mem ht
  have htokens : Token.tokenize source = .ok (pre ++ t :: post) := by
    rw [Token.tokenize, hs]
    exact congrArg Except.ok hsplit
  obtain ⟨q, rest, hcalls, hstop⟩ := Token.calls_of_scanFrom hs
  obtain ⟨q₁, cs₁, cs₂, hfront, hnext⟩ := hcalls.split hstop hsplit
  obtain ⟨htext, hq⟩ := hfront.text
  obtain ⟨hcs, _, hstart, _⟩ := Token.next_spec hnext
  refine ⟨_, t.text ++ cs₂, ?_, ?_, .token htokens rfl⟩
  · rw [htext, hcs, Token.piece, List.append_assoc, List.append_assoc]
  · rw [← hd, hstart, hq, Position.after_append]

/-- What is wrong with a source text is wrong where a token starts, and it is a sound fault. -/
theorem starts_of_error {source : String} {d : Diagnostic}
    (h : Token.tokenize source = .error d ∨ (Module.read source).result = .error d) :
    d.fault.IsSound ∧ ∃ front rest, source.toList = front ++ rest
      ∧ d.position = Position.start.after front ∧ TokenStarts source d front := by
  cases hs : Token.scan source with
  | error d' =>
    -- Both functions cut the text first and fail as that does.
    obtain rfl : d' = d := by
      rcases h with h | h
      · rw [Token.tokenize, hs] at h
        exact Except.error.inj h
      · rw [Module.read, Traced.result_bind, Traced.ofExcept, hs] at h
        exact Except.error.inj h
    obtain ⟨_, _, _, _, hfail⟩ := Token.exists_calls_of_error hs
    exact ⟨Token.isSound_of_next hfail, starts_of_scan_error hs⟩
  | ok s =>
    have hresult : (Module.read source).result = (ofStream s).result := by
      rw [Module.read, Traced.result_bind, Traced.ofExcept, hs]
      rfl
    have hd : (ofStream s).result = .error d := by
      rcases h with h | h
      · rw [Token.tokenize, hs] at h
        cases h
      · exact hresult ▸ h
    have hallows := allows_ofStream (sceneOf s (Token.scanFrom_spec hs).stop)
    rw [sceneOf, hd] at hallows
    obtain ⟨t, ht, hstart⟩ := hallows.position
    exact ⟨hallows.fault, starts_of_mem hs ht hstart⟩

/-- **Every failure is positioned.** The message of a diagnostic starts with the line and the column,
counted in bytes, of a place in the source text at which a token starts. -/
theorem diagnostic_position {source : String} {d : Diagnostic}
    (h : Token.tokenize source = .error d ∨ (Module.read source).result = .error d) :
    ∃ line column front rest, d.message = s!"{line}:{column}: {d.fault.message}"
      ∧ source.toList = front ++ rest ∧ d.position.offset = Text.byteLength front
      ∧ line = 1 + front.count '\n' ∧ column = 1 + Text.byteLength (Text.lastLine front)
      ∧ TokenStarts source d front := by
  obtain ⟨-, front, rest, hsource, hposition, hstarts⟩ := starts_of_error h
  have hafter := hposition.trans (Position.start_after front)
  refine ⟨d.position.line, d.position.column, front, rest, rfl, hsource, ?_, ?_, ?_, hstarts⟩
  all_goals rw [hafter]

/-- A use of a value that is not defined, two lines and some bytes into a text. -/
def undefinedSource : String :=
  "; caf\u00e9\ndefine i32 @\"caf\u00e9\"() \x7b ret i32 %x\n\x7d\n"

/-- The message of reading `undefinedSource`. -/
theorem diagnostic_position_undefined : ∃ d, (Module.read undefinedSource).result = .error d
    ∧ d.message = "2:33: use of undefined value '%x'"
    ∧ ∃ line column front rest, d.message = s!"{line}:{column}: {d.fault.message}"
      ∧ undefinedSource.toList = front ++ rest ∧ d.position.offset = Text.byteLength front
      ∧ line = 1 + front.count '\n' ∧ column = 1 + Text.byteLength (Text.lastLine front)
      ∧ TokenStarts undefinedSource d front := by
  have hread : (Module.read undefinedSource).result
      = .error ⟨⟨40, 2, 33⟩, .valueUndefined (.named "x")⟩ := by decide +kernel
  exact ⟨_, hread, by decide, diagnostic_position (.inr hread)⟩

end Module

end IrRecords
