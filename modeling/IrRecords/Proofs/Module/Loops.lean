import IrRecords.Proofs.Module.Settling

/-!
# Loops that get to their ends

The readers are made of loops, and `IsLoop` lists them by their rounds: those of types, of instructions,
of headers and bodies, and the first sweep over a module. The second sweep is a loop over items. In
each of them a round passes a token, fails, or is the last one, at the end of the text as everywhere,
where moving on would pass nothing. Beside the loops there is the recursion of types, which goes into
itself behind a token. So the bounds in the definitions of loops, of types and of items never matter,
and no text leads to `Fault.stalled` (`terminates`).
-/

namespace IrRecords

open Reader Draft

/-- One round of a loop of the readers. -/
inductive IsLoop : {σ α : Type} → (σ → Reader (Round σ α)) → Prop
  /-- The fields of a struct. -/
  | fields : IsLoop (itemStep Ty.read)
  /-- The parameters of the type of a function. -/
  | typeParams : IsLoop (paramStep Ty.read)
  /-- What follows the base of a type. -/
  | suffixes : IsLoop (Ty.readSuffix Ty.read)
  /-- Attributes of functions, parameters, calls and arguments. -/
  | attributes (isAttribute takesNumber : String → Bool) :
      IsLoop fun () => skipAttribute isAttribute takesNumber
  /-- The cases of a switch. -/
  | cases : IsLoop Listing.caseStep
  /-- The targets of a branch to a computed address. -/
  | targets : IsLoop (itemStep readTypedOperand)
  /-- The edges of a phi. -/
  | edges (ty : Ty) : IsLoop (Listing.edgeStep ty)
  /-- The arguments of a call. -/
  | arguments : IsLoop (itemStep readArgument)
  /-- What follows an allocated type and the count. -/
  | allocaTrailers : IsLoop readAllocaTrailer
  /-- The indices of an address computation. -/
  | indices : IsLoop indexStep
  /-- The indices of an aggregate. -/
  | aggregateIndices : IsLoop aggregateIndexStep
  /-- The parameters in a header. -/
  | params : IsLoop (paramStep Function.readParam)
  /-- A body. -/
  | body (ctx : Context) : IsLoop (Function.readBodyItem ctx)
  /-- The sweep for identified structs. -/
  | structs : IsLoop Module.readStruct

/-- What reading from `c` on comes to: a failure for another reason than that a loop has no end, or a
cursor between the tokens ahead of `c`, behind at least one of them if `passes` is true of the
answer. -/
def EndsAhead {α : Type} (c : Cursor) (passes : α → Prop) : Except Diagnostic (α × Cursor) → Prop
  | .error d => d.fault ≠ .stalled
  | .ok (a, later) => later.rest <:+ c.rest ∧ later.stop = c.stop
      ∧ (passes a → later.remaining < c.remaining)

variable {σ α : Type} {step : σ → Reader (Round σ α)} {c : Cursor} {M : Position → Prop}

/-! ## Rounds -/

theorem Fault.IsSound.ne_stalled {fault : Fault} (h : fault.IsSound) : fault ≠ .stalled := by
  rintro rfl
  exact h

/-- What the scene around a cursor admits ends ahead of the cursor. -/
theorem endsAhead_of_admits {hstop : c.stop.kind = .eof} {Q : α → Nat → Prop} {passes : α → Prop}
    {result : Except Diagnostic (α × Cursor)} (h : (Scene.around c hstop).Admits Q result)
    (hQ : ∀ a m, Q a m → passes a → m < c.remaining) : EndsAhead c passes result := by
  cases result with
  | error d => exact h.fault.ne_stalled
  | ok r => exact ⟨h.1.rest, h.1.stop, hQ _ _ h.2⟩

theorem Operand.marked_of_forall (hM : ∀ p, M p) (o : Operand) : o.Marked M := by
  cases o with
  | reference id ty position => exact hM position
  | known value => trivial

theorem Draft.Instr.marked_of_forall (hM : ∀ p, M p) (i : Draft.Instr) : i.Marked M := by
  refine ⟨fun o _ => Operand.marked_of_forall hM o, ?_⟩
  cases hdetail : i.detail with
  | phi incoming => exact fun label _ => hM label.2
  | _ => trivial

theorem Draft.marked_of_forall (hM : ∀ p, M p) (d : Draft) : d.Marked M :=
  ⟨fun p _ => hM p.position, fun b _ => ⟨hM b.position, fun s _ =>
    ⟨hM s.position, Draft.Instr.marked_of_forall hM s.instr⟩⟩⟩

/-- A round of a loop leaves fewer tokens ahead, unless it is the last one. -/
theorem IsLoop.settles (h : IsLoop step) {S : Scene} (hS : ∀ p, S.Marked p) (n : Nat) (s : σ) :
    Settles S n (step s) (RoundWithin n (fun _ => True) fun _ => True) := by
  -- Most rounds are known to keep more of the state than is asked for here.
  have hround : ∀ {I : σ → Prop} {P : α → Prop}, Settles S n (step s) (RoundWithin n I P) →
      Settles S n (step s) (RoundWithin n (fun _ => True) fun _ => True) := by
    intro I P hstep
    refine hstep.mono fun round m h => ?_
    cases round with
    | again s' => exact ⟨h.1, trivial⟩
    | done a => exact ⟨h.1, trivial⟩
  cases h with
  | fields => exact hround (settles_itemStep (Ty.goes_read n) (by simp))
  | typeParams => exact hround (settles_paramStep Ty.goes_read.below (by simp))
  | suffixes => exact Ty.settles_readSuffix Ty.goes_read.below s
  | attributes isAttribute takesNumber => exact settles_skipAttribute isAttribute takesNumber
  | cases => exact hround (settles_caseStep fun o _ => Operand.marked_of_forall hS o)
  | targets =>
    have hitem : Goes S readTypedOperand fun _ => True := goes_readTypedOperand.mono fun _ _ => trivial
    exact hround (settles_itemStep (hitem n) (by simp))
  | edges ty =>
    exact hround (settles_edgeStep ty fun e _ => ⟨Operand.marked_of_forall hS e.1, hS e.2.2⟩)
  | arguments =>
    have hitem : Goes S readArgument fun _ => True := goes_readArgument.mono fun _ _ => trivial
    exact hround (settles_itemStep (hitem n) (by simp))
  | allocaTrailers => exact settles_readAllocaTrailer s
  | indices => exact hround (settles_indexStep fun p _ => Operand.marked_of_forall hS p.2)
  | aggregateIndices => exact settles_aggregateIndexStep s
  | params =>
    have hitem : Goes S Function.readParam fun _ => True :=
      Function.goes_readParam.mono fun _ _ => trivial
    exact hround (settles_paramStep hitem.below (by simp))
  | body ctx => exact hround (Function.settles_readBodyItem ctx (Draft.marked_of_forall hS s))
  | structs => exact Module.settles_readStruct s

/-- **A round passes a token, fails, or is the last one.** -/
theorem IsLoop.endsAhead (h : IsLoop step) (hstop : c.stop.kind = .eof) (s : σ) :
    EndsAhead c (fun round => ∃ s', round = .again s') (step s c) := by
  have hsettles := h.settles (S := .around c hstop) (fun _ => trivial) c.remaining s
  refine endsAhead_of_admits (hsettles c (Scene.holds_around c hstop) rfl) fun round m hm => ?_
  rintro ⟨s', rfl⟩
  exact hm.1

/-- **A loop gets to its end** under every bound that is longer than the row of tokens ahead, and all
these bounds are as good as any other. -/
theorem IsLoop.iterateFor_eq (h : IsLoop step) (hstop : c.stop.kind = .eof) {bound : List Token}
    (hbound : c.remaining < bound.length) (s : σ) :
    EndsAhead c (fun _ => False) (iterateFor step bound s c)
      ∧ iterateFor step bound s c = iterate step s c := by
  have hstep : ∀ m, m ≤ c.remaining → ∀ s, True → Settles (.around c hstop) m (step s)
      (RoundWithin m (fun _ => True) fun _ => True) :=
    fun m _ s _ => h.settles (fun _ => trivial) m s
  have hc := Scene.holds_around c hstop
  have hloop : Settles (.around c hstop) c.remaining (iterateFor step bound s)
      (Within c.remaining fun _ => True) := .iterateFor hstep trivial hbound
  have hiterate : Settles (.around c hstop) c.remaining (iterateFor step c.bound s)
      (Within c.remaining fun _ => True) := .iterateFor hstep trivial (Nat.lt_succ_self _)
  have hlength : c.bound.length ≤ bound.length := hbound
  have hfollows : Reader.Follows (iterateFor step c.bound s) (iterateFor step bound s) :=
    .iterateFor (fun _ => .refl _) hlength s
  refine ⟨endsAhead_of_admits (hloop c hc rfl) fun _ _ _ h => h.elim, ?_⟩
  exact (hiterate.eq_of_follows hfollows hc rfl).symm

/-! ## Items -/

namespace Module

variable {ctx : Context}

/-- What is read from behind the first word of an item ends ahead of this word. -/
theorem endsAhead_of_advance {result : Except Diagnostic (Function × Cursor)}
    (hstop : c.stop.kind = .eof) (hc : c.current.kind ≠ .eof)
    (h : (Scene.around c hstop).Allows
      (Function.ReadFrom (.around c hstop) c.advance.remaining) result) :
    EndsAhead c (fun _ => True) result := by
  have hpos := (Scene.holds_around c hstop).remaining_pos hc
  have hlt : c.advance.remaining < c.remaining := by
    rw [c.remaining_advance]
    omega
  have hadmits : (Scene.around c hstop).Admits (fun _ m => m < c.remaining) result :=
    h.mono fun r hr => ⟨hr.1, Nat.lt_of_le_of_lt hr.2 hlt⟩
  exact endsAhead_of_admits hadmits fun _ _ h _ => h

theorem endsAhead_readDefinition (ctx : Context) (hstop : c.stop.kind = .eof)
    (hc : c.current.kind ≠ .eof) :
    EndsAhead c (fun _ => True) (Function.readDefinition ctx c.advance).result :=
  endsAhead_of_advance hstop hc
    (Function.allows_readDefinition ctx (Scene.holds_around c hstop).advance)

theorem endsAhead_readDeclaration (hstop : c.stop.kind = .eof) (hc : c.current.kind ≠ .eof) :
    EndsAhead c (fun _ => True) (Function.readDeclaration c.advance).result :=
  endsAhead_of_advance hstop hc
    (Function.allows_readDeclaration (Scene.holds_around c hstop).advance)

theorem endsAhead_skipItem (hstop : c.stop.kind = .eof) (hc : c.current.kind ≠ .eof) :
    EndsAhead c (fun _ => True) (skipItem c) :=
  endsAhead_of_admits (admits_skipItem (Scene.holds_around c hstop) hc) fun _ _ h _ => h

/-- Computations that go on alike after every answer are the same. -/
theorem bind_congr_of_result {ε β : Type} {t : Traced ε α} {f g : α → Traced ε β}
    (h : ∀ a, t.result = .ok a → f a = g a) : (t >>= f) = (t >>= g) := by
  obtain ⟨log, result⟩ := t
  cases result with
  | error e => rfl
  | ok a =>
    change Traced.bind _ f = Traced.bind _ g
    rw [Traced.bind, Traced.bind]
    dsimp only
    rw [h a rfl]

/-- All bounds that are longer than the row of tokens ahead are as good as any other. -/
theorem readItems_eq {bound bound' : List Token} (p : Progress) (hstop : c.stop.kind = .eof)
    (hbound : c.remaining < bound.length) (hbound' : c.remaining < bound'.length) :
    readItems ctx bound p c = readItems ctx bound' p c := by
  induction bound generalizing bound' p c with
  | nil => cases hbound
  | cons t bound ih =>
    cases bound' with
    | nil => cases hbound'
    | cons t' bound' =>
      rw [List.length_cons] at hbound hbound'
      -- Behind an item fewer tokens are ahead, and the text still has an end.
      have hrest : ∀ {β : Type} {r : β × Cursor} (p : Progress),
          EndsAhead c (fun _ => True) (.ok r) →
          readItems ctx bound p r.2 = readItems ctx bound' p r.2 := by
        intro β r p hr
        have hlt := hr.2.2 trivial
        exact ih p (by rw [hr.2.1, hstop]) (by omega) (by omega)
      rw [readItems, readItems]
      dsimp only
      split
      · rfl
      · next hkind =>
        have hends := endsAhead_readDefinition ctx hstop (by rw [hkind]; exact TokenKind.noConfusion)
        refine bind_congr_of_result fun r hr => bind_congr_of_result fun p' _ => ?_
        exact hrest p' (hr ▸ hends)
      · next hkind =>
        have hends := endsAhead_readDeclaration hstop (by rw [hkind]; exact TokenKind.noConfusion)
        refine bind_congr_of_result fun r hr => bind_congr_of_result fun p' _ => ?_
        exact hrest p' (hr ▸ hends)
      · next heof _ _ =>
        have hends := endsAhead_skipItem hstop heof
        refine bind_congr_of_result fun r hr => ?_
        exact hrest p ((show skipItem c = .ok r from hr) ▸ hends)

end Module

/-! ## Whole texts -/

/-- Reading gets to its end, from the single token up to the whole text. -/
structure Terminates (source : String) : Prop where
  /-- A call of the lexer takes a byte off the text, or answers its end. -/
  call : ∀ p cs t rest, Token.next p cs = .ok (t, rest) →
    t.kind = .eof ∨ Text.byteLength rest < Text.byteLength cs
  /-- There are no more tokens than bytes, and the end of the text. -/
  tokens : ∀ ts, Token.tokenize source = .ok ts → ts.length ≤ source.utf8ByteSize + 1
  /-- A loop over the tokens stops at a token that does not satisfy the test. -/
  skip : ∀ (p : Token → Bool) (c : Cursor), ∃ ts, c.rest = ts ++ (c.advanceWhile p).rest
    ∧ ∀ t ∈ ts, p t = true
  /-- A bracketed group is at least one token. -/
  group : ∀ c : Cursor, c.stop.kind = .eof → EndsAhead c (fun _ => True) (skipGroup c)
  /-- A round of any other loop passes a token, fails, or is the last one. -/
  round : ∀ {σ α : Type} (step : σ → Reader (Round σ α)), IsLoop step → ∀ s (c : Cursor),
    c.stop.kind = .eof → EndsAhead c (fun round => ∃ s', round = .again s') (step s c)
  /-- No bound that is longer than the row of tokens ahead ends a loop, so none of them matters. -/
  loop : ∀ {σ α : Type} (step : σ → Reader (Round σ α)), IsLoop step → ∀ bound s (c : Cursor),
    c.stop.kind = .eof → c.remaining < bound.length →
      EndsAhead c (fun _ => False) (iterateFor step bound s c)
        ∧ iterateFor step bound s c = iterate step s c
  /-- The reader of types goes into itself only further on in the text, whatever the bound. -/
  types : ∀ c : Cursor, c.stop.kind = .eof → Ty.read c = Ty.readWith (beyond c Ty.read) c
    ∧ ∀ bound : List Token, c.remaining < bound.length → Ty.readWithin bound c = Ty.read c
  /-- An item of a module passes a token or fails. -/
  item : ∀ ctx (c : Cursor), c.stop.kind = .eof → c.current.kind ≠ .eof →
    EndsAhead c (fun _ => True) (Function.readDefinition ctx c.advance).result
      ∧ EndsAhead c (fun _ => True) (Function.readDeclaration c.advance).result
      ∧ EndsAhead c (fun _ => True) (Module.skipItem c)
  /-- The bound of the loop over the items does not matter either. -/
  items : ∀ ctx p (c : Cursor) (bound : List Token), c.stop.kind = .eof →
    c.remaining < bound.length → Module.readItems ctx bound p c = Module.readItems ctx c.bound p c
  /-- No text leads to a loop that does not get to its end. -/
  result : ∀ d, (Module.read source).result = .error d → d.fault ≠ .stalled

/-- A call takes a byte off the text unless the text has ended. -/
theorem Token.byteLength_lt_of_next {p : Position} {cs rest : List Char} {t : Token}
    (h : Token.next p cs = .ok (t, rest)) (ht : t.kind ≠ .eof) :
    Text.byteLength rest < Text.byteLength cs := by
  have hone := (Token.Calls.cons h ht (.nil _ _)).length_le
  rw [List.length_singleton] at hone
  omega

/-- There are no more tokens than bytes, and the end of the text. -/
theorem Token.length_le_of_tokenize {source : String} {ts : List Token}
    (h : Token.tokenize source = .ok ts) : ts.length ≤ source.utf8ByteSize + 1 := by
  obtain ⟨s, hs, rfl⟩ := Token.exists_scan_of_tokenize h
  obtain ⟨q, rest, hcalls, _⟩ := Token.calls_of_scanFrom hs
  have hle := hcalls.length_le
  rw [Text.byteLength, Text.byteLength, String.ofList_toList] at hle
  rw [List.length_append, List.length_singleton]
  omega

/-- **Reading terminates on every text.** -/
theorem terminates (source : String) : Terminates source where
  call p cs t rest h := by
    by_cases ht : t.kind = .eof
    · exact .inl ht
    · exact .inr (Token.byteLength_lt_of_next h ht)
  tokens _ h := Token.length_le_of_tokenize h
  skip p c := ⟨_, (c.reaches_advanceWhile p).rest, fun _ ht => List.mem_takeWhile_imp ht⟩
  group c hstop :=
    endsAhead_of_admits (settles_skipGroup c (Scene.holds_around c hstop) rfl) fun _ _ h _ => h
  round _ h s _ hstop := h.endsAhead hstop s
  loop _ h _ s _ hstop hbound := h.iterateFor_eq hstop hbound s
  types _ hstop := ⟨Ty.read_eq hstop, fun _ hbound => Ty.readWithin_eq_read hstop hbound⟩
  item ctx _ hstop hc := ⟨Module.endsAhead_readDefinition ctx hstop hc,
    Module.endsAhead_readDeclaration hstop hc, Module.endsAhead_skipItem hstop hc⟩
  items _ p _ _ hstop hbound := Module.readItems_eq p hstop hbound (Nat.lt_succ_self _)
  result _ h := (Module.starts_of_error (.inr h)).1.ne_stalled

end IrRecords
