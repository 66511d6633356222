import IrRecords.Module.Reader
import IrRecords.Proofs.Draft.SameLayout
import IrRecords.Proofs.Module.Functions

/-!
# Modules are read alike

From two texts with the same tokens the same module is read, up to the texts of constants
(`Module.SameBut`), or both texts are refused with the same fault at the same place. The one thing
that a reader asks of a position is whether the definition of a struct starts at the first column, so
this has to be the same in both texts (`SameStructs`).
-/

namespace IrRecords

open Reader Twins

/-- The module `m'` is the module `m`, but the texts of constants that satisfy `X` may be others. -/
structure Module.SameBut (X : String → Prop) (m m' : Module) : Prop where
  types : m'.types = m.types
  functions : List.Forall₂ (Function.SameBut X) m.functions m'.functions
  opaquePointers : m'.opaquePointers = m.opaquePointers

variable {T : Twins}

/-! ## Traced computations -/

theorem Twins.SameResult.traced_bind {α α' β β' : Type} {A : α → α' → Prop} {B : β → β' → Prop}
    {t : Traced Diagnostic α} {t' : Traced Diagnostic α'} {f : α → Traced Diagnostic β}
    {f' : α' → Traced Diagnostic β'} (ht : T.SameResult A t.result t'.result)
    (hf : ∀ a a', A a a' → T.SameResult B (f a).result (f' a').result) :
    T.SameResult B (t >>= f).result (t' >>= f').result := by
  obtain ⟨log, result⟩ := t
  obtain ⟨log', result'⟩ := t'
  cases ht with
  | failed position fault => exact .failed position fault
  | ok h => exact hf _ _ h

/-! ## Functions -/

namespace Function

open Draft

theorem steady_skipHeaderAttributes : Steady T skipHeaderAttributes :=
  (steady_skipAttributes _ _).bind fun _ =>
    steady_skipWhile fun t t' h => by rw [isGroupReference, isGroupReference, h.1]

theorem steady_readName : Steady T readName := by
  rw [readName]
  refine steady_kind.bind fun k => ?_
  split
  · exact steady_advance.bind fun _ => .pure rfl
  · exact keeps_unexpected _

theorem keeps_readParam : Keeps T (SameGiven T) readParam := by
  rw [readParam]
  refine Agrees.bind keeps_position fun p p' hp => .after Ty.steady_read fun ty => ?_
  refine .after steady_skipHeaderAttributes fun _ => .after steady_kind fun k => ?_
  split
  · exact .after steady_advance fun _ => .pure ⟨rfl, rfl, hp⟩
  · exact .pure ⟨rfl, rfl, hp⟩

/-- The same parameters, and whether there may be more. -/
structure SameParams (T : Twins) (x x' : List (Ty × Option Ident × Position) × Bool) : Prop where
  params : List.Forall₂ (SameGiven T) x.1 x'.1
  vararg : x'.2 = x.2

/-- The same parameters, as they are collected. -/
structure SameCollected (T : Twins) (x x' : Array (Ty × Option Ident × Position) × Bool) :
    Prop where
  params : SameItems (SameGiven T) x.1 x'.1
  vararg : x'.2 = x.2

theorem keeps_readParams : Keeps T (SameParams T) readParams := by
  rw [readParams]
  refine (steady_expect _ _).bind fun _ => (steady_accept _).bind fun empty => ?_
  split
  · exact .pure ⟨.nil, rfl⟩
  · refine Agrees.bind (A := SameCollected T) (.iterate (I := SameItems (SameGiven T))
      (fun params params' h => .after (steady_accept _) fun ellipsis => ?_) .nil)
      fun x x' hx => .after (steady_expect _ _) fun _ => .pure ⟨hx.params, hx.vararg⟩
    split
    · exact .pure (.done ⟨h, rfl⟩)
    · refine Agrees.bind keeps_readParam fun param param' hparam => ?_
      refine .after (steady_accept _) fun more => ?_
      split
      · exact .pure (.again (h.push hparam))
      · exact .pure (.done ⟨h.push hparam, rfl⟩)

theorem keeps_readHeader : Keeps T (SameHeader T) readHeader := by
  rw [readHeader]
  refine steady_skipHeaderAttributes.bind fun _ => Ty.steady_read.bind fun ret => ?_
  refine steady_readName.bind fun name => Agrees.bind keeps_readParams fun x x' hx => ?_
  exact .pure ⟨rfl, rfl, hx.params, hx.vararg⟩

theorem steady_readResult? : Steady T readResult? := by
  rw [readResult?]
  refine steady_kind.bind fun k => steady_nextKind.bind fun next => ?_
  split
  · exact steady_advance.bind fun _ => steady_advance.bind fun _ => .pure rfl
  · exact .pure rfl

variable {d d' : Draft}

theorem agrees_readStatement (ctx : Draft.Context) (h : SameDraft T d d') :
    Agrees T (SameDraft T) (readStatement ctx d) (readStatement ctx d') := by
  rw [readStatement, readStatement]
  refine Agrees.bind keeps_position fun p p' hp => .after steady_readResult? fun result? => ?_
  refine Agrees.bind (keeps_readInstr ctx) fun i i' hi => .after steady_skipRestOfLine fun _ => ?_
  exact .lift (same_pushInstr h result? hi hp)

theorem agrees_readBodyItem (ctx : Draft.Context) (h : SameDraft T d d') :
    Agrees T (SameRound (SameDraft T) (SameDraft T)) (readBodyItem ctx d) (readBodyItem ctx d') := by
  rw [readBodyItem, readBodyItem]
  refine .after steady_kind fun k => ?_
  split
  · exact .after steady_advance fun _ => .pure (.done h)
  · exact keeps_unexpected _
  · refine Agrees.bind keeps_position fun p p' hp => .after steady_advance fun _ => ?_
    exact Agrees.bind (.lift (same_startBlock h _ hp)) fun d d' h => .pure (.again h)
  · exact .after steady_skipLine fun _ => .pure (.again h)
  · exact Agrees.bind (agrees_readStatement ctx h) fun d d' h => .pure (.again h)

theorem steady_skipToBody : Steady T (skipWhile (!opensBody ·)) :=
  steady_skipWhile fun t t' h => by rw [opensBody, opensBody, h.1]

theorem agrees_readBody (ctx : Draft.Context) {h h' : Header} (hh : SameHeader T h h') :
    Agrees T (Function.SameBut T.Loose) (readBody ctx h) (readBody ctx h') := by
  rw [readBody, readBody]
  refine .after steady_skipToBody fun _ => .after (steady_expect _ _) fun _ => ?_
  refine Agrees.bind (.lift (same_ofHeader hh)) fun d d' hd => ?_
  refine Agrees.bind (.iterate (fun _ _ => agrees_readBodyItem ctx) hd) fun d d' hd => ?_
  exact .lift (same_finish hd)

/-- The same function has been read up to the same place. -/
structure SameRead (T : Twins) (x x' : Function × Cursor) : Prop where
  function : Function.SameBut T.Loose x.1 x'.1
  cursor : T.Facing x.2 x'.2

variable {c c' : Cursor}

theorem same_readDeclaration (hc : T.Facing c c') :
    T.SameResult (SameRead T) (readDeclaration c).result (readDeclaration c').result := by
  refine (keeps_readHeader c c' hc).traced_bind fun x x' ⟨hh, hx⟩ => ?_
  refine SameResult.traced_bind (A := Eq) (.ok rfl) fun _ _ _ => ?_
  refine SameResult.traced_bind (A := Function.SameBut T.Loose)
    ((same_ofHeader hh).bind fun _ _ => same_finish) fun f f' hf => ?_
  exact .ok ⟨hf, hx.skipRestOfLine⟩

theorem same_readDefinition (ctx : Draft.Context) (hc : T.Facing c c') :
    T.SameResult (SameRead T) (readDefinition ctx c).result (readDefinition ctx c').result := by
  refine (keeps_readHeader c c' hc).traced_bind fun x x' ⟨hh, hx⟩ => ?_
  refine SameResult.traced_bind (A := Eq) (.ok rfl) fun _ _ _ => ?_
  exact (agrees_readBody ctx hh _ _ hx).mono fun y y' ⟨hf, hy⟩ => ⟨hf, hy⟩

end Function

/-! ## Modules -/

namespace Module

/-- The same structs are defined in both texts. -/
def SameStructs (T : Twins) : Prop := ∀ c c', T.Facing c c' → atStruct c' = atStruct c

theorem steady_readStructBody (name : String) : Steady T (readStructBody name) := by
  rw [readStructBody]
  refine (steady_acceptWord _).bind fun isOpaque => ?_
  split
  · exact .pure rfl
  · refine Agrees.bind keeps_position fun p p' hp => .after Ty.steady_read fun ty => ?_
    split
    · exact .pure rfl
    · exact agrees_failAt hp _

theorem steady_atStruct {α : Type} {r r' : Reader α} (hstructs : SameStructs T) (hr : Steady T r)
    (hr' : Steady T r') : Steady T (get >>= fun c => if atStruct c then r else r') := by
  intro c c' hc
  change T.SameResult _ ((if atStruct c then r else r') c) ((if atStruct c' then r else r') c')
  rw [hstructs c c' hc]
  split
  · exact hr c c' hc
  · exact hr' c c' hc

theorem steady_readStruct (hstructs : SameStructs T) (types : TypeTable) :
    Steady T (readStruct types) := by
  rw [readStruct]
  refine steady_atStruct hstructs (steady_kind.bind fun k => ?_)
    ((steady_isAt _).bind fun ends => ?_)
  · split
    · refine steady_advance.bind fun _ => (steady_expect _ _).bind fun _ => ?_
      refine (steady_expectWord _).bind fun _ => (steady_readStructBody _).bind fun _ => ?_
      exact .pure rfl
    · exact keeps_unexpected _
  · split
    · exact .pure rfl
    · exact steady_advance.bind fun _ => .pure rfl

theorem steady_readStructs (hstructs : SameStructs T) : Steady T readStructs :=
  Steady.iterate (steady_readStruct hstructs) _

/-! ### Items -/

structure SameProgress (T : Twins) (x x' : Progress) : Prop where
  functions : SameItems (Function.SameBut T.Loose) x.functions x'.functions
  starts : List.Forall₂ (fun y y' => y'.1 = y.1 ∧ T.Moves y.2 y'.2) x.starts x'.starts

theorem same_lookup {starts starts' : List (String × Position)}
    (h : List.Forall₂ (fun y y' => y'.1 = y.1 ∧ T.Moves y.2 y'.2) starts starts') (name : String) :
    Option.Rel T.Moves (starts.lookup name) (starts'.lookup name) := by
  induction h with
  | nil => exact .none
  | @cons y y' _ _ hy _ ih =>
    obtain ⟨first, p⟩ := y
    obtain ⟨first', p'⟩ := y'
    obtain ⟨rfl, hp⟩ := hy
    rw [List.lookup_cons, List.lookup_cons]
    dsimp only
    cases name == first' with
    | true => exact .some hp
    | false => exact ih

theorem same_push {x x' : Progress} {f f' : Function} {p p' : Position} (hx : SameProgress T x x')
    (hf : Function.SameBut T.Loose f f') (hp : T.Moves p p') :
    T.SameResult (SameProgress T) (x.push f p) (x'.push f' p') := by
  rw [Progress.push, Progress.push, hf.name]
  split
  · exact .ok ⟨hx.functions.push hf, hx.starts⟩
  · have hlookup := same_lookup hx.starts f.name
    generalize x.starts.lookup f.name = first? at hlookup ⊢
    generalize x'.starts.lookup f.name = first?' at hlookup ⊢
    cases hlookup with
    | none => exact .ok ⟨hx.functions.push hf, .cons ⟨rfl, hp⟩ hx.starts⟩
    | some hfirst => exact .failed (.inl hp) (.redefined _ hfirst)

theorem steady_skipItem : Steady T skipItem := by
  rw [skipItem]
  refine (steady_isAt _).bind fun group => ?_
  split
  · refine Function.steady_skipToBody.bind fun _ => (steady_isAt _).bind fun opens => ?_
    split
    · exact steady_skipGroup
    · exact .pure rfl
  · exact steady_skipLine

/-- In front of the end of the text both cursors are in front of the same token. -/
theorem moves_current {c c' : Cursor} (hc : T.Facing c c') (heof : c.current.kind ≠ .eof) :
    T.Moves c.current.start c'.current.start := by
  have hrest := hc.rest
  rw [Cursor.current, hc.stop] at heof
  rw [Cursor.current, Cursor.current]
  generalize c.rest = ts at hrest heof ⊢
  generalize c'.rest = ts' at hrest ⊢
  cases hrest with
  | nil => exact absurd T.stop heof
  | cons ht _ => exact ht.2.2.2

theorem same_readItems (ctx : Draft.Context) {bound bound' : List Token}
    (hbound : bound.length = bound'.length) {x x' : Progress} (hx : SameProgress T x x')
    {c c' : Cursor} (hc : T.Facing c c') : T.SameResult (SameProgress T)
      (readItems ctx bound x c).result (readItems ctx bound' x' c').result := by
  induction bound generalizing bound' x x' c c' with
  | nil =>
    obtain rfl := List.eq_nil_of_length_eq_zero hbound.symm
    exact .failed hc.current.start (.refl _)
  | cons t bound ih =>
    obtain ⟨t', bound', rfl⟩ := List.exists_cons_of_length_eq_add_one hbound.symm
    have ih := @ih bound' (Nat.succ.inj hbound)
    rw [readItems, readItems, hc.current.kind]
    dsimp only
    split
    · exact .ok hx
    · next hk =>
      have hmoves := moves_current hc (by rw [hk]; exact TokenKind.noConfusion)
      refine (Function.same_readDefinition ctx hc.advance).traced_bind fun y y' hy => ?_
      refine SameResult.traced_bind (same_push hx hy.function hmoves) fun z z' hz => ?_
      exact ih hz hy.cursor
    · next hk =>
      have hmoves := moves_current hc (by rw [hk]; exact TokenKind.noConfusion)
      refine (Function.same_readDeclaration hc.advance).traced_bind fun y y' hy => ?_
      refine SameResult.traced_bind (same_push hx hy.function hmoves) fun z z' hz => ?_
      exact ih hz hy.cursor
    · exact (steady_skipItem c c' hc).traced_bind fun y y' hy => ih hx hy.2

/-! ### Whole texts -/

theorem usesOpaquePointers_eq {ts ts' : List Token} (h : List.Forall₂ T.SameToken ts ts') :
    usesOpaquePointers ts' = usesOpaquePointers ts := by
  induction h with
  | nil => rfl
  | cons ht _ ih =>
    rw [usesOpaquePointers, usesOpaquePointers] at ih ⊢
    rw [List.any_cons, List.any_cons, ht.1, ih]

/-- **The same module is read from both texts.** -/
theorem same_ofStream (hstructs : SameStructs T) : T.SameResult (Module.SameBut T.Loose)
    (ofStream T.first).result (ofStream T.second).result := by
  have hstart : T.Facing ⟨none, T.first.tokens, T.first.stop⟩ ⟨none, T.second.tokens, T.second.stop⟩ :=
    ⟨T.tokens, List.suffix_rfl, List.suffix_rfl, rfl, rfl, rfl⟩
  have hbound : (Cursor.bound ⟨none, T.first.tokens, T.first.stop⟩).length
      = (Cursor.bound ⟨none, T.second.tokens, T.second.stop⟩).length :=
    congrArg (· + 1) T.tokens.length_eq
  have hopaque := usesOpaquePointers_eq (T := T) T.tokens
  rw [ofStream, ofStream, hopaque]
  refine (steady_readStructs hstructs _ _ hstart).traced_bind fun y y' hy => ?_
  obtain ⟨types, c⟩ := y
  obtain ⟨types', c'⟩ := y'
  obtain rfl : types = types' := hy.1
  have hempty : SameProgress T ⟨#[], []⟩ ⟨#[], []⟩ := ⟨.nil, .nil⟩
  refine (same_readItems _ hbound hempty hstart).traced_bind fun p p' hp => ?_
  refine SameResult.traced_bind (A := Eq) (.ok rfl) fun _ _ _ => ?_
  exact .ok ⟨rfl, hp.functions, rfl⟩

end Module

end IrRecords
