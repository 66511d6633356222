import IrRecords.Proofs.Module.SameReading
import IrRecords.Proofs.Token.Spacing
import Mathlib

/-!
# Comments and indentation

What is read from a source text does not depend on its comments (`read_withoutComments`), and neither
on its indentation (`read_indented`), with few exceptions. The two have one proof (`same_read`): a text
with other spacing has the same tokens (`Token.scan_apply`), and reading two texts with the same tokens
differs in positions and in the texts of constants only (`same_ofStream`). The exceptions are these.

* A constant is shown as it is written, in one line. If it extends over several lines and a comment
  stands in it, the comment is shown, too (`Token.WrittenAround`).
* Where a text is refused because it ends, the end is the place that is told, and a comment in front of
  it counts (`comments_tell`).
* The definition of an identified struct has to start at the first column of its line
  (`structLines`). A definition that is indented is passed over (`indentation_tells`).
-/

namespace IrRecords

open Text

/-! ## Ends of texts -/

/-- The end of a source text. -/
def endOf (source : String) : Position := Position.start.after source.toList

/-- Whether a source text ends inside of a comment. -/
def EndsInComment (source : String) : Prop :=
  source.toList.foldl Place.after .plain = .comment

namespace Token

/-- The end of a text that is cut is known. -/
theorem stop_start_of_scanFrom {p : Position} {cs : List Char} {x : Stream}
    (h : scanFrom p cs = .ok x) : x.stop.start = p.after cs := by
  refine scanFrom_induction (P := fun p cs x => x.stop.start = p.after cs) (fun p gap _ => rfl)
    (fun p gap c rest kind used x _ hlex hx => ?_) h
  have hrow : gap ++ c :: rest = gap ++ ((c :: rest.take used) ++ rest.drop used) := by
    rw [List.cons_append, List.take_append_drop]
  rw [hrow, Position.after_append, Position.after_append]
  exact hx

/-- The text of a row of tokens of `source` with the character `ch` in one of the gaps between
them. -/
def WrittenAround (source : String) (ch : Char) (text : String) : Prop :=
  ∃ x ts, scan source = .ok x ∧ ts <:+: x.tokens ∧ rowText ts = text ∧ ∃ t ∈ ts.tail, ch ∈ t.gap

/-- A row of tokens has the same text under the spacing, unless it is written around the mark. -/
theorem rowText_slice {s : Spacing} {source : String} {x x' : Stream} (hx : scan source = .ok x)
    (h : x.Moved s x') (k n : Nat) :
    rowText ((x'.tokens.drop k).take n) = rowText ((x.tokens.drop k).take n)
      ∨ WrittenAround source s.mark (rowText ((x.tokens.drop k).take n)) := by
  have hrows := List.forall₂_take n (List.forall₂_drop k h.tokens)
  have hbetween : List.Forall₂ (Twin s) ((x.tokens.drop k).take n).tail
      ((x'.tokens.drop k).take n).tail := by
    have htail : ∀ ts : List Token,
        ((ts.drop k).take n).tail = (ts.tail.drop k).take (n - 1) := fun ts => by
      rw [← List.drop_one, ← List.drop_one, List.drop_take, List.drop_drop, List.drop_drop,
        Nat.add_comm]
    rw [htail, htail]
    exact List.forall₂_take _ (List.forall₂_drop k h.between)
  have hslice : (x.tokens.drop k).take n <:+: x.tokens :=
    (List.take_prefix _ _).isInfix.trans (List.drop_suffix _ _).isInfix
  -- From here on it does not matter where the row stands.
  generalize (x.tokens.drop k).take n = ts at *
  generalize (x'.tokens.drop k).take n = ts' at *
  by_cases hmark : ∀ t ∈ ts.tail, s.mark ∉ t.gap
  · refine .inl ?_
    cases hrows with
    | nil => rfl
    | cons ht hts =>
      exact rowText_eq ht hbetween (fun u hu => (scanFrom_spec hx).lexed u (hslice.subset hu)) hmark
  · simp only [not_forall, not_not] at hmark
    obtain ⟨t, ht, hmark⟩ := hmark
    exact .inr ⟨x, ts, hx, hslice, rfl, t, ht, hmark⟩

end Token

/-- A source text and the text with other spacing, cut into tokens. -/
def Text.Spacing.twins (s : Spacing) (source : String) {x x' : Token.Stream}
    (hx : Token.scan source = .ok x) (hx' : Token.scan (s.apply source) = .ok x')
    (h : x.Moved s x') : Twins where
  first := x
  second := x'
  Moves := s.Moves
  Loose := Token.WrittenAround source s.mark
  lines := 0
  tokens := h.tokens.imp fun _ _ ht => ⟨ht.kind, ht.text, ht.start.line, ht.start⟩
  lexed := (Token.scanFrom_spec hx).lexed
  lexed' := (Token.scanFrom_spec hx').lexed
  stop := (Token.scanFrom_spec hx).stop
  stop' := (Token.scanFrom_spec hx').stop
  line := h.stop
  texts := Token.rowText_slice hx h

namespace Module

open Token (scan)

/-! ## Structs -/

/-- The lines on which definitions of identified structs start. -/
def structLines (source : String) : List Nat :=
  match scan source with
  | .error _ => []
  | .ok x => (x.tokens.tails.filter fun ts => atStruct ⟨none, ts, x.stop⟩).map
      fun ts => (ts.headD x.stop).line

theorem mem_structLines {source : String} {x : Token.Stream} {ts : List Token}
    (hx : scan source = .ok x) (hts : ts <:+ x.tokens) (hat : atStruct ⟨none, ts, x.stop⟩ = true) :
    (ts.headD x.stop).line ∈ structLines source := by
  rw [structLines, hx]
  exact List.mem_map_of_mem (List.mem_filter.mpr ⟨(List.mem_tails _ _).mpr hts, hat⟩)

/-- Where only lines without definitions of structs are indented, the same structs are defined. -/
theorem sameStructs_twins {s : Spacing} {source : String} {x x' : Token.Stream}
    (hx : scan source = .ok x) (hx' : scan (s.apply source) = .ok x') (h : x.Moved s x')
    (hmargin : ∀ line ∈ structLines source, s.margin line = []) :
    SameStructs (s.twins source hx hx' h) := by
  intro c c' hc
  have hat : atStruct ⟨none, c.rest, x.stop⟩ = atStruct c := by
    obtain ⟨last?, ts, stop⟩ := c
    obtain rfl : stop = x.stop := hc.stop
    rfl
  have hdefines : atStruct c = true → s.margin c.current.line = [] := fun hstruct => by
    have hmem := mem_structLines hx hc.suffix (hat.trans hstruct)
    rw [Cursor.current, hc.stop]
    exact hmargin _ hmem
  have hkind := hc.current.kind
  have hkind₁ := (hc.lookahead 1).kind
  have hkind₂ := (hc.lookahead 2).kind
  -- Kinds are the same in both rows, and so all that can differ is whether the name is in the first
  -- column. Margins could make it differ, but the lines of definitions have none.
  have hcolumns : ∀ id, c.current.kind = .localRef id →
      (c.current.start.column = 1 → atStruct c = true) →
      (c'.current.start.column == 1) = (c.current.start.column == 1) := by
    intro id hid hstruct
    have hmoves : s.Moves c.current.start c'.current.start :=
      moves_current hc (by rw [hid]; exact TokenKind.noConfusion)
    have hone := hmoves.column_one fun hone => hdefines (hstruct hone)
    rw [Bool.eq_iff_iff, beq_iff_eq, beq_iff_eq]
    exact hone
  unfold atStruct at *
  rw [hkind, hkind₁, hkind₂]
  split
  · next hid h₁ h₂ =>
    refine hcolumns _ hid fun hone => ?_
    rw [hid, h₁, h₂, hone]
    rfl
  · rfl

/-! ## Whole texts -/

/-- What is told of a source text that is refused, and of the text with other spacing. -/
structure SameFailure (s : Spacing) (source : String) (d d' : Diagnostic) : Prop where
  position : s.Moves d.position d'.position
    ∨ EndsInComment source ∧ s.comments = false
      ∧ d.position = endOf source ∧ d'.position = endOf (s.apply source)
  fault : d'.fault = d.fault ∨ ∃ name p p', s.Moves p p'
    ∧ d.fault = .functionRedefined name p ∧ d'.fault = .functionRedefined name p'

/-- What is read from a source text and from the text with other spacing. -/
inductive SameReading (s : Spacing) (source : String) :
    Except Diagnostic Module → Except Diagnostic Module → Prop
  | failed {d d' : Diagnostic} (h : SameFailure s source d d') :
      SameReading s source (.error d) (.error d')
  | read {m m' : Module} (h : m.SameBut (Token.WrittenAround source s.mark) m') :
      SameReading s source (.ok m) (.ok m')

/-- The ends of the two texts are the same place, unless a comment that is dropped ends the first. -/
theorem moves_endOf (s : Spacing) (source : String)
    (h : EndsInComment source → s.comments = true) :
    s.Moves (endOf source) (endOf (s.apply source)) := by
  have hstart : s.Moves Position.start (Position.start.after (s.margin 1)) :=
    Spacing.moves_margin s 1
  rw [endOf, endOf, Spacing.apply, String.toList_ofList, Position.after_append]
  exact Spacing.moves_applyFrom source.toList hstart.line (fun _ => hstart) h

theorem read_of_scan {source : String} {x : Token.Stream} (h : scan source = .ok x) :
    (Module.read source).result = (ofStream x).result := by
  rw [Module.read, h]
  rfl

theorem read_of_scan_error {source : String} {d : Diagnostic} (h : scan source = .error d) :
    (Module.read source).result = .error d := by
  rw [Module.read, h]
  rfl

/-- What is told of two texts that are cut into the same tokens. -/
theorem sameFailure_twins {s : Spacing} {source : String} {x x' : Token.Stream} {d d' : Diagnostic}
    {hx : scan source = .ok x} {hx' : scan (s.apply source) = .ok x'} {h : x.Moved s x'}
    (position : (s.twins source hx hx' h).At d.position d'.position)
    (fault : (s.twins source hx hx' h).SameFault d.fault d'.fault) : SameFailure s source d d' where
  position := by
    rcases position with hmoves | ⟨hstop, hstop'⟩
    · exact .inl hmoves
    have hend : d.position = endOf source := hstop.trans (Token.stop_start_of_scanFrom hx)
    have hend' : d'.position = endOf (s.apply source) :=
      hstop'.trans (Token.stop_start_of_scanFrom hx')
    by_cases hcomment : EndsInComment source ∧ s.comments = false
    · exact .inr ⟨hcomment.1, hcomment.2, hend, hend'⟩
    · rw [hend, hend']
      exact .inl (moves_endOf s source fun hin =>
        eq_true_of_ne_false fun hs => hcomment ⟨hin, hs⟩)
  fault := by
    generalize d.fault = f at fault ⊢
    generalize d'.fault = f' at fault ⊢
    cases fault with
    | refl fault => exact .inl rfl
    | redefined name hp => exact .inr ⟨name, _, _, hp, rfl, rfl⟩

/-- **A source text with other spacing is read alike.** -/
theorem same_read (s : Spacing) (source : String)
    (hmargin : ∀ line ∈ structLines source, s.margin line = []) :
    SameReading s source (Module.read source).result (Module.read (s.apply source)).result := by
  have hscan := Token.scan_apply s source
  cases hx : scan source with
  | error d =>
    cases hx' : scan (s.apply source) with
    | error d' =>
      rw [hx, hx'] at hscan
      rw [read_of_scan_error hx, read_of_scan_error hx']
      cases hscan with
      | failed fault position => exact .failed ⟨.inl position, .inl fault⟩
    | ok x' => rw [hx, hx'] at hscan; cases hscan
  | ok x =>
    cases hx' : scan (s.apply source) with
    | error d' => rw [hx, hx'] at hscan; cases hscan
    | ok x' =>
      rw [hx, hx'] at hscan
      rw [read_of_scan hx, read_of_scan hx']
      cases hscan with
      | cut h =>
        have hsame : (s.twins source hx hx' h).SameResult
            (Module.SameBut (Token.WrittenAround source s.mark))
            (ofStream x).result (ofStream x').result :=
          same_ofStream (sameStructs_twins hx hx' h hmargin)
        generalize (ofStream x).result = r at hsame ⊢
        generalize (ofStream x').result = r' at hsame ⊢
        cases hsame with
        | failed position fault => exact .failed (sameFailure_twins position fault)
        | ok hm => exact .read hm

/-! ## Comments -/

/-- What is told or read of a source text and of the text without its comments. -/
inductive SameButComments (source : String) :
    Except Diagnostic Module → Except Diagnostic Module → Prop
  | failed {d d' : Diagnostic} (message : d'.message = d.message) :
      SameButComments source (.error d) (.error d')
  /-- Without the comment that it ends in, a text ends at another place. -/
  | cutShort {d d' : Diagnostic} (ends : EndsInComment source) (position : d.position = endOf source)
      (position' : d'.position = endOf (Spacing.withoutComments.apply source))
      (message : d'.fault.message = d.fault.message) : SameButComments source (.error d) (.error d')
  | read {m m' : Module} (h : m.SameBut (Token.WrittenAround source ';') m') :
      SameButComments source (.ok m) (.ok m')

/-- Without margins, the faults read alike. -/
theorem SameFailure.message_eq {s : Spacing} {source : String} {d d' : Diagnostic}
    (h : SameFailure s source d d') (hmargin : ∀ line, s.margin line = []) :
    d'.fault.message = d.fault.message := by
  rcases h.fault with hfault | ⟨name, p, p', hmoves, hfault, hfault'⟩
  · rw [hfault]
  · have htext : p'.text = p.text := hmoves.text_eq (hmargin _)
    rw [hfault, hfault']
    dsimp only [Fault.message]
    rw [htext]

/-- **Comments do not matter** for what is read from a text, but for the texts of constants that are
written around them. Neither do they matter for what is told of a text that is refused, but at its
end. -/
theorem read_withoutComments (source : String) :
    SameButComments source (Module.read source).result
      (Module.read (Spacing.withoutComments.apply source)).result := by
  have hsame := same_read Spacing.withoutComments source fun _ _ => rfl
  generalize (Module.read source).result = r at hsame ⊢
  generalize (Module.read (Spacing.withoutComments.apply source)).result = r' at hsame ⊢
  cases hsame with
  | read h => exact .read h
  | @failed d d' h =>
    have hfault := h.message_eq fun _ => rfl
    rcases h.position with hmoves | ⟨hends, -, hend, hend'⟩
    · refine .failed ?_
      rw [Diagnostic.message, Diagnostic.message, hfault, hmoves.text_eq rfl]
    · exact .cutShort hends hend hend' hfault

/-- Both texts give the same module, or they are refused with the same message. -/
def ReadAlike (source source' : String) : Prop :=
  (∃ m, (Module.read source).result = .ok m ∧ (Module.read source').result = .ok m)
    ∨ ∃ d d', (Module.read source).result = .error d ∧ (Module.read source').result = .error d'
      ∧ d'.message = d.message

/-- What the values of the functions in a source text come from, if it can be read. -/
def origins? (source : String) : Option (List (List Origin)) :=
  (Module.read source).result.toOption.map fun m =>
    m.functions.map fun f => f.values.toList.map (·.origin)

/-- Texts that are read alike have the same values. -/
theorem ReadAlike.origins_eq {source source' : String} (h : ReadAlike source source') :
    origins? source' = origins? source := by
  obtain ⟨m, hm, hm'⟩ | ⟨d, d', hd, hd', -⟩ := h
  · rw [origins?, origins?, hm, hm']
  · rw [origins?, origins?, hd, hd']
    rfl

/-- A struct without fields that is written around a comment. -/
def commentedSource : String :=
  "define \x7b\x7d @f()\x7b
ret \x7b\x7d \x7b;
\x7d
\x7d"

/-- A text that ends too early is told to end behind its last comment, and a constant is shown with
the comment inside of it. -/
theorem comments_tell : ¬ReadAlike "define ;" (Spacing.withoutComments.apply "define ;")
    ∧ ¬ReadAlike commentedSource (Spacing.withoutComments.apply commentedSource) := by
  constructor
  · have hread : (Module.read "define ;").result
        = .error ⟨⟨8, 1, 9⟩, .expected "a type" none⟩ := by cbv
    have hread' : (Module.read (Spacing.withoutComments.apply "define ;")).result
        = .error ⟨⟨7, 1, 8⟩, .expected "a type" none⟩ := by cbv
    rintro (⟨m, hm, -⟩ | ⟨d, d', hd, hd', hmessage⟩)
    · rw [hread] at hm
      cases hm
    · cases hread.symm.trans hd
      cases hread'.symm.trans hd'
      revert hmessage
      decide
  · have horigins : origins? commentedSource
        = some [[.block 0, .instruction 0, .constant "\x7b; \x7d"]] := by cbv
    have horigins' : origins? (Spacing.withoutComments.apply commentedSource)
        = some [[.block 0, .instruction 0, .constant "\x7b \x7d"]] := by cbv
    intro h
    have hsame := h.origins_eq
    rw [horigins, horigins'] at hsame
    revert hsame
    decide

/-! ## Indentation -/

/-- **Indentation does not matter** for what is read from a text, if the definitions of structs are
not indented, but for the texts of constants that are written around a comment with a quote. -/
theorem read_indented {source : String} {m : Module} {margin : Nat → List Char}
    (hblank : ∀ line, ∀ c ∈ margin line, c = ' ' ∨ c = '\t')
    (hstructs : ∀ line ∈ structLines source, margin line = [])
    (h : (Module.read source).result = .ok m) :
    ∃ m', (Module.read ((Spacing.indented margin hblank).apply source)).result = .ok m'
      ∧ m.SameBut (Token.WrittenAround source '"') m' := by
  have hsame := same_read (Spacing.indented margin hblank) source hstructs
  rw [h] at hsame
  generalize (Module.read ((Spacing.indented margin hblank).apply source)).result = r' at hsame ⊢
  cases hsame with
  | read hm => exact ⟨_, rfl, hm⟩

/-- A struct, and a function with a constant. -/
def flushSource : String :=
  "%T = type \x7b i32 \x7d
define i8 @f() \x7b
ret i8 1
\x7d
"

/-- What is read from `flushSource` with a margin in front of its statement. -/
theorem read_indented_statement : ∃ m m', (Module.read flushSource).result = .ok m
    ∧ m.types.entries.length = 1
    ∧ (Module.read "%T = type \x7b i32 \x7d
define i8 @f() \x7b
 \tret i8 1
\x7d
").result = .ok m' ∧ m.SameBut (Token.WrittenAround flushSource '"') m' := by
  have hread : ((Module.read flushSource).result.toOption.map (·.types.entries.length)) = some 1 := by
    cbv
  have hlines : structLines flushSource = [1] := by cbv
  cases hm : (Module.read flushSource).result with
  | error e => rw [hm] at hread; cases hread
  | ok m =>
    rw [hm, Except.toOption, Option.map_some, Option.some.injEq] at hread
    have hblank : ∀ line, ∀ c ∈ (if line = 3 then [' ', '\t'] else []), c = ' ' ∨ c = '\t' := by
      intro line c hc
      split at hc
      · simpa using hc
      · exact absurd hc List.not_mem_nil
    obtain ⟨m', hm', hsame⟩ := read_indented hblank (by rw [hlines]; decide) hm
    exact ⟨m, m', rfl, hread, hm', hsame⟩

/-- What is read from the text is read from the text with the margins, too. -/
def IndentsFreely (source : String) (margin : Nat → List Char) : Prop :=
  ∀ m, (Module.read source).result = .ok m →
    ∀ hblank, (Module.read ((Spacing.indented margin hblank).apply source)).result = .ok m

/-- A struct without fields that is written around a comment with a quote in it. -/
def quotedSource : String :=
  "define \x7b\x7d @f()\x7b
ret \x7b\x7d \x7b;\"
\x7d
\x7d"

/-- The definition of a struct that is indented is none, and a constant is shown with the margin
inside of it if a comment in front of the margin opens a quote. -/
theorem indentation_tells : ¬IndentsFreely "%T = type \x7b i32 \x7d" (fun _ => [' '])
    ∧ ¬IndentsFreely quotedSource (fun _ => [' ']) := by
  have hblank : ∀ line, ∀ c ∈ (fun _ : Nat => [' ']) line, c = ' ' ∨ c = '\t' :=
    fun _ _ hc => .inl (List.mem_singleton.mp hc)
  constructor
  · have hread : (Module.read "%T = type \x7b i32 \x7d").result
        = .ok ⟨⟨[("T", ⟨some [.int 32], false⟩)]⟩, [], false⟩ := by cbv
    have hread' : (Module.read " %T = type \x7b i32 \x7d").result = .ok ⟨⟨[]⟩, [], false⟩ := by cbv
    intro h
    have hindented := h _ hread hblank
    cases hread'.symm.trans hindented
  · have horigins : origins? quotedSource
        = some [[.block 0, .instruction 0, .constant "\x7b;\"\n\x7d"]] := by cbv
    have horigins' : origins? ((Spacing.indented _ hblank).apply quotedSource)
        = some [[.block 0, .instruction 0, .constant "\x7b;\"\n \x7d"]] := by cbv
    intro h
    cases hm : (Module.read quotedSource).result with
    | error d => rw [origins?, hm] at horigins; cases horigins
    | ok m =>
      have hsame : origins? ((Spacing.indented _ hblank).apply quotedSource) = origins? quotedSource :=
        ReadAlike.origins_eq (.inl ⟨m, hm, h m hm hblank⟩)
      rw [horigins, horigins'] at hsame
      revert hsame
      decide

end Module

end IrRecords
