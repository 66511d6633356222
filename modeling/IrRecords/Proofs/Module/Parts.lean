import IrRecords.Proofs.Function.Body
import IrRecords.Proofs.Module.Functions
import IrRecords.Proofs.Token.Tiles

/-!
# What a source text is made of

A source text that has been read falls into parts: definitions, declarations, groups of attributes
and lines of anything else (`Module.Part`). The parts are all there is: in a row their tokens are
the tokens of the text (`FallsInto`), and the functions of the module are those of the definitions
and declarations, in this order. `exists_parts_of_read` says so of every text that is read, and what is
shown of parts is shown of texts.

A definition is more than its header and its body. Between the two there may be anything that is no
opening brace, and it is passed over, as the rest of its line is behind a declaration.
-/

namespace IrRecords

open Reader

namespace Function

/-! ## Headers -/

theorem neutral_skipHeaderAttributes : Neutral skipHeaderAttributes := by
  rw [skipHeaderAttributes]
  refine (neutral_skipAttributes _ _).bind fun _ => neutral_skipWhile fun t ht => ?_
  unfold isGroupReference at ht
  split at ht
  · next hk => rw [hk]; rfl
  · cases ht

theorem neutral_readName : Neutral readName := by
  refine .intro fun c l => ?_
  rw [readName]
  refine .kind ?_
  split
  · next hc => exact .advance hc rfl fun _ _ => .pure rfl
  · exact .unexpected

theorem neutral_readParam : Neutral readParam := by
  refine .intro fun c l => ?_
  rw [readParam]
  refine .position (.skip Ty.neutral_read fun ty _ => ?_)
  refine .skip neutral_skipHeaderAttributes fun _ _ => .kind ?_
  split
  · next hc => exact .advance hc rfl fun _ _ => .pure rfl
  · exact .pure rfl

theorem neutral_readParams : Neutral readParams := by
  refine .intro fun c l => ?_
  rw [readParams]
  refine .expect_opener fun _ => .accept_closer (fun _ => .pure rfl) fun _ => ?_
  refine .skip (.iterate (fun params => ?_) #[]) fun _ _ => .expect_closer fun _ => .pure rfl
  refine (neutral_accept rfl).bind fun dots => ?_
  cases dots with
  | true => exact .pure _
  | false =>
    refine neutral_readParam.bind fun param => (neutral_accept rfl).bind fun more => ?_
    cases more with
    | true => exact .pure _
    | false => exact .pure _

/-- A header closes the brackets that it opens. -/
theorem neutral_readHeader : Neutral readHeader := by
  rw [readHeader]
  refine neutral_skipHeaderAttributes.bind fun _ => Ty.neutral_read.bind fun _ => ?_
  exact neutral_readName.bind fun _ => neutral_readParams.bind fun _ => .pure _

/-- Going forward over a header. -/
theorem exists_reads_header {c c' : Cursor} {h : Draft.Header} (hstop : c.stop.kind = .eof)
    (hread : readHeader c = .ok (h, c')) : ∃ head, c.Reaches head c' ∧ readHeader.Reads head h := by
  obtain ⟨head, hhead, _⟩ := neutral_readHeader c hstop h c' hread
  exact ⟨head, hhead, c, c', hstop, hread, hhead⟩

end Function

namespace Module

/-! ## Parts -/

/-- A definition with its tokens. -/
structure Definition where
  keyword : Token
  /-- What the header is read from. -/
  head : List Token
  /-- What stands between the header and the body. -/
  attributes : List Token
  opening : Token
  parts : List BodyPart
  closing : Token
  function : Function

namespace Definition

/-- The tokens between the braces. -/
def body (D : Definition) : List Token := D.parts.flatMap BodyPart.tokens

/-- All tokens of a definition. -/
def tokens (D : Definition) : List Token :=
  D.keyword :: (D.head ++ (D.attributes ++ (D.opening :: (D.body ++ [D.closing]))))

/-- The statements of the body. -/
def statements (D : Definition) : List WrittenStatement := D.parts.filterMap BodyPart.statement?

/-- The token is passed over in the body. -/
def PassesOver (D : Definition) (t : Token) : Prop := ∃ part ∈ D.parts, part.PassesOver t

/-- The header is read from its tokens, the body is in braces, and the function is what its parts
add up to. -/
structure Valid (D : Definition) : Prop where
  keyword : D.keyword.kind = .word "define"
  attributes : ∀ t ∈ D.attributes, Function.opensBody t = false
  opening : Function.opensBody D.opening = true
  closing : D.closing.kind = .closer .curly
  body : ∃ header d d', Function.readHeader.Reads D.head header ∧ Draft.ofHeader header = .ok d
    ∧ d.AddsAll D.parts d' ∧ d'.finish = .ok D.function

end Definition

/-- A declaration with its tokens. -/
structure Declaration where
  keyword : Token
  /-- What the header is read from. -/
  head : List Token
  /-- What is left of the line. -/
  trailer : List Token
  function : Function

/-- The header is read from its tokens, and the rest of its last line is passed over. -/
structure Declaration.Valid (D : Declaration) : Prop where
  keyword : D.keyword.kind = .word "declare"
  trailer : ∀ t ∈ D.trailer, (D.keyword :: D.head).getLast?.map Token.line = some t.line
  function : ∃ header d, Function.readHeader.Reads D.head header ∧ Draft.ofHeader header = .ok d
    ∧ d.finish = .ok D.function

/-- A part of a source text. -/
inductive Part where
  | definition (D : Definition)
  | declaration (D : Declaration)
  /-- A group of attributes. -/
  | attributes (t : Token) (rest : List Token)
  /-- A line of anything else. -/
  | line (t : Token) (rest : List Token)

namespace Part

/-- All tokens of a part. -/
def tokens : Part → List Token
  | definition D => D.tokens
  | declaration D => D.keyword :: (D.head ++ D.trailer)
  | attributes t rest => t :: rest
  | line t rest => t :: rest

/-- The function that is read from a part. -/
def function? : Part → Option Function
  | definition D => some D.function
  | declaration D => some D.function
  | _ => none

/-- Whether a token of this kind starts a part that is no line. -/
def isKeyword (k : TokenKind) : Bool :=
  k == .word "define" || k == .word "declare" || k == .word "attributes"

/-- What the parts look like. -/
inductive Valid : Part → Prop
  | definition {D : Definition} (hD : D.Valid) : Valid (.definition D)
  | declaration {D : Declaration} (hD : D.Valid) : Valid (.declaration D)
  | attributes {t : Token} {rest : List Token} (ht : t.kind = .word "attributes") :
      Valid (.attributes t rest)
  | line {t : Token} {rest : List Token} (ht : isKeyword t.kind = false)
      (hrest : ∀ u ∈ rest, u.line = t.line) : Valid (.line t rest)

/-- The instructions of a definition are read from their texts. -/
def ReadIn (ctx : Draft.Context) : Part → Prop
  | definition D => ∀ part ∈ D.parts, part.ReadIn ctx
  | _ => True

theorem readIn_of_function? {part : Part} (h : part.function? = none) (ctx : Draft.Context) :
    part.ReadIn ctx := by
  cases part with
  | definition D => cases h
  | _ => exact trivial

end Part

/-- What the reader of an instruction knew of the module. -/
def context (m : Module) : Draft.Context := ⟨m.types, m.opaquePointers⟩

/-- The source text, from which the module is read, falls into these parts. -/
structure FallsInto (source : String) (m : Module) (parts : List Part) : Prop where
  scan : ∃ stop, Token.scan source = .ok ⟨parts.flatMap Part.tokens, stop⟩
  valid : ∀ part ∈ parts, part.Valid
  functions : m.functions = parts.filterMap Part.function?

/-! ## Reading -/

section

variable {ctx : Draft.Context} {c c' : Cursor} {f : Function}

/-- A definition is read from the tokens behind its keyword. -/
theorem exists_definition (hstop : c.stop.kind = .eof) (hc : c.current.kind = .word "define")
    (h : (Function.readDefinition ctx c.advance).result = .ok (f, c')) :
    ∃ D : Definition, c.Reaches D.tokens c' ∧ D.Valid ∧ D.function = f
      ∧ ∀ part ∈ D.parts, part.ReadIn ctx := by
  have hkeyword := Cursor.reaches_advance hstop (c := c) (by simp [hc])
  have hstop' : c.advance.stop.kind = .eof := by rw [hkeyword.stop, hstop]
  rw [Function.readDefinition, Traced.bind_eq_ok_iff] at h
  obtain ⟨⟨header, c₁⟩, hheader, h⟩ := h
  obtain ⟨_, _, h⟩ := Traced.bind_eq_ok_iff.mp h
  obtain ⟨head, hhead, hreads⟩ := Function.exists_reads_header hstop' hheader
  have hstop₁ : c₁.stop.kind = .eof := by rw [hhead.stop, hstop']
  obtain ⟨ts, hts, attributes, opening, parts, closing, d, d', rfl, hattributes, hopening, hclosing,
    hd, hparts, hf, hin⟩ := Function.passesFrom_readBody ctx header c₁ hstop₁ f c' h
  exact ⟨⟨c.current, head, attributes, opening, parts, closing, f⟩,
    hkeyword.trans (hhead.trans hts),
    ⟨hc, hattributes, hopening, hclosing, header, d, d', hreads, hd, hparts, hf⟩, rfl, hin⟩

/-- A declaration is read from the tokens behind its keyword, and its line ends it. -/
theorem exists_declaration (hstop : c.stop.kind = .eof) (hc : c.current.kind = .word "declare")
    (h : (Function.readDeclaration c.advance).result = .ok (f, c')) :
    ∃ D : Declaration, c.Reaches (Part.declaration D).tokens c' ∧ D.Valid ∧ D.function = f := by
  have hkeyword := Cursor.reaches_advance hstop (c := c) (by simp [hc])
  have hstop' : c.advance.stop.kind = .eof := by rw [hkeyword.stop, hstop]
  rw [Function.readDeclaration, Traced.bind_eq_ok_iff] at h
  obtain ⟨⟨header, c₁⟩, hheader, h⟩ := h
  obtain ⟨_, _, h⟩ := Traced.bind_eq_ok_iff.mp h
  obtain ⟨g, hg, h⟩ := Traced.bind_eq_ok_iff.mp h
  cases h
  obtain ⟨head, hhead, hreads⟩ := Function.exists_reads_header hstop' hheader
  obtain ⟨trailer, htrailer, hline⟩ := c₁.reaches_skipRestOfLine
  have hall := hkeyword.trans hhead
  cases hd : Draft.ofHeader header with
  | error e => simp only [Traced.ofExcept, hd] at hg; cases hg
  | ok d =>
    simp only [Traced.ofExcept, hd] at hg
    refine ⟨⟨c.current, head, trailer, f⟩, hkeyword.trans (hhead.trans htrailer),
      ⟨hc, fun t ht => ?_, header, d, hreads, hd, hg⟩, rfl⟩
    -- The keyword is passed, so there is a last token and the line is its line.
    rw [← hline t ht, hall.lastLine?]
    cases hlast : ([c.current] ++ head).getLast? with
    | none => simp at hlast
    | some last => rw [List.singleton_append] at hlast; rw [hlast]; rfl

/-- Whatever else there is is passed over. -/
theorem passesFrom_skipItem (hc : c.current.kind ≠ .eof) (hdefine : c.current.kind ≠ .word "define")
    (hdeclare : c.current.kind ≠ .word "declare") : PassesFrom c skipItem fun _ ts =>
      ∃ part : Part, part.tokens = ts ∧ part.Valid ∧ part.function? = none := by
  rw [skipItem]
  refine .isAt ?_
  by_cases hattributes : (c.current.kind == .word "attributes") = true
  · rw [if_pos hattributes]
    rw [beq_iff_eq] at hattributes
    -- The word itself opens no body, and so at least it is passed.
    have hopens : (!Function.opensBody c.current) = true := by
      rw [Function.opensBody, hattributes]
      rfl
    refine (PassesFrom.skipWhile_of_pos hc hopens).bind fun _ ts c₁ hts => .isAt ?_
    obtain ⟨us, rfl⟩ := hts
    by_cases hgroup : (c₁.current.kind == .opener .curly) = true
    · rw [if_pos hgroup]
      refine .skipGroup (beq_iff_eq.mp hgroup) fun t vs _ _ => ?_
      exact ⟨.attributes c.current (us ++ t :: vs), rfl, .attributes hattributes, rfl⟩
    · rw [if_neg hgroup]
      exact .pure ⟨.attributes c.current (us ++ []), rfl, .attributes hattributes, rfl⟩
  · rw [if_neg hattributes]
    refine (passesFrom_skipLine hc).mono fun _ ts hts => ?_
    obtain ⟨us, rfl, hline⟩ := hts
    refine ⟨.line c.current us, rfl, .line ?_ hline, rfl⟩
    simp only [beq_iff_eq] at hattributes
    simp [Part.isKeyword, hdefine, hdeclare, hattributes]

theorem Progress.functions_push {p p' : Progress} {position : Position}
    (h : p.push f position = .ok p') : p'.functions.toList = p.functions.toList ++ [f] := by
  rw [Progress.push] at h
  split at h
  · cases h; simp
  · split at h
    · cases h
    · cases h; simp

/-- **What is ahead of a cursor falls into parts.** The induction is on the row that bounds the
loop, one part a round. -/
theorem readItems_parts {bound : List Token} {p p' : Progress} (hstop : c.stop.kind = .eof)
    (hrest : ∀ t ∈ c.rest, t.kind ≠ .eof) (h : (readItems ctx bound p c).result = .ok p') :
    ∃ parts : List Part, c.rest = parts.flatMap Part.tokens
      ∧ (∀ part ∈ parts, part.Valid ∧ part.ReadIn ctx)
      ∧ p'.functions.toList = p.functions.toList ++ parts.filterMap Part.function? := by
  induction bound generalizing p c with
  | nil => rw [readItems] at h; cases h
  | cons t bound ih =>
    -- A part is in front of those that the rest of the loop goes through.
    have hmore : ∀ {part : Part} {p₁ : Progress} {c₁ : Cursor}, c.Reaches part.tokens c₁ →
        (part.Valid ∧ part.ReadIn ctx) → p₁.functions.toList = p.functions.toList ++ part.function?.toList →
        (readItems ctx bound p₁ c₁).result = .ok p' → ∃ parts : List Part,
          c.rest = parts.flatMap Part.tokens ∧ (∀ part ∈ parts, part.Valid ∧ part.ReadIn ctx)
          ∧ p'.functions.toList = p.functions.toList ++ parts.filterMap Part.function? := by
      intro part p₁ c₁ hreaches hpart hfunctions h₁
      have hrest₁ : ∀ u ∈ c₁.rest, u.kind ≠ .eof := fun u hu =>
        hrest u (by rw [hreaches.rest]; exact List.mem_append_right _ hu)
      obtain ⟨parts, htokens, hvalid, hmore⟩ := ih (by rw [hreaches.stop, hstop]) hrest₁ h₁
      refine ⟨part :: parts, ?_, ?_, ?_⟩
      · rw [hreaches.rest, htokens, List.flatMap_cons]
      · exact List.forall_mem_cons.mpr ⟨hpart, hvalid⟩
      · rw [hmore, hfunctions, List.append_assoc]
        cases hfunction : part.function? <;> simp [hfunction]
    rw [readItems] at h
    dsimp only at h
    split at h
    · next heof =>
      cases h
      cases hnil : c.rest with
      | nil => exact ⟨[], by simp, by simp, by simp⟩
      | cons u rest =>
        rw [Cursor.current, hnil] at heof
        exact absurd heof (hrest u (by rw [hnil]; exact List.mem_cons_self))
    · next hdefine =>
      obtain ⟨⟨f, c₁⟩, hf, h⟩ := Traced.bind_eq_ok_iff.mp h
      obtain ⟨p₁, hp₁, h⟩ := Traced.bind_eq_ok_iff.mp h
      obtain ⟨D, hreaches, hD, rfl, hreads⟩ := exists_definition hstop hdefine hf
      exact @hmore (.definition D) _ _ hreaches ⟨.definition hD, hreads⟩ (Progress.functions_push hp₁) h
    · next hdeclare =>
      obtain ⟨⟨f, c₁⟩, hf, h⟩ := Traced.bind_eq_ok_iff.mp h
      obtain ⟨p₁, hp₁, h⟩ := Traced.bind_eq_ok_iff.mp h
      obtain ⟨D, hreaches, hD, rfl⟩ := exists_declaration hstop hdeclare hf
      exact @hmore (.declaration D) _ _ hreaches ⟨.declaration hD, trivial⟩ (Progress.functions_push hp₁) h
    · next heof hdefine hdeclare =>
      obtain ⟨⟨_, c₁⟩, hskip, h⟩ := Traced.bind_eq_ok_iff.mp h
      obtain ⟨ts, hreaches, part, rfl, hpart, hnone⟩ :=
        passesFrom_skipItem (by simpa using heof) (by simpa using hdefine) (by simpa using hdeclare)
          hstop _ _ hskip
      exact hmore hreaches ⟨hpart, Part.readIn_of_function? hnone ctx⟩ (by rw [hnone]; simp) h

end

/-- **Every source text that is read falls into parts**, and instructions are read from their texts. -/
theorem exists_parts_readIn_of_read {source : String} {m : Module}
    (h : (Module.read source).result = .ok m) :
    ∃ parts, FallsInto source m parts ∧ ∀ part ∈ parts, part.ReadIn m.context := by
  rw [Module.read, Traced.bind_eq_ok_iff] at h
  obtain ⟨stream, hstream, h⟩ := h
  rw [ofStream, Traced.bind_eq_ok_iff] at h
  obtain ⟨⟨types, c₁⟩, _, h⟩ := h
  obtain ⟨p, hp, h⟩ := Traced.bind_eq_ok_iff.mp h
  cases h
  have hscan : Token.scan source = .ok stream := hstream
  have htiles := Token.scanFrom_spec hscan
  have hrest : ∀ t ∈ stream.tokens, t.kind ≠ .eof := fun t ht => (htiles.lexed t ht).kind_ne_eof
  obtain ⟨parts, htokens, hvalid, hfunctions⟩ :=
    readItems_parts (c := ⟨none, stream.tokens, stream.stop⟩) htiles.stop hrest hp
  have htokens' : stream.tokens = parts.flatMap Part.tokens := htokens
  refine ⟨parts, ⟨⟨stream.stop, ?_⟩, fun part hpart => (hvalid part hpart).1, ?_⟩,
    fun part hpart => (hvalid part hpart).2⟩
  · rw [hscan, ← htokens']
  · exact hfunctions.trans (List.nil_append _)

theorem exists_parts_of_read {source : String} {m : Module}
    (h : (Module.read source).result = .ok m) : ∃ parts, FallsInto source m parts :=
  (exists_parts_readIn_of_read h).imp fun _ hparts => hparts.1

end Module

end IrRecords
