import IrRecords.Proofs.Listing.Basic

/-!
# The tokens of a listing

The text of a listing is cut into tokens line by line. In a line each piece has a blank in front of
it, or is a comma, so no piece runs into the next; the header is put together by hand. A line break
ends a line and nothing else, so the tokens of line after line make the tokens of the text, and each
of them knows its line (`Listing.marks`).
-/

namespace IrRecords

namespace Listing

open Token

/-! ## Kinds -/

def Operand.kind : Operand → TokenKind
  | reference name => .localRef (.named name)
  | numeral text => .int text

def Piece.kinds : Piece → List TokenKind
  | word text => [.word text]
  | spelling ty => ty.kinds
  | operand o => [o.kind]
  | comma => [.comma]
  | equal => [.equal]
  | opener => [.opener .square]
  | closer => [.closer .square]

/-- The kinds of the tokens of pieces in a row. -/
def kindsOf (pieces : List Piece) : List TokenKind := pieces.flatMap Piece.kinds

def Line.kinds : Line → List TokenKind
  | label name => [.label name]
  | statement s => kindsOf s.pieces

def paramKinds (p : String × Ty) : List TokenKind := p.2.kinds ++ [.localRef (.named p.1)]

/-- The kinds of the tokens in front of the body. -/
def headerKinds (l : Listing) : List TokenKind :=
  .word "define" :: (l.ret.kinds ++ .globalRef (.named l.name) :: .opener .round ::
    (listedKinds (l.params.map paramKinds) l.vararg ++ [.closer .round, .opener .curly]))

/-- The tokens of lines, the first of which has the number `n`, and of the brace that ends them. -/
def lineMarks (n : Nat) : List (List TokenKind) → List Mark
  | [] => [⟨.closer .curly, n⟩]
  | ks :: rest => ks.map (⟨·, n⟩) ++ lineMarks (n + 1) rest

/-- The tokens of a listing. -/
def marks (l : Listing) : List Mark :=
  l.headerKinds.map (⟨·, 1⟩) ++ lineMarks 2 (l.lines.map Line.kinds)

/-! ## Pieces -/

/-- A piece that is cut into its tokens, none of which is the word that marks the definition of a
struct. -/
def Piece.Sound : Piece → Prop
  | word text => IsWord text.toList ∧ text ≠ "type"
  | spelling ty => ty.prints = true
  | operand (.numeral text) => IsInteger text
  | operand (.reference _) | comma | equal | opener | closer => True

theorem Operand.cuts {o : Operand} (h : (Piece.operand o).Sound) : Cuts o.text.toList [o.kind] := by
  cases o with
  | reference name =>
    rw [Operand.text, String.toList_append]
    exact .localName name
  | numeral text =>
    rcases h with h | ⟨w, hw, h⟩
    · exact .numeral h
    · exact .signed hw h

theorem Piece.cuts {piece : Piece} (h : piece.Sound) : Cuts piece.text.toList piece.kinds := by
  cases piece with
  | word text => exact .word h.1
  | spelling ty => exact Ty.cuts_text ty h
  | operand o => exact Operand.cuts h
  | comma => exact .punctuation rfl .nil
  | equal => exact .punctuation rfl .nil
  | opener => exact .punctuation rfl .nil
  | closer => exact .punctuation rfl .nil

/-- A row of pieces starts with a blank or a comma, if there is anything of it. -/
theorem delimited_spaced (pieces : List Piece) {cs : List Char} (h : Delimited cs) :
    Delimited ((spaced pieces).toList ++ cs) := by
  cases pieces with
  | nil => exact h
  | cons piece rest =>
    cases piece
    case comma =>
      rw [spaced, String.toList_append]
      exact delimited_cons (c := ',') rfl
    all_goals
      rw [spaced, String.toList_append, String.toList_append]
      · exact delimited_cons (c := ' ') rfl
      · simp

/-- Pieces in a row are cut into their tokens. -/
theorem cuts_row {pieces : List Piece} (h : ∀ piece ∈ pieces, piece.Sound) :
    Cuts (spaced pieces).toList (kindsOf pieces) := by
  induction pieces with
  | nil => exact .nil
  | cons piece rest ih =>
    have hrest := ih fun p hp => h p (List.mem_cons_of_mem _ hp)
    have hboth : Cuts (piece.text.toList ++ (spaced rest).toList)
        (piece.kinds ++ kindsOf rest) :=
      (Piece.cuts (h piece List.mem_cons_self)).append hrest
        fun cs hcs => delimited_spaced rest hcs
    rw [kindsOf, List.flatMap_cons]
    -- A comma has no blank in front of it, and all other pieces have.
    cases piece
    case comma =>
      rw [spaced, String.toList_append]
      exact hboth
    all_goals
      rw [spaced, String.toList_append, String.toList_append, List.append_assoc]
      · exact hboth.blank
      · simp

/-! ## Lines -/

/-- A line that is cut into its tokens. -/
def Line.Sound : Line → Prop
  | label name => IsWord name.toList
  | statement s => ∀ piece ∈ s.pieces, piece.Sound

theorem Line.cuts {line : Line} (h : line.Sound) : Cuts line.text.toList line.kinds := by
  cases line with
  | label name =>
    rw [Line.text, String.toList_append]
    exact .label h
  | statement s =>
    rw [Line.text, String.toList_append]
    exact (cuts_row h).blank

/-- Rows of pieces, one to a line, and the brace that ends them. -/
theorem cut_rows {rows : List (List Char × List TokenKind)} (h : ∀ row ∈ rows, Cuts row.1 row.2)
    (p : Position) : Cut p (rows.flatMap (fun row => row.1 ++ ['\n']) ++ ['\x7d', '\n'])
      (lineMarks p.line (rows.map (·.2))) := by
  induction rows generalizing p with
  | nil =>
    have hbrace : Cuts ['\x7d'] [.closer .curly] := .punctuation rfl .nil
    exact hbrace.cut p ['\n'] [] (delimited_cons rfl) (.newline (.nil _))
  | cons row rest ih =>
    have hrow := h row List.mem_cons_self
    -- The line break is what moves on to the next number.
    have hnext : ((p.after row.1).next '\n').line = p.line + 1 := by
      rw [Position.next, if_pos rfl, line_after hrow.flat]
    have hrest := ih (fun x hx => h x (List.mem_cons_of_mem _ hx)) ((p.after row.1).next '\n')
    rw [hnext] at hrest
    have hall := hrow.cut p _ _ (delimited_cons (by decide)) (.newline hrest)
    rw [List.flatMap_cons, List.append_assoc, List.append_assoc, List.singleton_append]
    exact hall

/-- The lines of a body and the brace that ends it. -/
theorem cut_lines {lines : List Line} (h : ∀ line ∈ lines, line.Sound) (p : Position) :
    Cut p (lines.flatMap (fun line => line.text.toList ++ ['\n']) ++ ['\x7d', '\n'])
      (lineMarks p.line (lines.map Line.kinds)) := by
  have hcuts : ∀ row ∈ lines.map fun line => (line.text.toList, line.kinds), Cuts row.1 row.2 :=
    List.forall_mem_map.mpr fun line hline => Line.cuts (h line hline)
  have hrows := cut_rows hcuts p
  rwa [List.flatMap_map, List.map_map] at hrows

/-! ## Headers -/

theorem cuts_paramText {p : String × Ty} (h : p.2.prints = true) :
    Cuts (paramText p).toList (paramKinds p) := by
  have htext : (paramText p).toList
      = p.2.text.toList ++ ' ' :: '%' :: (Text.quoteName p.1).toList := by
    simp [paramText]
  rw [htext]
  exact Ty.cuts_spaced (Ty.cuts_text p.2 h) (.localName p.1)

/-- A list of parameters, with three points at its end if there may be more. -/
theorem cuts_listed {params : List (String × Ty)} (vararg : Bool)
    (h : ∀ p ∈ params, p.2.prints = true) :
    Cuts (listed (params.map paramText) vararg).toList
      (listedKinds (params.map paramKinds) vararg) := by
  induction params with
  | nil =>
    cases vararg with
    | false => exact .nil
    | true => exact .ellipsis .nil
  | cons p rest ih =>
    have hp := cuts_paramText (h p List.mem_cons_self)
    have hrest := ih fun q hq => h q (List.mem_cons_of_mem _ hq)
    -- Only the last parameter has nothing behind it.
    by_cases hlast : rest = [] ∧ vararg = false
    · obtain ⟨rfl, rfl⟩ := hlast
      exact hp
    · have htext : (listed ((p :: rest).map paramText) vararg).toList
          = (paramText p).toList ++ ',' :: ' ' :: (listed (rest.map paramText) vararg).toList := by
        have hlisted : listed (paramText p :: rest.map paramText) vararg
            = paramText p ++ ", " ++ listed (rest.map paramText) vararg := by
          rw [listed]
          intro hvararg hrest
          exact hlast ⟨List.map_eq_nil_iff.mp hrest, hvararg⟩
        simp [hlisted]
      have hkinds : listedKinds ((p :: rest).map paramKinds) vararg
          = paramKinds p ++ .comma :: listedKinds (rest.map paramKinds) vararg := by
        rw [List.map_cons, listedKinds]
        intro hvararg hrest
        exact hlast ⟨List.map_eq_nil_iff.mp hrest, hvararg⟩
      rw [htext, hkinds]
      exact hp.append (.punctuation rfl hrest.blank) (Delimited.cons_append rfl)

variable {l : Listing}

theorem cuts_header (h : l.WellFormed) : Cuts l.header.toList l.headerKinds := by
  have hparams := cuts_listed l.vararg fun p hp => (h.params p hp).1
  have hend : Cuts [')', ' ', '\x7b'] [.closer .round, .opener .curly] :=
    .punctuation rfl (Cuts.punctuation rfl .nil).blank
  have hlist : Cuts ('(' :: ((listed (l.params.map paramText) l.vararg).toList
      ++ [')', ' ', '\x7b']))
      (.opener .round :: (listedKinds (l.params.map paramKinds) l.vararg
        ++ [.closer .round, .opener .curly])) :=
    .punctuation rfl (hparams.append hend (Delimited.cons_append rfl))
  have hname := (Cuts.globalName l.name).append hlist (Delimited.cons_append rfl)
  have hret := Ty.cuts_spaced (Ty.cuts_text l.ret h.ret) hname
  have hall := Ty.cuts_spaced (Cuts.word (s := "define") (by decide)) hret
  have htext : l.header.toList = "define".toList ++ ' ' :: (l.ret.text.toList ++ ' ' ::
      ('@' :: (Text.quoteName l.name).toList ++ '(' ::
        ((listed (l.params.map paramText) l.vararg).toList ++ [')', ' ', '\x7b']))) := by
    simp [header]
  rw [htext]
  exact hall

/-! ## Well-formed listings -/

theorem sound_mnemonic (opcode : Opcode) : (Piece.word opcode.mnemonic).Sound := by
  have hall : ∀ op ∈ Opcode.all, IsWord op.mnemonic.toList ∧ op.mnemonic ≠ "type" := by
    decide +kernel
  exact hall opcode opcode.mem_all

theorem sound_predicate (p : Predicate) : (Piece.word p.name).Sound := by
  unfold Piece.Sound
  cases p with
  | int p => cases p <;> decide
  | float p => cases p <;> decide

/-- An operand of a well-formed use is a piece. -/
theorem Use.WellFormed.sound {defs : List (String × Ty)} {u : Use} (h : u.WellFormed defs) :
    (Piece.operand u.operand).Sound := by
  obtain ⟨ty, o⟩ := u
  cases o with
  | reference name => trivial
  | numeral text => exact h

theorem Use.WellFormed.pieces {defs : List (String × Ty)} {u : Use} (h : u.WellFormed defs)
    (hty : IsValueTy u.ty) : ∀ piece ∈ u.pieces, piece.Sound := by
  rw [Use.pieces, List.forall_mem_cons, List.forall_mem_singleton]
  exact ⟨hty.1, h.sound⟩

theorem sound_target (name : String) : ∀ piece ∈ (target name).pieces, piece.Sound := by
  rw [Use.pieces, List.forall_mem_cons, List.forall_mem_singleton]
  exact ⟨rfl, trivial⟩

theorem sound_edgePieces {edges : List (Operand × String)}
    (h : ∀ e ∈ edges, (Piece.operand e.1).Sound) : ∀ piece ∈ edgePieces edges, piece.Sound := by
  induction edges with
  | nil => exact List.forall_mem_nil _
  | cons e rest ih =>
    obtain ⟨o, block⟩ := e
    have ho : (Piece.operand o).Sound := h (o, block) List.mem_cons_self
    have hrest := ih fun e he => h e (List.mem_cons_of_mem _ he)
    cases rest with
    | nil => simpa [edgePieces, Piece.Sound] using ho
    | cons e' rest =>
      rw [edgePieces]
      · simp only [List.forall_mem_append, List.forall_mem_cons]
        exact ⟨⟨trivial, ho, trivial, trivial, trivial, by simp⟩, trivial, hrest⟩
      · simp

/-- The pieces behind the word of a well-formed instruction are pieces. -/
theorem sound_arguments {defs : List (String × Ty)} {s : Statement} (h : s.WellFormed defs) :
    ∀ piece ∈ s.form.arguments, piece.Sound := by
  obtain ⟨result?, form⟩ := s
  have huses := h.uses
  have htypes := h.types
  dsimp only at huses htypes ⊢
  cases form with
  | binary op ty lhs rhs =>
    simp only [Form.uses, Form.types, List.forall_mem_cons] at huses htypes
    simp only [Form.arguments, List.forall_mem_cons]
    exact ⟨htypes.1.1, huses.1.sound, trivial, huses.2.1.sound, by simp⟩
  | compare p ty lhs rhs =>
    simp only [Form.uses, Form.types, List.forall_mem_cons] at huses htypes
    simp only [Form.arguments, List.forall_mem_cons]
    exact ⟨sound_predicate p, htypes.1.1, huses.1.sound, trivial, huses.2.1.sound, by simp⟩
  | cast op value ty =>
    simp only [Form.uses, Form.types, List.forall_mem_cons] at huses htypes
    simp only [Form.arguments, List.forall_mem_append, List.forall_mem_cons]
    have hto : (Piece.word "to").Sound := ⟨by decide, by decide⟩
    exact ⟨huses.1.pieces htypes.1, hto, htypes.2.1.1, by simp⟩
  | select condition onTrue onFalse =>
    simp only [Form.uses, Form.types, List.forall_mem_cons] at huses htypes
    simp only [Form.arguments, List.forall_mem_append, List.forall_mem_cons]
    exact ⟨huses.1.pieces htypes.1, trivial, huses.2.1.pieces htypes.2.1, trivial,
      huses.2.2.1.pieces htypes.2.2.1⟩
  | freeze value =>
    simp only [Form.uses, Form.types, List.forall_mem_cons] at huses htypes
    exact huses.1.pieces htypes.1
  | load ty address =>
    simp only [Form.uses, Form.types, List.forall_mem_cons] at huses htypes
    simp only [Form.arguments, List.forall_mem_cons]
    exact ⟨htypes.1.1, trivial, huses.1.pieces htypes.2.1⟩
  | store value address =>
    simp only [Form.uses, Form.types, List.forall_mem_cons] at huses htypes
    simp only [Form.arguments, List.forall_mem_append, List.forall_mem_cons]
    exact ⟨huses.1.pieces htypes.1, trivial, huses.2.1.pieces htypes.2.1⟩
  | phi ty edges =>
    simp only [Form.types, List.forall_mem_cons] at htypes
    simp only [Form.arguments, List.forall_mem_cons]
    refine ⟨htypes.1.1, sound_edgePieces fun e he => ?_⟩
    exact (huses ⟨ty, e.1⟩ (List.mem_map.mpr ⟨e, he, rfl⟩)).sound
  | br block => exact sound_target block
  | condBr condition onTrue onFalse =>
    simp only [Form.uses, Form.types, List.forall_mem_cons] at huses htypes
    simp only [Form.arguments, List.forall_mem_append, List.forall_mem_cons]
    exact ⟨huses.1.pieces htypes.1, trivial, sound_target onTrue, trivial, sound_target onFalse⟩
  | switch condition otherwise cases =>
    simp only [Form.uses, Form.types, List.forall_mem_cons, List.forall_mem_map,
      List.mem_flatMap] at huses htypes
    simp only [Form.arguments, List.forall_mem_append, List.forall_mem_cons]
    refine ⟨huses.1.pieces htypes.1, trivial, sound_target otherwise, trivial, ?_, trivial, by simp⟩
    intro piece hpiece
    obtain ⟨c, hc, hpiece⟩ := List.mem_flatMap.mp hpiece
    -- A case is its value, a comma and the block it goes to.
    rcases List.mem_append.mp hpiece with hpiece | hpiece
    · exact (huses.2.2 c.1 ⟨c, hc, by simp⟩).pieces (htypes.2 c hc) piece hpiece
    · rcases List.mem_cons.mp hpiece with rfl | hpiece
      · trivial
      · exact sound_target c.2 piece hpiece
  | ret value? =>
    cases value? with
    | none =>
      simp only [Form.arguments, List.forall_mem_cons]
      exact ⟨rfl, by simp⟩
    | some value =>
      simp only [Form.uses, Form.types, Option.toList_some, List.map_cons, List.map_nil,
        List.forall_mem_cons] at huses htypes
      exact huses.1.pieces htypes.1

theorem Statement.WellFormed.sound {defs : List (String × Ty)} {s : Statement}
    (h : s.WellFormed defs) : ∀ piece ∈ s.pieces, piece.Sound := by
  have hform : ∀ piece ∈ s.form.pieces, piece.Sound := by
    rw [Form.pieces, List.forall_mem_cons]
    exact ⟨sound_mnemonic _, sound_arguments h⟩
  unfold Statement.pieces
  cases s.result? with
  | none => exact hform
  | some name =>
    simp only [List.forall_mem_cons]
    exact ⟨trivial, trivial, hform⟩

theorem WellFormed.sound (h : l.WellFormed) : ∀ line ∈ l.lines, line.Sound := by
  intro line hline
  obtain ⟨b, hb, hline⟩ := List.mem_flatMap.mp hline
  rcases List.mem_cons.mp hline with rfl | hline
  · apply h.names (b.name, .label)
    rw [definitions, List.mem_append, List.mem_append]
    exact .inl (.inr (List.mem_map.mpr ⟨b, hb, rfl⟩))
  · obtain ⟨s, hs, rfl⟩ := List.mem_map.mp hline
    exact (h.statements s (List.mem_flatMap.mpr ⟨b, hb, hs⟩)).sound

/-- **The text of a well-formed listing is cut into the tokens of the listing.** -/
theorem cut_text (h : l.WellFormed) : Cut .start l.text.toList l.marks := by
  have hheader := cuts_header h
  have hnext : ((Position.start.after l.header.toList).next '\n').line = 2 := by
    rw [Position.next, if_pos rfl, line_after hheader.flat]
    rfl
  have hlines := cut_lines h.sound ((Position.start.after l.header.toList).next '\n')
  rw [hnext] at hlines
  have hall := hheader.cut .start _ _ (delimited_cons (by decide)) (.newline hlines)
  have htext : l.text.toList = l.header.toList ++ '\n' ::
      (l.lines.flatMap (fun line => line.text.toList ++ ['\n']) ++ ['\x7d', '\n']) := by
    simp [text, String.toList_join, List.flatMap_map]
  rw [htext]
  exact hall

/-! ## Words -/

theorem Piece.kinds_ne_type {piece : Piece} (h : piece.Sound) :
    ∀ k ∈ piece.kinds, k ≠ .word "type" := by
  cases piece with
  | word text =>
    rw [Piece.kinds, List.forall_mem_singleton]
    exact fun hword => h.2 (TokenKind.word.inj hword)
  | spelling ty => exact Ty.kinds_ne_type ty
  | operand o =>
    rw [Piece.kinds, List.forall_mem_singleton]
    cases o <;> simp [Operand.kind]
  | comma => exact List.forall_mem_singleton.mpr (by simp)
  | equal => exact List.forall_mem_singleton.mpr (by simp)
  | opener => exact List.forall_mem_singleton.mpr (by simp)
  | closer => exact List.forall_mem_singleton.mpr (by simp)

theorem Line.kinds_ne_type {line : Line} (h : line.Sound) : ∀ k ∈ line.kinds, k ≠ .word "type" := by
  cases line with
  | label name => exact List.forall_mem_singleton.mpr (by simp)
  | statement s =>
    intro k hk
    obtain ⟨piece, hpiece, hk⟩ := List.mem_flatMap.mp hk
    exact Piece.kinds_ne_type (h piece hpiece) k hk

theorem headerKinds_ne_type (l : Listing) : ∀ k ∈ l.headerKinds, k ≠ .word "type" := by
  have hparams : ∀ ks ∈ l.params.map paramKinds, ∀ k ∈ ks, k ≠ .word "type" := by
    rw [List.forall_mem_map]
    intro p _
    rw [paramKinds, List.forall_mem_append, List.forall_mem_singleton]
    exact ⟨Ty.kinds_ne_type p.2, by simp⟩
  have hlist := forall_listedKinds l.vararg (by simp) (by simp) hparams
  simp only [headerKinds, List.forall_mem_append, List.forall_mem_cons]
  exact ⟨by decide, Ty.kinds_ne_type l.ret, by simp, by simp, hlist, by simp, by simp, by simp⟩

theorem lineMarks_ne_type {lines : List Line} (h : ∀ line ∈ lines, line.Sound) (n : Nat) :
    ∀ m ∈ lineMarks n (lines.map Line.kinds), m.kind ≠ .word "type" := by
  induction lines generalizing n with
  | nil => exact List.forall_mem_singleton.mpr (by simp)
  | cons line rest ih =>
    rw [List.forall_mem_cons] at h
    rw [List.map_cons, lineMarks, List.forall_mem_append, List.forall_mem_map]
    exact ⟨Line.kinds_ne_type h.1, ih h.2 (n + 1)⟩

end Listing

end IrRecords
