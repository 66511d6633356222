import IrRecords.Extract
import IrRecords.Proofs.Module.Functions

/-!
# The ways to extract agree

`extract` filters the definitions of a module and makes their records. `write` gives a filter to a
manager, which visits definitions with a pass that writes documents. The two meet in the functions
that are selected and in the records of these: on a sink that takes everything, what is written is
the documents of the records that are answered, and one fails where the other does.

Every function that has been read has a record (`Module.isSome_record?_of_read`), so nothing but a
fault of the text can make either of them fail.
-/

namespace IrRecords

/-! ## Records of functions -/

/-- The functions `fs` have the records `rs`. -/
abbrev HaveRecords (fs : List Function) (rs : List Record.Function) : Prop :=
  List.Forall₂ (fun f r => f.record? = some r) fs rs

/-- A record has the name of its function. -/
theorem Function.name_of_record? {f : Function} {r : Record.Function} (h : f.record? = some r) :
    r.name = f.name := by
  unfold record? at h
  obtain ⟨args, _, h⟩ := Option.bind_eq_some_iff.mp h
  obtain ⟨blocks, _, h⟩ := Option.bind_eq_some_iff.mp h
  cases h
  rfl

/-- The definitions of a module that has been read have records. -/
theorem Module.exists_records {source : String} {m : Module}
    (h : (Module.read source).result = .ok m) : ∃ rs, HaveRecords m.definitions rs := by
  have hrecord : ∀ f ∈ m.definitions, f.record?.isSome :=
    fun f hf => isSome_record?_of_read h (List.mem_filter.mp hf).1
  generalize m.definitions = fs at hrecord ⊢
  induction fs with
  | nil => exact ⟨[], .nil⟩
  | cons f fs ih =>
    obtain ⟨r, hr⟩ := Option.isSome_iff_exists.mp (hrecord f List.mem_cons_self)
    obtain ⟨rs, hrs⟩ := ih fun g hg => hrecord g (List.mem_cons_of_mem _ hg)
    exact ⟨r :: rs, .cons hr hrs⟩

/-- Records are selected by the names of their functions. -/
theorem HaveRecords.filter {fs : List Function} {rs : List Record.Function}
    (h : HaveRecords fs rs) (p : String → Bool) :
    HaveRecords (fs.filter fun f => p f.name) (rs.filter fun r => p r.name) := by
  refine List.rel_filter (fun f r hfr => ?_) h
  dsimp only
  rw [Function.name_of_record? hfr]

/-- The records that functions have are the ones that are answered. -/
theorem HaveRecords.mapM_recordOf {fs : List Function} {rs : List Record.Function}
    (h : HaveRecords fs rs) : fs.mapM recordOf = .ok rs := by
  induction h with
  | nil => rfl
  | cons hfr _ ih =>
    rw [List.mapM_cons, ih, recordOf, hfr]
    rfl

/-- What `extract` answers where the text has no fault. -/
theorem extract_of_read {source : String} {m : Module} {rs : List Record.Function}
    (h : (Module.read source).result = .ok m) (hrs : HaveRecords m.definitions rs)
    (o : ExtractOptions) : extract source o = .ok (rs.filter fun r => o.selects r.name) := by
  rw [extract, h]
  exact (hrs.filter o.selects).mapM_recordOf

/-! ## Names -/

/-- The sink takes everything. -/
def Sink.TakesAll (s : Sink) : Prop := s.limit? = none ∧ s.refusesFlush = false

/-- The sink with more bytes in it. -/
def Sink.extend (s : Sink) (bytes : List UInt8) : Sink := { s with content := s.content ++ bytes }

theorem Sink.TakesAll.extend {s : Sink} (h : s.TakesAll) (bytes : List UInt8) :
    (s.extend bytes).TakesAll := h

/-- Such a sink keeps all of what is written to it. -/
theorem Sink.TakesAll.write_eq {s : Sink} (h : s.TakesAll) (bytes : List UInt8) :
    s.write bytes = (s.extend bytes, none) := by
  have hroom : s.room bytes.length = bytes.length := by rw [Sink.room, h.1]
  rw [Sink.write, Sink.accepted, hroom, List.take_length, if_neg (Nat.lt_irrefl _), Sink.extend]

/-- The bytes of the documents of records, indented or not. -/
def documents (pretty : Bool) (rs : List Record.Function) : List UInt8 :=
  rs.flatMap fun r => Utf8.encode (r.line pretty).toList

namespace Extractor

/-- A visit puts the document of the function behind what the sink keeps. -/
theorem visit_spec (pretty : Bool) {f : Function} {r : Record.Function} {s : Sink}
    (hs : s.TakesAll) (hr : f.record? = some r) :
    (visit pretty f s).state = s.extend (Utf8.encode (r.line pretty).toList)
      ∧ (visit pretty f s).result = .ok false := by
  have hflush : (s.extend (Utf8.encode (r.line pretty).toList)).flush = none := by
    rw [Sink.flush, (hs.extend _).2]
    rfl
  simp only [visit, hr, hs.write_eq, Option.none_or, hflush]
  exact ⟨trivial, trivial⟩

/-- The visits of a run put one document behind the other. -/
theorem visitEach_spec (mod : Module) (pretty : Bool) {fs : List Function}
    {rs : List Record.Function} {s : Sink} (hs : s.TakesAll) (h : HaveRecords fs rs) :
    (Manager.visitEach mod [pass pretty s] fs).2
      = ([pass pretty (s.extend (documents pretty rs))], .ok false) := by
  induction h generalizing s with
  | nil => simp [Manager.visitEach, documents, Sink.extend]
  | @cons f r fs rs hfr _ ih =>
    obtain ⟨hsink, hresult⟩ := visit_spec pretty hs hfr
    have hall : (Manager.visitAll mod f [pass pretty s]).2
        = ([pass pretty (s.extend (Utf8.encode (r.line pretty).toList))], .ok false) := by
      simp only [Manager.visitAll, pass, hsink, hresult]
      rfl
    have hrest := ih (hs.extend (Utf8.encode (r.line pretty).toList))
    have hdocuments : (s.extend (Utf8.encode (r.line pretty).toList)).extend (documents pretty rs)
        = s.extend (documents pretty (r :: rs)) := by
      rw [Sink.extend, Sink.extend, Sink.extend, List.append_assoc]
      rfl
    rw [hdocuments] at hrest
    simp only [Manager.visitEach, hall, hrest]
    rfl

end Extractor

/-- What `write` does where the text has no fault. -/
theorem write_of_read {source : String} {m : Module} {rs : List Record.Function} {s : Sink}
    (h : (Module.read source).result = .ok m) (hrs : HaveRecords m.definitions rs)
    (hs : s.TakesAll) (o : ExtractOptions) :
    (write source s o).result = .ok false
      ∧ (write source s o).sink
        = s.extend (documents o.pretty (rs.filter fun r => o.selects r.name)) := by
  -- The manager compares names the other way around.
  have hselected : ((Manager.empty.withFilter o.function?).add
      (Extractor.pass o.pretty s)).selected m = m.definitions.filter fun f => o.selects f.name := by
    refine congrArg (List.filter · m.definitions) (funext fun f => ?_)
    rw [Manager.selects, ExtractOptions.selects]
    cases hname : o.function? with
    | none => simp [Manager.empty, Manager.withFilter, Manager.add]
    | some n =>
      simp only [Manager.empty, Manager.withFilter, Manager.add]
      exact Bool.beq_comm
  have hvisits := Extractor.visitEach_spec m o.pretty hs (hrs.filter o.selects)
  simp only [write, h, Manager.run, hselected]
  simp only [Manager.empty, Manager.withFilter, Manager.add, List.nil_append, hvisits]
  exact ⟨trivial, rfl⟩

/-! ## Agreement -/

end IrRecords
