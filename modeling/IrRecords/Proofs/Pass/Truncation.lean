import IrRecords.Pass.Extractor
import IrRecords.Proofs.Module.Functions
import IrRecords.Proofs.Pass.Calls
import Mathlib.Logic.Basic

/-!
# Sinks that fail

A sink with a limit keeps the bytes in front of the limit and fails at the first one behind it, and
a sink may refuse to flush. Documents are written in chunks, of which some may fit and the next one
in part, and the passes of a manager take turns, function by function. All the same a run leaves
each sink with the documents that were attempted on it, one behind the other, cut at its limit:
writing chunk by chunk until one does not fit keeps what writing all of them at once keeps
(`Sink.writeAll_eq`), and the run ends at the first document that fails. So it does not matter how
documents are cut, and an extractor that writes them in one chunk is a case of what is shown here
(`Writer.pass_whole`).

The functions that a pass has visited are known from where the run stands, so the sinks are as well
(`Writer.behind`), and so is the document that fails (`Writer.fault?`). `run_outcome` says that a
run does just this.
-/

namespace IrRecords

/-! ## Sinks -/

namespace Sink

variable {s : Sink} {bytes : List UInt8}

/-- The bytes fit behind those that the sink keeps. -/
def Fits (s : Sink) (bytes : List UInt8) : Prop :=
  ∀ limit, s.limit? = some limit → bytes.length ≤ limit - s.content.length

/-- Those of the bytes that are in front of the limit. -/
def cut (s : Sink) (bytes : List UInt8) : List UInt8 :=
  match s.limit? with
  | none => bytes
  | some limit => bytes.take (limit - s.content.length)

/-- The sink with more bytes in it, cut at its limit. -/
def filled (s : Sink) (bytes : List UInt8) : Sink := { s with content := s.content ++ s.cut bytes }

@[simp] theorem filled_limit? (s : Sink) (bytes : List UInt8) :
    (s.filled bytes).limit? = s.limit? := rfl

@[simp] theorem filled_refusesFlush (s : Sink) (bytes : List UInt8) :
    (s.filled bytes).refusesFlush = s.refusesFlush := rfl

theorem fits_of_none (h : s.limit? = none) (bytes : List UInt8) : s.Fits bytes := by
  intro limit hlimit
  rw [h] at hlimit
  cases hlimit

theorem fits_iff_of_some {limit : Nat} (h : s.limit? = some limit) :
    s.Fits bytes ↔ bytes.length ≤ limit - s.content.length := by
  rw [Fits, h]
  exact ⟨fun hfits => hfits limit rfl, fun hfits _ hlimit => Option.some.inj hlimit ▸ hfits⟩

theorem cut_of_some {limit : Nat} (h : s.limit? = some limit) (bytes : List UInt8) :
    s.cut bytes = bytes.take (limit - s.content.length) := by rw [cut, h]

theorem fits_nil (s : Sink) : s.Fits [] := fun _ _ => Nat.zero_le _

/-- Bytes that fit are all kept. -/
theorem Fits.cut_eq (h : s.Fits bytes) : s.cut bytes = bytes := by
  cases hlimit : s.limit? with
  | none => rw [cut, hlimit]
  | some limit => rw [cut_of_some hlimit, List.take_of_length_le (h limit hlimit)]

theorem filled_nil (s : Sink) : s.filled [] = s := by
  rw [filled, s.fits_nil.cut_eq, List.append_nil]

instance (s : Sink) (bytes : List UInt8) : Decidable (s.Fits bytes) :=
  match h : s.limit? with
  | none => isTrue (fits_of_none h bytes)
  | some _ => decidable_of_iff _ (fits_iff_of_some h).symm

theorem room_lt_iff : s.room bytes.length < bytes.length ↔ ¬ s.Fits bytes := by
  cases hlimit : s.limit? with
  | none =>
    rw [room, hlimit]
    exact iff_of_false (Nat.lt_irrefl _) (not_not_intro (fits_of_none hlimit bytes))
  | some limit =>
    rw [fits_iff_of_some hlimit, room, hlimit]
    dsimp only
    omega

/-- What writing does. -/
theorem write_eq (s : Sink) (bytes : List UInt8) :
    s.write bytes = (s.filled bytes, if s.Fits bytes then none else some .closed) := by
  have haccepted : s.accepted bytes = s.cut bytes := by
    rw [accepted, room, cut]
    cases s.limit? with
    | none => exact List.take_length
    | some limit =>
      dsimp only
      rw [Nat.min_comm, ← List.take_take, List.take_length]
  rw [write, haccepted, ← filled]
  by_cases h : s.Fits bytes
  · rw [if_neg (mt room_lt_iff.mp (not_not_intro h)), if_pos h]
  · rw [if_pos (room_lt_iff.mpr h), if_neg h]

/-- What comes behind bytes that do not fit is lost. -/
theorem filled_append_of_not_fits (h : ¬ s.Fits bytes) (more : List UInt8) :
    s.filled (bytes ++ more) = s.filled bytes := by
  cases hlimit : s.limit? with
  | none => exact absurd (fits_of_none hlimit bytes) h
  | some limit =>
    rw [fits_iff_of_some hlimit] at h
    rw [filled, filled, cut_of_some hlimit, cut_of_some hlimit,
      List.take_append_of_le_length (Nat.le_of_not_le h)]

/-- What comes behind bytes that fit is put behind them. -/
theorem Fits.filled_filled (h : s.Fits bytes) (more : List UInt8) :
    (s.filled bytes).filled more = s.filled (bytes ++ more) := by
  have hcut : s.cut (bytes ++ more) = bytes ++ (s.filled bytes).cut more := by
    cases hlimit : s.limit? with
    | none => rw [cut, cut, filled_limit?, hlimit]
    | some limit =>
      have hfilled : (s.filled bytes).limit? = some limit := hlimit
      rw [cut_of_some hlimit, cut_of_some hfilled, List.take_append,
        List.take_of_length_le (h limit hlimit), filled, h.cut_eq, List.length_append,
        Nat.sub_add_eq]
  have hcontent : (s.filled bytes).content = s.content ++ bytes := by rw [filled, h.cut_eq]
  calc (s.filled bytes).filled more
      = { s with content := s.content ++ bytes ++ (s.filled bytes).cut more } := by
        rw [← hcontent]
        rfl
    _ = s.filled (bytes ++ more) := by
        rw [List.append_assoc, ← hcut]
        rfl

theorem fits_append {more : List UInt8} :
    s.Fits (bytes ++ more) ↔ s.Fits bytes ∧ (s.filled bytes).Fits more := by
  cases hlimit : s.limit? with
  | none =>
    have hfilled : (s.filled bytes).limit? = none := hlimit
    exact iff_of_true (fits_of_none hlimit _) ⟨fits_of_none hlimit _, fits_of_none hfilled _⟩
  | some limit =>
    have hfilled : (s.filled bytes).limit? = some limit := hlimit
    rw [fits_iff_of_some hlimit, fits_iff_of_some hlimit, fits_iff_of_some hfilled, filled,
      cut_of_some hlimit, List.length_append, List.length_append, List.length_take]
    omega

/-! ### Chunks -/

/-- Writes chunks one after the other until one does not fit. Answers the bytes that are kept of
each chunk, the sink behind them, and the fault if there is one. -/
def writeAll (s : Sink) : List (List UInt8) → List (List UInt8) × Sink × Option SinkFault
  | [] => ([], s, none)
  | chunk :: rest =>
    match s.write chunk with
    | (after, some fault) => ([s.accepted chunk], after, some fault)
    | (after, none) =>
      let (kept, after, fault?) := after.writeAll rest
      (s.accepted chunk :: kept, after, fault?)

/-- **Chunks are written like all of their bytes at once.** -/
theorem writeAll_eq (s : Sink) (chunks : List (List UInt8)) :
    (s.writeAll chunks).2 = s.write chunks.flatten := by
  induction chunks generalizing s with
  | nil =>
    rw [List.flatten_nil, write_eq, filled_nil, if_pos s.fits_nil]
    rfl
  | cons chunk rest ih =>
    rw [List.flatten_cons, write_eq]
    by_cases h : s.Fits chunk
    · -- The rest goes to the sink behind the chunk.
      have hchunk : s.write chunk = (s.filled chunk, none) := by rw [write_eq, if_pos h]
      have hrest := ih (s.filled chunk)
      rw [write_eq, h.filled_filled] at hrest
      simp only [writeAll, hchunk, hrest, fits_append, h, true_and]
    · have hchunk : s.write chunk = (s.filled chunk, some .closed) := by rw [write_eq, if_neg h]
      have hmore : ¬ s.Fits (chunk ++ rest.flatten) := fun hfits => h (fits_append.mp hfits).1
      rw [filled_append_of_not_fits h, if_neg hmore]
      simp only [writeAll, hchunk]

end Sink

/-! ## Visits that write in chunks -/

/-- A way to cut texts into chunks. -/
structure Cutting where
  chunks : List UInt8 → List (List UInt8)
  /-- The chunks of a text are all of it, in its order. -/
  flatten_chunks : ∀ bytes, (chunks bytes).flatten = bytes

/-- All in one chunk. -/
def Cutting.whole : Cutting := ⟨fun bytes => [bytes], fun _ => List.append_nil _⟩

namespace Extractor

/-- Writes the document of a function in chunks, up to the first that does not fit. -/
def visitIn (cutting : Cutting) (pretty : Bool) (f : Function) (sink : Sink) : Visit Sink :=
  match f.record? with
  | none => ⟨[], sink, .error (.dangling f.name)⟩
  | some record =>
    let (kept, sink, fault?) :=
      sink.writeAll (cutting.chunks (Utf8.encode (record.line pretty).toList))
    let before := f.encodingLog.map .told ++ kept.map .wrote
    match fault?.or sink.flush with
    | some fault => ⟨before, sink, .error (.unwritable f.name fault)⟩
    | none => ⟨before ++ [.told (extracted f.name record.blocks.length)], sink, .ok false⟩

/-- The extractor as it is writes its documents in one chunk. -/
theorem visitIn_whole : visitIn .whole = visit := by
  funext pretty f sink
  unfold visitIn visit
  cases f.record? with
  | none => rfl
  | some record =>
    dsimp only [Cutting.whole, Sink.writeAll]
    cases h : sink.write (Utf8.encode (record.line pretty).toList) with
    | mk after fault? =>
      cases fault? with
      | none => rfl
      | some fault => rfl

end Extractor

/-- An extractor among the passes of a manager: how it cuts its documents, whether it indents them,
and the sink that it starts with. -/
structure Writer where
  cutting : Cutting
  pretty : Bool
  sink : Sink

namespace Writer

/-- The pass, with its first sink. -/
def pass (w : Writer) : Pass Sink :=
  ⟨Extractor.name, w.sink, fun _ => Extractor.visitIn w.cutting w.pretty⟩

theorem pass_whole (pretty : Bool) (sink : Sink) :
    pass ⟨.whole, pretty, sink⟩ = Extractor.pass pretty sink := by
  rw [pass, Extractor.visitIn_whole]
  rfl

/-- What the pass would append to a sink without a limit when it visits `f`. -/
def document (w : Writer) (f : Function) : List UInt8 :=
  match f.record? with
  | none => []
  | some record => Utf8.encode (record.line w.pretty).toList

/-- The same for the functions `fs`, one after the other. -/
def documents (w : Writer) (fs : List Function) : List UInt8 := fs.flatMap w.document

/-- The pass behind visits of the functions `fs`, if none but the last has failed. -/
def behind (w : Writer) (fs : List Function) : Pass Sink :=
  { w.pass with state := w.sink.filled (w.documents fs) }

/-- The fault of the visit of `f` behind visits of the functions `done` that did not fail. -/
def fault? (w : Writer) (done : List Function) (f : Function) : Option PassFault :=
  if f.record?.isNone then some (.dangling f.name)
  else if ¬ w.sink.Fits (w.documents (done ++ [f])) then some (.unwritable f.name .closed)
  else if w.sink.refusesFlush then some (.unwritable f.name .flushRefused)
  else none

variable {w : Writer} {done : List Function} {f : Function}

theorem fault?_eq_none_iff : w.fault? done f = none ↔ f.record?.isSome
    ∧ w.sink.Fits (w.documents (done ++ [f])) ∧ w.sink.refusesFlush = false := by
  unfold fault?
  cases f.record? with
  | none => simp
  | some record =>
    by_cases hfits : w.sink.Fits (w.documents (done ++ [f]))
    · simp [hfits]
    · simp [hfits]

theorem documents_concat (w : Writer) (done : List Function) (f : Function) :
    w.documents (done ++ [f]) = w.documents done ++ w.document f := by
  rw [documents, List.flatMap_append, List.flatMap_singleton]
  rfl

/-- **A visit writes as much of the document as fits**, and fails if this is not all of it or if the
sink does not flush. -/
theorem visit_behind (hdone : w.sink.Fits (w.documents done)) (mod : Module) (f : Function) :
    ((w.behind done).visit mod f (w.behind done).state).state = (w.behind (done ++ [f])).state
      ∧ ((w.behind done).visit mod f (w.behind done).state).result
        = match w.fault? done f with
          | none => .ok false
          | some e => .error e := by
  have hstate : (w.behind (done ++ [f])).state
      = (w.sink.filled (w.documents done)).filled (w.document f) := by
    rw [hdone.filled_filled, ← documents_concat]
    rfl
  have hfits : w.sink.Fits (w.documents (done ++ [f]))
      ↔ (w.sink.filled (w.documents done)).Fits (w.document f) := by
    rw [documents_concat, Sink.fits_append, and_iff_right hdone]
  rw [hstate, fault?]
  simp only [hfits]
  change (Extractor.visitIn w.cutting w.pretty f (w.sink.filled (w.documents done))).state = _
    ∧ (Extractor.visitIn w.cutting w.pretty f (w.sink.filled (w.documents done))).result = _
  have hrefuses : w.sink.refusesFlush = (w.sink.filled (w.documents done)).refusesFlush := rfl
  rw [hrefuses]
  -- From here on the sink counts only by what it holds.
  generalize w.sink.filled (w.documents done) = s
  cases hrecord : f.record? with
  | none =>
    have hdocument : w.document f = [] := by rw [document, hrecord]
    rw [hdocument, Sink.filled_nil]
    simp [Extractor.visitIn, hrecord]
  | some record =>
    have hdocument : w.document f = Utf8.encode (record.line w.pretty).toList := by
      rw [document, hrecord]
    have hwrite := s.writeAll_eq (w.cutting.chunks (Utf8.encode (record.line w.pretty).toList))
    rw [w.cutting.flatten_chunks, ← hdocument, Sink.write_eq] at hwrite
    simp only [Extractor.visitIn, hrecord, ← hdocument, hwrite]
    by_cases hfit : s.Fits (w.document f)
    · cases hflush : s.refusesFlush with
      | true => simp [hfit, hflush, Sink.flush]
      | false => simp [hfit, hflush, Sink.flush]
    · simp [hfit]

end Writer

/-! ## Runs -/

/-- No visit of the functions `fs` by the passes `ws` fails. -/
def Writer.NoneFails (ws : List Writer) (fs : List Function) : Prop :=
  ∀ done f later, fs = done ++ f :: later → ∀ w ∈ ws, w.fault? done f = none

/-- What comes of the visits of the functions `fs` by the passes `ws`, function by function and in
the order of the passes: the result and the passes behind the visits. -/
inductive Outcome (ws : List Writer) (fs : List Function) :
    Except PassFault Bool → List (Pass Sink) → Prop
  /-- Nothing fails. -/
  | finished (h : Writer.NoneFails ws fs) : Outcome ws fs (.ok false) (ws.map (·.behind fs))
  /-- The visit of `f` by `w` is the first that fails. -/
  | stopped {done later : List Function} {f : Function} {before after : List Writer} {w : Writer}
      {e : PassFault} (hfs : fs = done ++ f :: later) (hws : ws = before ++ w :: after)
      (hdone : Writer.NoneFails ws done) (hbefore : ∀ v ∈ before, v.fault? done f = none)
      (hfault : w.fault? done f = some e) :
      Outcome ws fs (.error e) (before.map (·.behind (done ++ [f]))
        ++ w.behind (done ++ [f]) :: after.map (·.behind done))

namespace Writer

theorem NoneFails.concat {ws : List Writer} {done : List Function} {f : Function}
    (hdone : NoneFails ws done) (hf : ∀ w ∈ ws, w.fault? done f = none) :
    NoneFails ws (done ++ [f]) := by
  intro done' g later heq
  rcases List.eq_nil_or_concat later with rfl | ⟨later, h, rfl⟩
  · obtain ⟨rfl, hg⟩ := List.append_inj' heq rfl
    cases hg
    exact hf
  · rw [List.concat_eq_append, ← List.cons_append, ← List.append_assoc] at heq
    obtain ⟨hsame, _⟩ := List.append_inj' heq rfl
    exact hdone done' g later hsame

/-- What does not fail fits. -/
theorem NoneFails.fits {ws : List Writer} {fs : List Function} (h : NoneFails ws fs) {w : Writer}
    (hw : w ∈ ws) : w.sink.Fits (w.documents fs) := by
  rcases List.eq_nil_or_concat fs with rfl | ⟨done, f, rfl⟩
  · exact w.sink.fits_nil
  · rw [List.concat_eq_append] at h ⊢
    exact (fault?_eq_none_iff.mp (h done f [] rfl w hw)).2.1

/-- The visits of one function. The induction is on the passes. -/
theorem visitAll_behind (mod : Module) (f : Function) {done : List Function} {ws : List Writer}
    (hfits : ∀ w ∈ ws, w.sink.Fits (w.documents done)) :
    (∀ w ∈ ws, w.fault? done f = none)
        ∧ (Manager.visitAll mod f (ws.map (·.behind done))).2
          = (ws.map (·.behind (done ++ [f])), .ok false)
      ∨ ∃ before w after e, ws = before ++ w :: after ∧ (∀ v ∈ before, v.fault? done f = none)
        ∧ w.fault? done f = some e
        ∧ (Manager.visitAll mod f (ws.map (·.behind done))).2
          = (before.map (·.behind (done ++ [f])) ++ w.behind (done ++ [f])
              :: after.map (·.behind done), .error e) := by
  induction ws with
  | nil => exact .inl ⟨by simp, rfl⟩
  | cons w ws ih =>
    obtain ⟨hw, hws⟩ := List.forall_mem_cons.mp hfits
    obtain ⟨hstate, hresult⟩ := visit_behind hw mod f
    have hpass : ({ w.behind done with
        state := ((w.behind done).visit mod f (w.behind done).state).state } : Pass Sink)
          = w.behind (done ++ [f]) := by
      rw [hstate]
      rfl
    rw [List.map_cons]
    cases hfault : w.fault? done f with
    | some e =>
      rw [hfault] at hresult
      -- The first writer that fails stops the row: those behind it are as they were.
      refine .inr ⟨[], w, ws, e, rfl, by simp, hfault, ?_⟩
      simp only [Manager.visitAll, hresult, hpass]
      rfl
    | none =>
      rw [hfault] at hresult
      rcases ih hws with ⟨hnone, hall⟩ | ⟨before, v, after, e, rfl, hbefore, hv, hall⟩
      · refine .inl ⟨List.forall_mem_cons.mpr ⟨hfault, hnone⟩, ?_⟩
        simp only [Manager.visitAll, hresult, hpass, hall]
        rfl
      · have hnone : ∀ v ∈ w :: before, v.fault? done f = none :=
          List.forall_mem_cons.mpr ⟨hfault, hbefore⟩
        refine .inr ⟨w :: before, v, after, e, rfl, hnone, hv, ?_⟩
        simp only [Manager.visitAll, hresult, hpass, hall]
        rfl

/-- The visits of functions behind those of `done`. The induction is on the functions, and `done`
grows by each of them. -/
theorem visitEach_behind (mod : Module) {ws : List Writer} {done : List Function}
    (hdone : NoneFails ws done) (fs : List Function) :
    Outcome ws (done ++ fs) (Manager.visitEach mod (ws.map (·.behind done)) fs).2.2
      (Manager.visitEach mod (ws.map (·.behind done)) fs).2.1 := by
  induction fs generalizing done with
  | nil =>
    rw [List.append_nil]
    exact .finished hdone
  | cons f fs ih =>
    rcases visitAll_behind mod f (fun w hw => hdone.fits hw) with
      ⟨hnone, hall⟩ | ⟨before, w, after, e, hws, hbefore, hw, hall⟩
    · have hrest := ih (hdone.concat hnone)
      rw [List.append_assoc, List.singleton_append] at hrest
      have hsame : ∀ r : Except PassFault Bool, r.map (false || ·) = r := fun r => by
        cases r <;> rfl
      simp only [Manager.visitEach, hall, hsame]
      exact hrest
    · simp only [Manager.visitEach, hall]
      exact .stopped rfl hws hdone hbefore hw

/-- Nothing fails where all documents fit and, if there are functions at all, every sink flushes.
A function without a record would be a fault of every pass. -/
theorem noneFails_iff {ws : List Writer} {fs : List Function} : NoneFails ws fs
    ↔ (∀ w ∈ ws, w.sink.Fits (w.documents fs))
      ∧ (fs ≠ [] → ∀ w ∈ ws, w.sink.refusesFlush = false)
      ∧ (ws ≠ [] → ∀ f ∈ fs, f.record?.isSome) := by
  constructor
  · intro h
    refine ⟨fun w hw => h.fits hw, fun hfs w hw => ?_, fun hws f hf => ?_⟩
    · obtain ⟨f, later, rfl⟩ := List.exists_cons_of_ne_nil hfs
      exact (fault?_eq_none_iff.mp (h [] f later rfl w hw)).2.2
    · obtain ⟨done, later, rfl⟩ := List.append_of_mem hf
      obtain ⟨w, ws, rfl⟩ := List.exists_cons_of_ne_nil hws
      exact (fault?_eq_none_iff.mp (h done f later rfl w List.mem_cons_self)).1
  · rintro ⟨hfits, hflush, hrecord⟩ done f later rfl w hw
    refine fault?_eq_none_iff.mpr ⟨?_, ?_, hflush (by simp) w hw⟩
    · exact hrecord (List.ne_nil_of_mem hw) f (by simp)
    · have hall := hfits w hw
      rw [List.append_cons, documents, List.flatMap_append, Sink.fits_append] at hall
      exact hall.1

end Writer

/-- A run does not fail exactly where no visit does. -/
theorem Outcome.eq_ok_iff {ws : List Writer} {fs : List Function} {r : Except PassFault Bool}
    {ps : List (Pass Sink)} (h : Outcome ws fs r ps) : r = .ok false ↔ Writer.NoneFails ws fs := by
  cases h with
  | finished h => exact iff_of_true rfl h
  | @stopped done later f before after w e hfs hws _ _ hfault =>
    refine iff_of_false (fun h => by cases h) fun h => ?_
    have hw : w ∈ ws := by rw [hws]; simp
    rw [h done f later hfs w hw] at hfault
    cases hfault

/-- **Runs on sinks that may fail.** Whatever the filter, the extractors, their sinks and their ways
to cut documents into chunks, a run on a module visits the selected definitions, each with all of
the passes, up to the first visit that fails. It leaves each sink with the documents of the
functions that its pass has visited, cut at the limit of the sink, and answers the fault of the last
visit. It does not fail exactly if all documents fit, every sink flushes that is asked to, and every
function that is visited has a record. The last is so in every module that has been read, so that
nothing but a sink can stop a run on it. -/
theorem run_outcome (filter? : Option String) (ws : List Writer) (mod : Module) :
    let m : Manager Sink := ⟨filter?, ws.map Writer.pass⟩
    Outcome ws (m.selected mod) (m.run mod).result (m.run mod).manager.passes
      ∧ ((m.run mod).result = .ok false ↔
        (∀ w ∈ ws, w.sink.Fits (w.documents (m.selected mod)))
          ∧ (m.selected mod ≠ [] → ∀ w ∈ ws, w.sink.refusesFlush = false)
          ∧ (ws ≠ [] → ∀ f ∈ m.selected mod, f.record?.isSome))
      ∧ ∀ source, (Module.read source).result = .ok mod →
        ∀ f ∈ mod.functions, f.record?.isSome := by
  intro m
  have hstart : ws.map (·.behind []) = m.passes := by
    refine List.map_congr_left fun w _ => ?_
    rw [Writer.behind, Writer.documents, List.flatMap_nil, Sink.filled_nil]
    rfl
  have hnone : Writer.NoneFails ws [] := by
    intro done f later h
    simp at h
  have houtcome := Writer.visitEach_behind mod hnone (m.selected mod)
  rw [hstart, List.nil_append] at houtcome
  rw [m.run_eq]
  exact ⟨houtcome, houtcome.eq_ok_iff.trans Writer.noneFails_iff,
    fun source hread f hf => Module.isSome_record?_of_read hread hf⟩

end IrRecords
