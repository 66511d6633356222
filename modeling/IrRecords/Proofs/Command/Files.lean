import IrRecords.Command.Run
import IrRecords.Proofs.Command.Creation
import IrRecords.Proofs.Extract.Agreement
import IrRecords.Proofs.Text.Quoted

/-!
# What the command does to files

The command is all or nothing. It has four reasons to fail: no such pass, no text to be read, a text
with a fault, no way to create the output. All of them show before the output is created, which is
the one change that it makes to the directory. Behind that point it cannot fail any more: a function
that has been read has a record, and the sink takes everything.

What it creates is what `write` puts on an empty sink for the text that was in the input *before*,
because the text is read as a whole first. That the output may be the input needs no care of its own.
-/

namespace IrRecords.Command

/-! ## The registered pass -/

/-- Whatever is registered builds an extractor. -/
theorem create_of_find? {name : String} {r : Registration} (h : Registration.find? name = some r) :
    r.create = Extractor.pass := by
  have hmem := List.mem_of_find?_eq_some h
  rw [Registration.all, List.mem_singleton] at hmem
  rw [hmem]

/-- The options for `write` that arguments amount to. -/
def Arguments.extractOptions (a : Arguments) : ExtractOptions := ⟨a.function?, a.pretty⟩

/-- A registered pass writes what `write` writes, and does not fail on a module that has been
read. -/
theorem runPass_spec {name source : String} {r : Registration} {m : Module} (a : Arguments)
    (hr : Registration.find? name = some r) (hm : (Module.read source).result = .ok m) :
    (runPass a r m).1.result = .ok false
      ∧ (runPass a r m).2 = (write source .unbounded a.extractOptions).sink.content
      ∧ (write source .unbounded a.extractOptions).result = .ok false := by
  obtain ⟨rs, hrs⟩ := Module.exists_records hm
  have hwrite := write_of_read hm hrs (s := .unbounded) ⟨rfl, rfl⟩ a.extractOptions
  have hresult := hwrite.1
  simp only [write, hm] at hresult
  refine ⟨?_, ?_, hwrite.1⟩
  · rw [runPass, create_of_find? hr]
    cases hrun : (((Manager.empty.withFilter a.function?).add
        (Extractor.pass a.pretty .unbounded)).run m).result with
    | error fault =>
      simp only [Arguments.extractOptions, hrun] at hresult
      cases hresult
    | ok modified =>
      simp only [Arguments.extractOptions, hrun] at hresult
      rw [Except.ok.inj hresult]
  · rw [runPass, create_of_find? hr]
    simp only [write, hm, Arguments.extractOptions]

/-! ## When the command goes through -/

/-- The output can be created, if one is asked for. -/
def Arguments.CanCreate (a : Arguments) (d : Directory) : Prop :=
  ∀ path, a.output? = some path → ∃ t, d.target path = .ok t

/-- What the command needs: a pass of the name, a text that can be read and has no fault, and a
place for the output. -/
structure Ready (a : Arguments) (d : Directory) (source : String) : Prop where
  pass : (Registration.find? (a.pass?.getD Extractor.name)).isSome
  input : ∃ path, a.input? = some path ∧ d.readText path = .ok source
  parsed : ∃ m, (Module.read source).result = .ok m
  output : a.CanCreate d

/-- The file that the command creates for a text. -/
def Arguments.creation (a : Arguments) (source : String) : Option (String × List UInt8) :=
  a.output?.map fun path => (path, (write source .unbounded a.extractOptions).sink.content)

/-- The course went through and created a file, or none if none was to be created. -/
def Course.Succeeds (c : Course) (creation : Option (String × List UInt8)) : Prop :=
  c.result = .ok () ∧ c.created? = creation

/-- The course failed and created nothing. -/
def Course.Fails (c : Course) : Prop := (∃ fault, c.result = .error fault) ∧ c.created? = none

theorem Course.fails_failed (events : List Event) (fault : CommandFault) :
    (Course.failed events fault).Fails := ⟨⟨fault, rfl⟩, rfl⟩

/-- Once the text has been read, all depends on the output. -/
theorem process_spec {name source : String} {r : Registration} {m : Module} (a : Arguments)
    (d : Directory) (hr : Registration.find? name = some r)
    (hm : (Module.read source).result = .ok m) :
    (a.CanCreate d ∧ (process d.access a r m).Succeeds (a.creation source))
      ∨ (¬a.CanCreate d ∧ (process d.access a r m).Fails) := by
  obtain ⟨hrun, hcontent, -⟩ := runPass_spec a hr hm
  unfold process Directory.access Arguments.CanCreate Arguments.creation
  cases houtput : a.output? with
  | none =>
    refine .inl ⟨nofun, ?_⟩
    simp only [hrun]
    exact ⟨rfl, rfl⟩
  | some path =>
    cases htarget : d.target path with
    | error fault =>
      refine .inr ⟨fun h => ?_, ?_⟩
      · obtain ⟨t, ht⟩ := h path rfl
        rw [htarget] at ht
        cases ht
      · simp only [htarget, Except.map]
        exact Course.fails_failed _ _
    | ok t =>
      refine .inl ⟨fun path' h => ⟨t, Option.some.inj h ▸ htarget⟩, ?_⟩
      simp only [htarget, Except.map, hrun, hcontent]
      exact ⟨rfl, rfl⟩

/-- The command goes through if it has what it needs, and fails otherwise. -/
theorem course_spec {a : Arguments} {path : String} (d : Directory) (hpath : a.input? = some path) :
    (∃ source, Ready a d source ∧ (course d.access a path).Succeeds (a.creation source))
      ∨ (¬∃ source, Ready a d source) ∧ (course d.access a path).Fails := by
  -- There is no more than one text that the command can be ready for.
  have hread : ∀ {source}, Ready a d source → d.readText path = .ok source := by
    intro source hready
    obtain ⟨path', hpath', hsource⟩ := hready.input
    rwa [Option.some.inj (hpath.symm.trans hpath')]
  unfold course
  dsimp only
  cases hr : Registration.find? (a.pass?.getD Extractor.name) with
  | none =>
    refine .inr ⟨fun ⟨source, hready⟩ => ?_, Course.fails_failed _ _⟩
    exact absurd hready.pass (by rw [hr]; exact Bool.false_ne_true)
  | some r =>
  change (∃ source, Ready a d source ∧ (load d.access a r path).Succeeds (a.creation source))
      ∨ (¬∃ source, Ready a d source) ∧ (load d.access a r path).Fails
  unfold load
  cases hsource : d.readText path with
  | error fault =>
    simp only [Directory.access, hsource]
    refine .inr ⟨fun ⟨source, hready⟩ => ?_, Course.fails_failed _ _⟩
    cases hsource.symm.trans (hread hready)
  | ok source =>
  simp only [Directory.access, hsource]
  cases hm : (Module.read source).result with
  | error diagnostic =>
    refine .inr ⟨fun ⟨source', hready⟩ => ?_, Course.fails_failed _ _⟩
    obtain ⟨m, hm'⟩ := hready.parsed
    rw [Except.ok.inj ((hread hready).symm.trans hsource), hm] at hm'
    cases hm'
  | ok m =>
  refine (process_spec a d hr hm).imp (fun ⟨houtput, hcourse⟩ => ?_) fun ⟨houtput, hcourse⟩ => ?_
  · exact ⟨source, ⟨by rw [hr]; rfl, ⟨path, hpath, hsource⟩, ⟨m, hm⟩, houtput⟩, hcourse⟩
  · exact ⟨fun ⟨_, hready⟩ => houtput hready.output, hcourse⟩

/-- The command exits with 0 behind a course that went through. -/
theorem Course.Succeeds.report {c : Course} {creation : Option (String × List UInt8)}
    (h : c.Succeeds creation) (a : Arguments) :
    (c.report a).exit = 0 ∧ (c.report a).created? = creation := by
  unfold Course.report
  rw [h.1]
  exact ⟨rfl, h.2⟩

/-- The command exits with 1 behind a course that failed. -/
theorem Course.Fails.report {c : Course} (h : c.Fails) (a : Arguments) :
    (c.report a).exit = 1 ∧ (c.report a).created? = none := by
  obtain ⟨⟨fault, hfault⟩, hcreated⟩ := h
  unfold Course.report
  rw [hfault]
  exact ⟨rfl, hcreated⟩

/-- Arguments that can be understood name an input, unless the passes are to be listed. -/
theorem input_of_parseArguments {arguments : List String} {a : Arguments}
    (h : parseArguments arguments = some a) (hlist : a.listPasses = false) :
    ∃ path, a.input? = some path := by
  unfold parseArguments at h
  split at h
  · cases h
  split at h
  · cases h
  case isFalse hinput =>
  cases h
  rw [hlist, Bool.not_false, Bool.and_true, Option.isNone_iff_eq_none] at hinput
  exact Option.ne_none_iff_exists'.mp hinput

/-! ## What is left in the directory -/

/-- The directory behind the creation of a file, if there is one. -/
def Directory.behind (d : Directory) : Option (String × List UInt8) → Directory
  | none => d
  | some (path, bytes) => d.write path bytes

/-- The output holds what has been written, unless it is the null device, and everything else is as
it was. -/
theorem behind_creation_spec {a : Arguments} {d : Directory} (h : a.CanCreate d) (source : String) :
    (∀ names, (∀ path, a.output? = some path → d.target path ≠ .ok (.file names)) →
        (d.behind (a.creation source)).node names = d.node names)
      ∧ ∀ path, a.output? = some path → path ≠ nullDevice →
        (d.behind (a.creation source)).readBytes path
          = .ok (write source .unbounded a.extractOptions).sink.content := by
  unfold Arguments.creation
  cases houtput : a.output? with
  | none => exact ⟨fun _ _ => rfl, nofun⟩
  | some path =>
    rw [Option.map_some, Directory.behind]
    obtain ⟨t, htarget⟩ := h path houtput
    cases t with
    | nowhere =>
      rw [Directory.write, htarget]
      refine ⟨fun _ _ => rfl, fun path' h hne => ?_⟩
      cases h
      exact absurd (Directory.target_eq_nowhere htarget) hne
    | file names =>
      obtain ⟨hthere, helse⟩ := Directory.write_spec
        (write source .unbounded a.extractOptions).sink.content htarget
      refine ⟨fun other hother => helse other fun h => ?_, fun path' h _ => ?_⟩
      · exact hother path rfl (h ▸ htarget)
      · cases h
        exact hthere

/-- The three ways in which the command can end, once its arguments are understood. -/
theorem run_cases {arguments : List String} {a : Arguments} (ha : parseArguments arguments = some a)
    (d : Directory) :
    (a.listPasses = true ∧ (run arguments d).exit = 0 ∧ (run arguments d).directory = d)
      ∨ (a.listPasses = false ∧ (¬∃ source, Ready a d source) ∧ (run arguments d).exit = 1
        ∧ (run arguments d).directory = d)
      ∨ (a.listPasses = false ∧ (run arguments d).exit = 0 ∧ ∃ source, Ready a d source
        ∧ (run arguments d).directory = d.behind (a.creation source)) := by
  have hdirectory : (run arguments d).directory = d.behind (report d.access arguments).created? := rfl
  have hexit : (run arguments d).exit = (report d.access arguments).exit := rfl
  rw [hdirectory, hexit]
  simp only [report, ha]
  cases hlist : a.listPasses with
  | true => exact .inl ⟨rfl, rfl, rfl⟩
  | false =>
    obtain ⟨path, hpath⟩ := input_of_parseArguments ha hlist
    simp only [hpath, Bool.false_eq_true, if_false]
    rcases course_spec d hpath with ⟨source, hready, hcourse⟩ | ⟨hready, hcourse⟩
    · obtain ⟨hexit, hcreated⟩ := hcourse.report a
      exact .inr (.inr ⟨trivial, hexit, source, hready, by rw [hcreated]⟩)
    · obtain ⟨hexit, hcreated⟩ := hcourse.report a
      exact .inr (.inl ⟨trivial, hready, hexit, by rw [hcreated]; rfl⟩)

/-- What the command leaves behind of a directory, all or nothing. -/
structure AllOrNothing (a : Arguments) (d : Directory) (o : Outcome) : Prop where
  /-- It exits with 0 or with 1, and with 0 just when it has what it needs. -/
  exit : o.exit = 0 ∧ (a.listPasses = true ∨ ∃ source, Ready a d source)
    ∨ o.exit = 1 ∧ ¬(a.listPasses = true ∨ ∃ source, Ready a d source)
  /-- A command that fails changes nothing, and neither does one that lists the passes. -/
  nothing : o.exit = 1 ∨ a.listPasses = true → o.directory = d
  /-- What does not stand where the output goes is as it was. -/
  elsewhere : ∀ names, (∀ path, a.output? = some path → d.target path ≠ .ok (.file names)) →
    o.directory.node names = d.node names
  /-- The output holds what is written for the text that was in the input. The null device keeps
  nothing. -/
  all : o.exit = 0 → a.listPasses = false → ∃ source, Ready a d source
    ∧ (write source .unbounded ⟨a.function?, a.pretty⟩).result = .ok false
    ∧ ∀ path, a.output? = some path → path ≠ nullDevice → o.directory.readBytes path
      = .ok (write source .unbounded ⟨a.function?, a.pretty⟩).sink.content

/-- **The command is all or nothing on files**, whatever its arguments and whatever is in the
directory. -/
theorem allOrNothing_of_run {arguments : List String} {a : Arguments}
    (ha : parseArguments arguments = some a) (d : Directory) :
    AllOrNothing a d (run arguments d) := by
  rcases run_cases ha d with ⟨hlist, hexit, hsame⟩ | ⟨hlist, hready, hexit, hsame⟩
    | ⟨hlist, hexit, source, hready, hleft⟩
  case inl =>
    exact {
      exit := .inl ⟨hexit, .inl hlist⟩
      nothing := fun _ => hsame
      elsewhere := fun _ _ => by rw [hsame]
      all := fun _ h => by rw [hlist] at h; cases h }
  case inr.inl =>
    exact {
      exit := .inr ⟨hexit, by simpa [hlist] using hready⟩
      nothing := fun _ => hsame
      elsewhere := fun _ _ => by rw [hsame]
      all := fun h => by rw [hexit] at h; cases h }
  case inr.inr =>
    obtain ⟨m, hm⟩ := hready.parsed
    obtain ⟨r, hr⟩ := Option.isSome_iff_exists.mp hready.pass
    obtain ⟨-, -, hresult⟩ := runPass_spec a hr hm
    obtain ⟨helsewhere, hthere⟩ := behind_creation_spec hready.output source
    rw [← hleft] at helsewhere hthere
    exact {
      exit := .inl ⟨hexit, .inr ⟨source, hready⟩⟩
      nothing := fun h => by rw [hexit, hlist] at h; cases h <;> contradiction
      elsewhere := helsewhere
      all := fun _ _ => ⟨source, hready, hresult, hthere⟩ }

/-- A source text with one function. -/
def echoSource : String := "define i8 @echo(i8 %x) \x7b\n  ret i8 %x\n\x7d\n"

/-- The output may be the input: behind the command it holds the documents of the text that was
in it before, and the file beside it is untouched. -/
theorem allOrNothing_of_run_onto : ∃ d o,
    d = Directory.ofFiles
      [("echo.ll", Utf8.encode echoSource.toList), ("notes", [104, 105])]
      ∧ o = run ["echo.ll", "--output=echo.ll", "--pretty"] d
      ∧ o.exit = 0 ∧ o.directory.node ["notes"] = .file [104, 105]
      ∧ o.directory.readBytes "echo.ll"
        = .ok (write echoSource .unbounded ⟨none, true⟩).sink.content := by
  -- What is at the two paths does not depend on the bytes.
  have hfiles : ∀ bytes, ∃ d, d = Directory.ofFiles [("echo.ll", bytes), ("notes", [104, 105])]
      ∧ d.target "echo.ll" = .ok (.file ["echo.ll"]) ∧ d.readBytes "echo.ll" = .ok bytes
      ∧ d.node ["notes"] = .file [104, 105] := fun _ => ⟨_, rfl, rfl, rfl, rfl⟩
  obtain ⟨d, hd, htarget, hbytes, hnotes⟩ := hfiles (Utf8.encode echoSource.toList)
  obtain ⟨a, ha, hinput, houtput, hlist, hpass, hoptions⟩ : ∃ a,
      parseArguments ["echo.ll", "--output=echo.ll", "--pretty"] = some a
        ∧ a.input? = some "echo.ll" ∧ a.output? = some "echo.ll" ∧ a.listPasses = false
        ∧ (Registration.find? (a.pass?.getD Extractor.name)).isSome
        ∧ (⟨a.function?, a.pretty⟩ : ExtractOptions) = ⟨none, true⟩ :=
    ⟨⟨some "echo.ll", some "echo.ll", none, true, none, false, 0⟩, by decide +kernel, rfl, rfl,
      rfl, by decide, rfl⟩
  have hread : d.readText "echo.ll" = .ok echoSource := by
    rw [Directory.readText, hbytes]
    simp only [Utf8.decode?_encode, String.ofList_toList]
  have hparsed : ∃ m, (Module.read echoSource).result = .ok m := by
    have hsome : (Module.read echoSource).result.toOption.isSome := by decide +kernel
    cases hm : (Module.read echoSource).result with
    | error e => rw [hm] at hsome; cases hsome
    | ok m => exact ⟨m, rfl⟩
  have hall := allOrNothing_of_run ha d
  have hexit : (run ["echo.ll", "--output=echo.ll", "--pretty"] d).exit = 0 := by
    refine hall.exit.elim And.left fun hnot => absurd (.inr ⟨echoSource, ?_⟩) hnot.2
    exact ⟨hpass, ⟨_, hinput, hread⟩, hparsed, fun path h =>
      ⟨_, Option.some.inj (houtput.symm.trans h) ▸ htarget⟩⟩
  obtain ⟨source, hready, -, hthere⟩ := hall.all hexit hlist
  have hsource : source = echoSource := by
    obtain ⟨path, hpath, hsource⟩ := hready.input
    rw [← Option.some.inj (hinput.symm.trans hpath)] at hsource
    exact Except.ok.inj (hsource.symm.trans hread)
  rw [hoptions, hsource] at hthere
  refine ⟨d, _, hd, rfl, hexit, ?_, hthere _ houtput (by decide)⟩
  rw [hall.elsewhere ["notes"] fun path h => ?_]
  · exact hnotes
  · rw [← Option.some.inj (houtput.symm.trans h), htarget]
    decide

end IrRecords.Command
