import IrRecords.Command.Directory

/-!
# Creating a file in a directory

To put a file into a directory changes what stands at its own row of names and nothing else. The
second half needs a reason: folders exist as far as some file is below them, so a new file could
bring new folders about. It does not, because the folder that the file is put into has been found by
a walk, and a walk only comes to folders that exist (`Directory.Has`).

For the same reason the path still leads to the file once it is there: the walk to its folder passes
folders only, and none of these is the file.
-/

namespace IrRecords.Command.Directory

variable {d : Directory}

/-! ## Replacing the bytes at a row of names -/

/-- A file is at a row of names if its bytes can be looked up there. -/
private theorem any_eq_isSome_lookup (files : List (List String × List UInt8))
    (names : List String) : files.any (·.1 == names) = (files.lookup names).isSome := by
  induction files with
  | nil => rfl
  | cons file files ih =>
    rw [List.any_cons, List.lookup_cons, ih, Bool.beq_comm]
    cases h : names == file.1 <;> simp

/-- A row of files, once those at `names` hold `bytes`. -/
private theorem lookup_replace (files : List (List String × List UInt8)) (names : List String)
    (bytes : List UInt8) (other : List String) :
    (files.map fun file => if file.1 == names then (names, bytes) else file).lookup other
      = if other = names then (files.lookup names).map fun _ => bytes
        else files.lookup other := by
  induction files with
  | nil => simp
  | cons file files ih =>
    obtain ⟨path, old⟩ := file
    simp only [List.map_cons, beq_iff_eq] at ih ⊢
    by_cases hpath : path = names
    · subst hpath
      by_cases hother : other = path
      · simp [hother]
      · simp [List.lookup_cons, hother, ih, beq_eq_false_iff_ne.mpr hother]
    · by_cases hother : other = names
      · subst hother
        simp [List.lookup_cons, hpath, ih, beq_eq_false_iff_ne.mpr (Ne.symm hpath)]
      · simp [List.lookup_cons, hpath, hother, ih]

/-- The files of a directory behind `put`. -/
theorem lookup_put (names : List String) (bytes : List UInt8) (other : List String) :
    (d.put names bytes).files.lookup other
      = if other = names then some bytes else d.files.lookup other := by
  unfold put
  rw [any_eq_isSome_lookup]
  cases h : d.files.lookup names with
  | some old =>
    simp only [Option.isSome_some, if_true]
    rw [lookup_replace, h, Option.map_some]
  | none =>
    simp only [Option.isSome_none, Bool.false_eq_true, if_false]
    rw [List.lookup_append]
    by_cases hother : other = names
    · subst hother
      simp [h]
    · simp [List.lookup_cons, hother, beq_eq_false_iff_ne.mpr hother]

/-! ## Folders -/

/-- Whether there is a folder at a row of names, if there is no file: the directory itself is one,
and so is what has files below it. -/
def hasFolder (d : Directory) (names : List String) : Bool :=
  names.isEmpty || d.files.any fun (path, _) => names.isPrefixOf path

theorem hasFolder_iff {names : List String} :
    d.hasFolder names = true ↔ names = [] ∨ ∃ file ∈ d.files, names <+: file.1 := by
  simp [hasFolder, List.any_eq_true]

theorem node_eq (d : Directory) (names : List String) :
    d.node names = match d.files.lookup names with
      | some bytes => .file bytes
      | none => if d.hasFolder names then .folder else .nothing := rfl

theorem hasFolder_of_node {names : List String} (h : d.node names = .folder) :
    d.hasFolder names = true := by
  rw [node_eq] at h
  cases hfolder : d.hasFolder names with
  | true => rfl
  | false =>
    rw [hfolder] at h
    cases hfile : d.files.lookup names <;> rw [hfile] at h <;> cases h

theorem hasFolder_above {names shorter : List String} (h : d.hasFolder names = true)
    (habove : shorter <+: names) : d.hasFolder shorter = true := by
  rw [hasFolder_iff] at h ⊢
  rcases h with rfl | ⟨file, hfile, hbelow⟩
  · exact .inl (List.prefix_nil.mp habove)
  · exact .inr ⟨file, hfile, habove.trans hbelow⟩

/-- A file in a folder that exists brings no folder about. -/
theorem hasFolder_put {folder other : List String} {name : String} (bytes : List UInt8)
    (h : d.hasFolder folder = true) (hother : other ≠ folder ++ [name]) :
    (d.put (folder ++ [name]) bytes).hasFolder other = d.hasFolder other := by
  have hfiles : ∀ file ∈ (d.put (folder ++ [name]) bytes).files,
      file.1 = folder ++ [name] ∨ file ∈ d.files := by
    unfold put
    split
    · intro file hfile
      obtain ⟨old, hold, rfl⟩ := List.mem_map.mp hfile
      split
      · exact .inl rfl
      · exact .inr hold
    · intro file hfile
      rcases List.mem_append.mp hfile with hfile | hfile
      · exact .inr hfile
      · exact .inl (by rw [List.mem_singleton.mp hfile])
  have hkept : ∀ file ∈ d.files, ∃ file' ∈ (d.put (folder ++ [name]) bytes).files,
      file'.1 = file.1 := by
    intro file hfile
    unfold put
    split
    · refine ⟨_, List.mem_map_of_mem hfile, ?_⟩
      split
      case isTrue hsame => exact (eq_of_beq hsame).symm
      case isFalse => rfl
    · exact ⟨file, List.mem_append_left _ hfile, rfl⟩
  rw [Bool.eq_iff_iff, hasFolder_iff, hasFolder_iff]
  constructor
  · rintro (hroot | ⟨file, hfile, habove⟩)
    · exact .inl hroot
    rcases hfiles file hfile with hnew | hold
    · -- A proper prefix of the new file's names is one of its folder's, which exists already.
      rw [hnew] at habove
      have hshort : other <+: folder := (List.prefix_concat_iff.mp habove).resolve_left hother
      exact hasFolder_iff.mp (hasFolder_above h hshort)
    · exact .inr ⟨file, hold, habove⟩
  · rintro (hroot | ⟨file, hfile, habove⟩)
    · exact .inl hroot
    obtain ⟨file', hfile', hsame⟩ := hkept file hfile
    exact .inr ⟨file', hfile', hsame ▸ habove⟩

/-- What stands at the row of names of a new file. -/
theorem node_put_self (names : List String) (bytes : List UInt8) :
    (d.put names bytes).node names = .file bytes := by
  rw [node_eq, lookup_put, if_pos rfl]

/-- What stands everywhere else. -/
theorem node_put_of_ne {folder other : List String} {name : String} (bytes : List UInt8)
    (h : d.hasFolder folder = true) (hother : other ≠ folder ++ [name]) :
    (d.put (folder ++ [name]) bytes).node other = d.node other := by
  rw [node_eq, node_eq, lookup_put, if_neg hother, hasFolder_put bytes h hother]

/-! ## Walks -/

/-- A folder exists: nothing is known about those outside. -/
def Has (d : Directory) : Folder → Prop
  | .below names => d.hasFolder names = true
  | .outside => True

theorem has_startOf (d : Directory) (path : String) : d.Has (.startOf path) := by
  unfold Folder.startOf
  split
  · trivial
  · exact hasFolder_iff.mpr (.inl rfl)

theorem Has.parent {folder : Folder} (h : d.Has folder) : d.Has folder.parent := by
  rcases folder with (_ | ⟨name, names⟩) | _
  · trivial
  · exact hasFolder_above h (List.dropLast_prefix _)
  · trivial

/-- What stands under a name in a folder below the directory. -/
theorem entry_below {names : List String} {name : String} {n : Node}
    (h : d.entry (.below names) name = .ok n) :
    ¬maxName < name.utf8ByteSize ∧ d.node (names ++ [name]) = n := by
  unfold entry at h
  split at h
  · cases h
  case isFalse hlength => exact ⟨hlength, Except.ok.inj h⟩

/-- A walk that enters a folder has found it there. -/
theorem Has.enter {folder next : Folder} {name : String} (h : d.Has folder)
    (hstep : d.enter folder name = .ok next) : d.Has next := by
  unfold Directory.enter at hstep
  split at hstep
  · exact Except.ok.inj hstep ▸ h
  split at hstep
  · exact Except.ok.inj hstep ▸ h.parent
  split at hstep
  case h_2 names _ hentry => exact Except.ok.inj hstep ▸ hasFolder_of_node (entry_below hentry).2
  case h_3 => exact Except.ok.inj hstep ▸ trivial
  all_goals cases hstep

/-- A step of a walk, once something else stands where no folder was. -/
theorem enter_congr {d' : Directory} {folder next : Folder} {name : String}
    (hnode : ∀ names, d.node names = .folder → d'.node names = .folder)
    (hstep : d.enter folder name = .ok next) : d'.enter folder name = .ok next := by
  unfold enter at hstep ⊢
  split at hstep
  case isTrue hsame => rw [if_pos hsame]; exact hstep
  case isFalse hsame =>
  rw [if_neg hsame]
  split at hstep
  case isTrue hup => rw [if_pos hup]; exact hstep
  case isFalse hup =>
  rw [if_neg hup]
  cases folder with
  | outside => exact hstep
  | below names =>
    split at hstep
    case h_2 hentry hbelow =>
      cases hbelow
      obtain ⟨hlength, hfolder⟩ := entry_below hentry
      rw [entry, if_neg hlength]
      simp only [hnode _ hfolder]
      exact hstep
    case h_3 hbelow => cases hbelow
    all_goals cases hstep

/-- A walk ends in a folder that exists. -/
theorem Has.walk {names : List String} {folder last : Folder} (h : d.Has folder)
    (hwalk : names.foldlM d.enter folder = .ok last) : d.Has last := by
  induction names generalizing folder with
  | nil => exact Except.ok.inj hwalk ▸ h
  | cons name names ih =>
    rw [List.foldlM_cons] at hwalk
    cases hstep : d.enter folder name with
    | error fault => rw [hstep] at hwalk; cases hwalk
    | ok next =>
      rw [hstep] at hwalk
      exact ih (h.enter hstep) hwalk

theorem walk_congr {d' : Directory} {names : List String} {folder last : Folder}
    (hnode : ∀ names, d.node names = .folder → d'.node names = .folder)
    (hwalk : names.foldlM d.enter folder = .ok last) :
    names.foldlM d'.enter folder = .ok last := by
  induction names generalizing folder with
  | nil => exact hwalk
  | cons name names ih =>
    rw [List.foldlM_cons] at hwalk ⊢
    cases hstep : d.enter folder name with
    | error fault => rw [hstep] at hwalk; cases hwalk
    | ok next =>
      rw [hstep] at hwalk
      rw [enter_congr hnode hstep]
      exact ih hwalk

theorem has_of_follow {path : String} {names : List String} {folder : Folder}
    (h : d.follow path names = .ok folder) : d.Has folder := by
  unfold follow at h
  split at h
  · cases h
  split at h
  · cases h
  · exact (has_startOf d path).walk h

theorem follow_congr {d' : Directory} {path : String} {names : List String} {folder : Folder}
    (hnode : ∀ names, d.node names = .folder → d'.node names = .folder)
    (h : d.follow path names = .ok folder) : d'.follow path names = .ok folder := by
  unfold follow at h ⊢
  split at h
  · cases h
  case isFalse hempty =>
  rw [if_neg hempty]
  split at h
  · cases h
  case isFalse hlength =>
  rw [if_neg hlength]
  exact walk_congr hnode h

/-! ## Targets -/

/-- The names of a path whose last name is none that stands for a folder. -/
theorem namesToCreate_of_lastName {path : String} (h : namesFolder (lastName path) = false) :
    namesToCreate path = pathNames path := by
  unfold lastName at h
  unfold namesToCreate
  rcases List.eq_nil_or_concat (pathNames path) with hnil | ⟨names, name, hconcat⟩
  · rw [hnil]
    rfl
  · rw [List.concat_eq_append] at hconcat
    rw [hconcat] at h ⊢
    have hname : (name == "") = false := by
      cases hempty : name == "" with
      | false => rfl
      | true => simp [namesFolder, hempty] at h
    simp [hname]

/-- A file can be created at a path if the walk along the path comes to a folder below the directory
and no folder has the file's name there. -/
theorem target_eq_file {path : String} {names : List String} (h : d.target path = .ok (.file names)) :
    path ≠ nullDevice ∧ namesFolder (lastName path) = false ∧
      ¬maxName < (lastName path).utf8ByteSize ∧
      ∃ folder, names = folder ++ [lastName path]
        ∧ d.follow path (pathNames path).dropLast = .ok (.below folder)
        ∧ d.node names ≠ .folder := by
  unfold target at h
  split at h
  · cases h
  case isFalse hnull =>
  split at h
  · cases h
  case h_2 folder hfollow =>
  split at h
  · cases h
  case isFalse hlast =>
  rw [Bool.not_eq_true] at hlast
  rw [namesToCreate_of_lastName hlast] at hfollow
  split at h
  case h_3 n folder hne hentry =>
    cases h
    obtain ⟨hlength, hnode⟩ := entry_below hentry
    exact ⟨hnull, hlast, hlength, folder, rfl, hfollow, fun h => hne (hnode.symm.trans h)⟩
  all_goals cases h

/-- What is written goes nowhere at the path of the null device only. -/
theorem target_eq_nowhere {path : String} (h : d.target path = .ok .nowhere) :
    path = nullDevice := by
  unfold target at h
  split at h
  case isTrue hnull => exact hnull
  split at h
  · cases h
  split at h
  · cases h
  split at h <;> cases h

/-- **A file that is created is there**, and everything else is as it was. -/
theorem write_spec {path : String} {names : List String} (bytes : List UInt8)
    (h : d.target path = .ok (.file names)) :
    (d.write path bytes).readBytes path = .ok bytes
      ∧ ∀ other, other ≠ names → (d.write path bytes).node other = d.node other := by
  obtain ⟨hnull, hlast, hlength, folder, rfl, hfollow, hnode⟩ := target_eq_file h
  have hwrite : d.write path bytes = d.put (folder ++ [lastName path]) bytes := by rw [write, h]
  have helse : ∀ other, other ≠ folder ++ [lastName path] →
      (d.put (folder ++ [lastName path]) bytes).node other = d.node other :=
    fun other => node_put_of_ne bytes (has_of_follow hfollow)
  rw [hwrite]
  refine ⟨?_, helse⟩
  -- The file stands where no folder was, so the walk to its folder is the same.
  have hfollow' : (d.put (folder ++ [lastName path]) bytes).follow path (pathNames path).dropLast
      = .ok (.below folder) :=
    follow_congr (fun other hfolder => by rw [helse other fun h => hnode (h ▸ hfolder), hfolder])
      hfollow
  unfold readBytes
  rw [if_neg hnull, hfollow']
  simp only [hlast, Bool.false_eq_true, if_false, entry, if_neg hlength, node_put_self]

end IrRecords.Command.Directory
