import IrRecords.Text.Utf8

/-!
# Directories

The command line reads and creates files below one directory. A directory is a value here: the
regular files in it by their paths, with their bytes. Folders exist as far as some file is below
them.

A path is a row of names. Empty names and single dots stand for nothing, two dots lead one folder
up. A path can leave the directory, upwards or by starting with a slash. There are folders outside,
but nothing is known about what is in them, so no name is found there. Only the null device is
known: it is empty, and whatever is written to it is gone.

Names and paths are bounded in length. A path beyond the bound is refused as a whole; a name beyond
the bound only when the walk along the path comes to it.
-/

namespace IrRecords.Command

/-- Why a file cannot be read or created. -/
inductive FileFault where
  | notFound
  | isDirectory
  | notDirectory
  | nameTooLong
  | notUtf8
  deriving Repr, DecidableEq

/-- The fault in words. -/
def FileFault.message : FileFault → String
  | notFound => "No such file or directory (os error 2)"
  | isDirectory => "Is a directory (os error 21)"
  | notDirectory => "Not a directory (os error 20)"
  | nameTooLong => "File name too long (os error 36)"
  | notUtf8 => "stream did not contain valid UTF-8"

/-- The regular files of a directory, each path once. -/
structure Directory where
  files : List (List String × List UInt8)
  deriving Repr, DecidableEq

/-- What stands at a path. -/
inductive Node where
  | file (bytes : List UInt8)
  | folder
  | nothing
  deriving Repr, DecidableEq

/-! ## Paths -/

/-- The names in a path, in order. -/
def pathNames (path : String) : List String :=
  go [] path.toList
where
  /-- The names of the rest of a path; `name` is the part of the current one, last first. -/
  go (name : List Char) : List Char → List String
    | [] => [String.ofList name.reverse]
    | c :: cs => if c = '/' then String.ofList name.reverse :: go [] cs else go (c :: name) cs

/-- Whether a name stands for a folder wherever it occurs. -/
def namesFolder (name : String) : Bool := name == "" || name == "." || name == ".."

/-- The most bytes that a name can have. -/
def maxName : Nat := 255

/-- The most bytes that a path can have. -/
def maxPath : Nat := 4095

/-- The path of the null device. -/
def nullDevice : String := "/dev/null"

/-- A folder that a path leads to. -/
inductive Folder where
  /-- The folder at a row of names below the directory, or the directory itself. -/
  | below (names : List String)
  /-- Some folder that is not below the directory. -/
  | outside
  deriving Repr, DecidableEq

/-- The folder that contains a folder. -/
def Folder.parent : Folder → Folder
  | below [] => outside
  | below (name :: names) => below (name :: names).dropLast
  | outside => outside

/-- The folder that a path starts from. -/
def Folder.startOf (path : String) : Folder :=
  if path.toList.head? = some '/' then outside else below []

namespace Directory

/-- The directory with these files. -/
def ofFiles (files : List (String × List UInt8)) : Directory :=
  ⟨files.map fun (path, bytes) => (pathNames path, bytes)⟩

/-- What stands at a row of names. -/
def node (d : Directory) (names : List String) : Node :=
  match d.files.lookup names with
  | some bytes => .file bytes
  | none =>
    -- The directory itself is there even without files.
    if names.isEmpty || d.files.any fun (path, _) => names.isPrefixOf path then .folder
    else .nothing

/-- What stands under a name in a folder. -/
def entry (d : Directory) (folder : Folder) (name : String) : Except FileFault Node :=
  if maxName < name.utf8ByteSize then .error .nameTooLong
  else
    match folder with
    | .below names => .ok (d.node (names ++ [name]))
    | .outside => .ok .nothing

/-- The folder that a name leads to. -/
def enter (d : Directory) (folder : Folder) (name : String) : Except FileFault Folder :=
  if name = "" ∨ name = "." then .ok folder
  else if name = ".." then .ok folder.parent
  else
    match d.entry folder name, folder with
    | .error fault, _ => .error fault
    | .ok .folder, .below names => .ok (.below (names ++ [name]))
    -- Not reached: nothing is found outside.
    | .ok .folder, .outside => .ok .outside
    | .ok (.file _), _ => .error .notDirectory
    | .ok .nothing, _ => .error .notFound

/-- The folder that a path leads to with `names`, which are names in it from the first on. -/
def follow (d : Directory) (path : String) (names : List String) : Except FileFault Folder :=
  if path = "" then .error .notFound
  else if maxPath < path.utf8ByteSize then .error .nameTooLong
  else names.foldlM d.enter (.startOf path)

/-- The last name in a path. -/
def lastName (path : String) : String := (pathNames path).getLast?.getD ""

/-- The bytes of the file at a path. -/
def readBytes (d : Directory) (path : String) : Except FileFault (List UInt8) :=
  if path = nullDevice then .ok []
  else
    match d.follow path (pathNames path).dropLast with
    | .error fault => .error fault
    | .ok folder =>
      if namesFolder (lastName path) then .error .isDirectory
      else
        match d.entry folder (lastName path) with
        | .error fault => .error fault
        | .ok (.file bytes) => .ok bytes
        | .ok .folder => .error .isDirectory
        | .ok .nothing => .error .notFound

/-- The text of the file at a path. -/
def readText (d : Directory) (path : String) : Except FileFault String :=
  match d.readBytes path with
  | .error fault => .error fault
  | .ok bytes =>
    match Utf8.decode? bytes with
    | some text => .ok text
    | none => .error .notUtf8

/-- The names in a path, without the empty ones at its end. -/
def namesToCreate (path : String) : List String :=
  ((pathNames path).reverse.dropWhile (· == "")).reverse

/-- Where what is written to a path goes. -/
inductive Target where
  /-- The file at a row of names below the directory. -/
  | file (names : List String)
  /-- The null device. -/
  | nowhere
  deriving Repr, DecidableEq

/-- Where what is written to a path goes. A path that ends in a slash stands for a folder, whether
there is one or not. -/
def target (d : Directory) (path : String) : Except FileFault Target :=
  if path = nullDevice then .ok .nowhere
  else
    match d.follow path (namesToCreate path).dropLast with
    | .error fault => .error fault
    | .ok folder =>
      if namesFolder (lastName path) then .error .isDirectory
      else
        match d.entry folder (lastName path), folder with
        | .error fault, _ => .error fault
        | .ok .folder, _ => .error .isDirectory
        | .ok _, .below names => .ok (.file (names ++ [lastName path]))
        | .ok _, .outside => .error .notFound

/-- The directory with the file at `names` holding `bytes`. -/
def put (d : Directory) (names : List String) (bytes : List UInt8) : Directory :=
  if d.files.any (·.1 == names) then
    ⟨d.files.map fun file => if file.1 == names then (names, bytes) else file⟩
  else ⟨d.files ++ [(names, bytes)]⟩

/-- The directory with the file at a path holding `bytes`, if it can be created. -/
def write (d : Directory) (path : String) (bytes : List UInt8) : Directory :=
  match d.target path with
  | .ok (.file names) => d.put names bytes
  | .ok .nowhere => d
  | .error _ => d

/-- The files of `d` that `old` does not hold, or holds with other bytes. -/
def changedSince (d old : Directory) : List (String × List UInt8) :=
  (d.files.filter fun file => old.files.lookup file.1 != some file.2).map fun (names, bytes) =>
    ("/".intercalate names, bytes)

end Directory

end IrRecords.Command
