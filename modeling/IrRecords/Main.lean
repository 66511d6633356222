import IrRecords.Command.Run

/-!
# The program

The outermost layer: it asks the operating system what the command wants to know, and carries out
what the command reports. All decisions are made in `IrRecords.Command`.
-/

namespace IrRecords

/-- Whether an error's number is `code`. The runtime hands over some numbers negated. -/
def hasCode (number code : UInt32) : Bool := number == code || number == 0 - code

/-- The fault that an error of the operating system stands for. A file in the place of a directory
and a directory in the place of a file come as one error and differ by their numbers. -/
def Command.FileFault.ofError : IO.Error → Command.FileFault
  | .inappropriateType _ number _ => if hasCode number 20 then .notDirectory else .isDirectory
  | .invalidArgument _ number _ => if hasCode number 36 then .nameTooLong else .notFound
  | _ => .notFound

/-- The text at a path. -/
def readSource (path : String) : IO (Except Command.FileFault String) := do
  try
    let bytes ← IO.FS.readBinFile path
    match String.fromUTF8? bytes with
    | some text => return .ok text
    | none => return .error .notUtf8
  catch e => return .error (.ofError e)

/-- Creates a file, and answers the fault if that is impossible. -/
def createFile (path : String) (bytes : List UInt8) : IO (Except Command.FileFault Unit) := do
  try
    IO.FS.writeBinFile path ⟨bytes.toArray⟩
    return .ok ()
  catch e => return .error (.ofError e)

/-- The input that the arguments name. -/
def inputOf (arguments : List String) : String :=
  ((Command.parseArguments arguments).bind (·.input?)).getD ""

end IrRecords

open IrRecords in
/-- Runs the command on the files of the operating system. -/
def main (arguments : List String) : IO UInt32 := do
  let source ← readSource (inputOf arguments)
  let planned := Command.report ⟨fun _ => source, fun _ => .ok ()⟩ arguments
  let creation ←
    match planned.created? with
    | none => pure (.ok ())
    | some (path, bytes) => createFile path bytes
  let report := Command.report ⟨fun _ => source, fun _ => creation⟩ arguments
  (← IO.getStdout).write ⟨report.out.toArray⟩
  (← IO.getStderr).write ⟨report.err.toArray⟩
  return report.exit.toUInt32
