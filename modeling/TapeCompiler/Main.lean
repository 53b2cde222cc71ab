import TapeCompiler.CommandLine.Run

/-! # The program

Runs a command line on the files and streams of the machine.  The steps are those of
`CommandLine.runWith`; here is how the machine reads and writes.
-/

namespace TapeCompiler.CommandLine

/-- The code of the operating system for a call on a directory that needs a file. -/
def directoryCode : UInt32 := 21

/-- The cause of a failed call of the operating system. -/
def causeOf : IO.Error → FileError
  | .alreadyExists .. => .alreadyExists
  | .inappropriateType _ code _ => if code = directoryCode then .isDirectory else .notDirectory
  | .invalidArgument .. => .nameTooLong
  | _ => .notFound

def readBytes (file : String) : IO (Except SystemError (List UInt8)) := do
  try
    let bytes ← IO.FS.readBinFile file
    return .ok bytes.toList
  catch e =>
    let cause := causeOf e
    return .error (.failed cause (if cause = .isDirectory then .reading else .opening file))

/-- Writes a file, making the directories above it. -/
def writeBytes (place : Path) (bytes : List UInt8) : IO (Option SystemError) := do
  let parent := Path.text place.dropLast
  try
    IO.FS.createDirAll parent
  catch e => return some (.failed (causeOf e) (.makingDirectory parent))
  try
    IO.FS.writeBinFile (Path.text place) ⟨bytes.toArray⟩
    return none
  catch e => return some (.failed (causeOf e) (.opening (Path.text place)))

/-- The files of the machine. -/
def FileSystem.ofMachine : FileSystem IO where
  directory := return Path.resolve [] (← IO.currentDir).toString
  readFile := readBytes
  writeFile := writeBytes

end TapeCompiler.CommandLine

open TapeCompiler CommandLine in
def main (arguments : List String) : IO UInt32 := do
  let outcome ← runWith .ofMachine arguments
  IO.print outcome.stdout
  IO.eprint outcome.stderr
  return outcome.code.toUInt32
