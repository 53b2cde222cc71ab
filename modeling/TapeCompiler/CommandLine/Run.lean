import TapeCompiler.CommandLine.Arguments
import TapeCompiler.Diagnostic.Order

/-! # Running a command line

A run reads the arguments, compiles the source file and writes one artifact, to standard output
or to a file.  It ends with code 0, with 1 when the compilation reported an error, or with 2 when
the arguments are refused or the file cannot be written.
-/

namespace TapeCompiler.CommandLine

def versionNumber : String := "0.1.0"

def usage : String :=
  "bfqc [options] <program.b>\n" ++
  "\n" ++
  "Options:\n" ++
  "  -o, --output <file>     Write the artifact to <file> instead of stdout\n" ++
  "  -e, --emit <kind>       Artifact to produce: qbe|ast|tokens (default: qbe)\n" ++
  "      --tape-cells <n>    Number of tape cells (default: 30000)\n" ++
  "      --stride <n>        Bytes per cell: 1|8 (default: 1)\n" ++
  "  -V, --version           Print version\n" ++
  "  -h, --help              Show help\n" ++
  "\n" ++
  "Notes:\n" ++
  "  - <program.b> must be the last argument.\n" ++
  "  - The QBE module is written to stdout unless --output is given.\n"

/-- What a run leaves behind, apart from files. -/
structure Outcome where
  code : Nat
  stdout : String
  stderr : String
deriving DecidableEq

namespace Outcome

def success (stdout : String) : Outcome := ⟨0, stdout, ""⟩

def failed (stderr : String) : Outcome := ⟨1, "", stderr⟩

/-- A run that was given up: the reason, then how to use the program. -/
def refused (reason : String) : Outcome := ⟨2, "", "bfqc: " ++ reason ++ "\n" ++ usage ++ "\n"⟩

/-- Reports diagnostics, in order and before anything else that goes to standard error. -/
def reporting (diagnostics : List Diagnostic) (o : Outcome) : Outcome :=
  let lines := (Diagnostic.sort diagnostics).map fun d => d.text ++ "\n"
  { o with stderr := String.join lines ++ o.stderr }

end Outcome

/-- What a request prints before any compilation. -/
def Request.announcement : Request → String
  | .help => usage
  | .version => versionNumber ++ "\n"
  | .compile _ _ => ""

/-- The options of a compilation for one artifact. -/
def Settings.compileOptions (s : Settings) : CompileOptions where
  tape := ⟨s.tapeCells, s.stride⟩
  tokens := some (s.emit == .tokens)
  ast := some (s.emit == .ast)
  qbe := some (s.emit == .qbe)

/-! ## Steps of a run

A run asks for files through a `FileSystem`, so the steps are the same whether it works on the files
of a machine or on a `FileTree`.
-/

/-- How a run gets at files: its directory, reading what was typed, and writing to a place. -/
structure FileSystem (m : Type → Type) where
  directory : m Path
  readFile : String → m (Except SystemError (List UInt8))
  writeFile : Path → List UInt8 → m (Option SystemError)

section Steps

variable {m : Type → Type} [Monad m] (files : FileSystem m)

/-- Writes an artifact where the settings say. -/
def deliverWith (output : Option String) (artifact : Artifact) : m Outcome :=
  match output with
  | none => return .success artifact.text
  | some typed => do
    let place := Path.resolve (← files.directory) typed
    match ← files.writeFile place (Utf8.encode artifact.text.toList) with
    | none => return .success (Path.text place ++ "\n")
    | some e => return .refused e.message

/-- Delivers the artifact of a compilation, unless there were errors. -/
def concludeWith (settings : Settings) (c : Compilation) : m Outcome :=
  if c.diagnostics.any Diagnostic.isError then return .failed ""
  else
    match c.artifacts.find? (fun a => a.kind == settings.emit) with
    | some artifact => deliverWith files settings.output artifact
    | none => return .failed ("bfqc: no " ++ settings.emit.name ++ " artifact was produced\n")

def runWith (arguments : List String) : m Outcome :=
  match parseArguments arguments with
  | .error e => return .refused e.message
  | .ok (.compile entry settings) => do
    let c := compileBytes entry (← files.readFile entry) settings.compileOptions {}
    let outcome ← concludeWith files settings c
    return outcome.reporting c.diagnostics
  | .ok request => return .success request.announcement

end Steps

/-! ## Runs in a file tree -/

/-- The files of a tree, seen from one of its directories. -/
def FileSystem.inTree (directory : Path) : FileSystem (StateM FileTree) where
  directory := return directory
  readFile typed := return (← get).readFile directory typed
  writeFile place bytes := modifyGet fun tree => (tree.writeFile place bytes).swap

def deliver (tree : FileTree) (directory : Path) (output : Option String) (artifact : Artifact) :
    Outcome × FileTree :=
  ((deliverWith (.inTree directory) output artifact).run tree).run

def conclude (tree : FileTree) (directory : Path) (settings : Settings) (c : Compilation) :
    Outcome × FileTree :=
  ((concludeWith (.inTree directory) settings c).run tree).run

/-- Runs a command line in a directory of a file tree. -/
def run (tree : FileTree) (directory : Path) (arguments : List String) : Outcome × FileTree :=
  ((runWith (.inTree directory) arguments).run tree).run

end TapeCompiler.CommandLine
