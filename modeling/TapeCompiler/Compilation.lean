import TapeCompiler.Artifact
import TapeCompiler.Files.Tree
import TapeCompiler.Parsing.Program
import TapeCompiler.Text.Utf8

/-! # Compilation

A source text is parsed, lowered and written out.  The first of these that reports an error ends
the compilation without artifacts.

The module is lowered whether or not its text is asked for, so a bad tape is reported with every
kind of artifact.

Loops may nest to any depth.  A machine whose stack is limited breaks off the parsing of a text
that nests deeper than its stack allows and reports an internal error.  Nothing here has such a
limit, and the only text that cannot be parsed at all is one that is missing.

* `compileText`: the compilation of a text.
* `compileBytes`: the compilation of what reading a file gave.
-/

namespace TapeCompiler

/-- What to compile for and what to write.  A choice that is not made has its default; once any
artifact is chosen or declined, only those chosen are written, and else the module is. -/
structure CompileOptions where
  tape : TapeOptions := ⟨none, none⟩
  tokens : Option Bool := none
  ast : Option Bool := none
  qbe : Option Bool := none
  lineEnding : LineEnding := .lf
deriving DecidableEq

/-- Which of the optional writers there are. -/
structure Writers where
  tokens : Bool := true
  ast : Bool := true
deriving DecidableEq

structure Compilation where
  diagnostics : List Diagnostic
  artifacts : List Artifact
deriving DecidableEq

def CompileOptions.wants (o : CompileOptions) : ArtifactKind → Bool
  | .tokens => o.tokens.getD false
  | .ast => o.ast.getD false
  | .qbe => o.qbe.getD (o.tokens.isNone && o.ast.isNone)

/-- The warning to give instead of an artifact when its writer is missing. -/
def Writers.missing? (w : Writers) : ArtifactKind → Option String
  | .tokens =>
    if w.tokens then none
    else some "emitTokens=true but no token writer is configured; skipping token dump."
  | .ast =>
    if w.ast then none
    else some "emitAst=true but no AST writer is configured; skipping AST outline."
  | .qbe => none

namespace Compilation

def failed (diagnostics : List Diagnostic) : Compilation := ⟨diagnostics, []⟩

/-- The internal error that there is no text to parse, in the words of the engine that stumbles over
it. -/
def missingText (file : String) : Diagnostic :=
  .error .internalError
    "Internal error during parse: TypeError: Cannot read properties of null (reading 'length')"
    file

def unreadable (file : String) (e : SystemError) : Diagnostic :=
  .error .unreadableFile ("Failed to read entry file: " ++ e.report) file

/-- The order in which artifacts are written. -/
def order : List ArtifactKind := [.tokens, .ast, .qbe]

/-- Writes what is asked for, warning where there is no writer. -/
def write (options : CompileOptions) (writers : Writers) (file : String)
    (artifact : ArtifactKind → Artifact) : Compilation :=
  let wanted := order.filter options.wants
  ⟨(wanted.filterMap writers.missing?).map fun message => .warning .unclassified message file,
    (wanted.filter fun kind => (writers.missing? kind).isNone).map artifact⟩

end Compilation

def compileText (file : String) (text : List Char) (options : CompileOptions)
    (writers : Writers) : Compilation :=
  let parsed := parseProgram file text
  match parsed.program with
  | .error report => .failed [report]
  | .ok program =>
    match Lowering.lower options.tape program with
    | .error errors => .failed (errors.map (OptionError.diagnostic file))
    | .ok module =>
      let ending := options.lineEnding.chosen
      .write options writers file fun
        | .tokens => .ofTokens ending parsed.tokens
        | .ast => .ofProgram ending program
        | .qbe => .ofModule ending module

/-- Compiles a text that may be missing. -/
def compileText? (file : String) (text : Option (List Char)) (options : CompileOptions)
    (writers : Writers) : Compilation :=
  match text with
  | none => .failed [Compilation.missingText file]
  | some text => compileText file text options writers

/-- Compiles the bytes of a file, or reports why they could not be read. -/
def compileBytes (file : String) (bytes : Except SystemError (List UInt8))
    (options : CompileOptions) (writers : Writers) : Compilation :=
  match bytes with
  | .error e => .failed [Compilation.unreadable file e]
  | .ok bytes => compileText file (Utf8.decode bytes) options writers

def compileFile (tree : FileTree) (directory : Path) (file : String) (options : CompileOptions)
    (writers : Writers) : Compilation :=
  compileBytes file (tree.readFile directory file) options writers

end TapeCompiler
