import TapeCompiler.Number.Text

/-! # Diagnostics

A diagnostic is a message about a file with a stable identifier and, where it is known, a
line and a column.  `ReportCode` lists the identifiers that the library itself gives out.
-/

namespace TapeCompiler

/-- How grave a diagnostic is. -/
inductive Severity where
  | error
  | warning
  | info
deriving DecidableEq

def Severity.name : Severity → String
  | .error => "error"
  | .warning => "warning"
  | .info => "info"

/-- What the diagnostics of the library are about. -/
inductive ReportCode where
  | unclassified
  | unreadableFile
  | internalError
  | unexpectedToken
  | endOfInput
  | invalidOption
deriving DecidableEq

def ReportCode.id : ReportCode → String
  | .unclassified => "BFQ000"
  | .unreadableFile => "BFQ001"
  | .internalError => "BFQ002"
  | .unexpectedToken => "BFQ100"
  | .endOfInput => "BFQ101"
  | .invalidOption => "BFQ200"

/-- A message about a file. -/
structure Diagnostic where
  id : String
  severity : Severity
  message : String
  file : String
  line : Option Number
  column : Option Number
deriving DecidableEq

namespace Diagnostic

/-- An error without a place. -/
def error (code : ReportCode) (message file : String) : Diagnostic :=
  ⟨code.id, .error, message, file, none, none⟩

/-- A warning without a place. -/
def warning (code : ReportCode) (message file : String) : Diagnostic :=
  ⟨code.id, .warning, message, file, none, none⟩

def isError (d : Diagnostic) : Bool := d.severity == .error

/-- The place of a diagnostic: line and column follow the file only if both are known. -/
def place (d : Diagnostic) : String :=
  match d.line, d.column with
  | some line, some column => d.file ++ ":" ++ line.text ++ ":" ++ column.text
  | _, _ => d.file

def text (d : Diagnostic) : String :=
  d.place ++ ": " ++ d.severity.name ++ ": [" ++ d.id ++ "] " ++ d.message

end Diagnostic

end TapeCompiler
