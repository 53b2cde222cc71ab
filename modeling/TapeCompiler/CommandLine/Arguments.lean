import TapeCompiler.Compilation

/-! # Arguments

The arguments are read from left to right.  Settings come first, each in one argument
(`--stride=8`) or in two (`--stride 8`); the last setting of a kind counts.  The source file
comes last.  Asking for help or for the version ends the reading where it stands.
-/

namespace TapeCompiler.CommandLine

/-- The settings that take a value. -/
inductive Flag where
  | output
  | emit
  | tapeCells
  | stride
deriving DecidableEq

/-- Why the arguments are refused. -/
inductive UsageError where
  | missingValue (flag : String)
  | unsupportedKind (value : String)
  | notAnInteger (flag value : String)
  | unknownOption (argument : String)
  | entryNotLast
deriving DecidableEq

def UsageError.message : UsageError → String
  | .missingValue flag => flag ++ " expects a value"
  | .unsupportedKind value =>
    "Unsupported --emit \"" ++ value ++ "\" (expected qbe|ast|tokens)"
  | .notAnInteger flag value =>
    flag ++ " expects a non-negative integer (got \"" ++ value ++ "\")"
  | .unknownOption argument => "Unknown option \"" ++ argument ++ "\""
  | .entryNotLast => "Expected exactly one <program.b> argument (and it must be last)"

namespace Flag

def all : List Flag := [.output, .emit, .tapeCells, .stride]

def long : Flag → String
  | .output => "--output"
  | .emit => "--emit"
  | .tapeCells => "--tape-cells"
  | .stride => "--stride"

def short? : Flag → Option String
  | .output => some "-o"
  | .emit => some "-e"
  | .tapeCells => none
  | .stride => none

/-- The flag that an argument names. -/
def ofName? (argument : String) : Option Flag :=
  all.find? fun flag => argument = flag.long ∨ some argument = flag.short?

/-- The flag and the value of an argument of the form `--flag=value`. -/
def ofAssignment? (argument : String) : Option (Flag × String) :=
  let chars := argument.toList
  match chars.dropWhile (· ≠ '=') with
  | [] => none
  | _ :: value =>
    let name := String.ofList (chars.takeWhile (· ≠ '='))
    (all.find? fun flag => name = flag.long).map fun flag => (flag, String.ofList value)

end Flag

/-- What the arguments set. -/
structure Settings where
  output : Option String := none
  emit : ArtifactKind := .qbe
  tapeCells : Option Number := none
  stride : Option Number := none
deriving DecidableEq

/-- What the arguments ask for. -/
inductive Request where
  | help
  | version
  | compile (entry : String) (settings : Settings)
deriving DecidableEq

def digitValue (c : Char) : Nat := c.toNat - '0'.toNat

/-- The natural that a list of digits denotes. -/
def naturalOf (digits : List Char) : Nat :=
  digits.foldl (fun n c => 10 * n + digitValue c) 0

/-- The value of a numeric flag: one digit or more, read as the nearest number. -/
def integerFlag (flag value : String) : Except UsageError Number :=
  let digits := value.toList
  if digits ≠ [] ∧ digits.all Char.isDigit then .ok (.round (naturalOf digits))
  else .error (.notAnInteger flag value)

/-- Gives a setting its value. -/
def Settings.set (s : Settings) (flag : Flag) (value : String) : Except UsageError Settings :=
  match flag with
  | .output => .ok { s with output := some value }
  | .emit =>
    match ArtifactKind.ofName? value with
    | some kind => .ok { s with emit := kind }
    | none => .error (.unsupportedKind value)
  | .tapeCells => (integerFlag flag.long value).map fun n => { s with tapeCells := some n }
  | .stride => (integerFlag flag.long value).map fun n => { s with stride := some n }

/-- Reads arguments after those that gave `s`. -/
def readArguments (s : Settings) : List String → Except UsageError Request
  | [] => .error .entryNotLast
  | a :: rest =>
    if a = "-h" ∨ a = "--help" then .ok .help
    else if a = "-V" ∨ a = "--version" then .ok .version
    else
      match Flag.ofAssignment? a, Flag.ofName? a with
      | some (flag, value), _ =>
        if value = "" then .error (.missingValue flag.long)
        else
          match s.set flag value with
          | .error e => .error e
          | .ok s => readArguments s rest
      | none, some flag =>
        match rest with
        | [] => .error (.missingValue a)
        | value :: rest =>
          if value = "" then .error (.missingValue a)
          else
            match s.set flag value with
            | .error e => .error e
            | .ok s => readArguments s rest
      | none, none =>
        if a.toList.head? = some '-' then .error (.unknownOption a)
        else if a = "" ∨ rest ≠ [] then .error .entryNotLast
        else .ok (.compile a s)

def parseArguments (arguments : List String) : Except UsageError Request :=
  readArguments {} arguments

end TapeCompiler.CommandLine
