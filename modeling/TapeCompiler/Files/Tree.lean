import TapeCompiler.Files.Path
import TapeCompiler.Text.Quoted

/-! # File trees

A file tree is a list of places with what they hold: a file with its bytes, or a directory.  The
root is always a directory.  Reading follows a path part by part and checks every step; writing
goes to a place that is already resolved and makes the directories on the way to it.

A call that fails names its cause and what was being done.  A path that holds a null character is
refused before any call.  `SystemError.message` is the wording of either.
-/

namespace TapeCompiler

/-- What a place holds. -/
inductive Entry where
  | file (bytes : List UInt8)
  | directory
deriving DecidableEq

/-- Why a call on the file tree fails. -/
inductive FileError where
  | notFound
  | notDirectory
  | isDirectory
  | alreadyExists
  | nameTooLong
deriving DecidableEq

/-- What was being done when a call failed. -/
inductive FileCall where
  | opening (path : String)
  | reading
  | makingDirectory (path : String)
deriving DecidableEq

/-- Why something on the file tree could not be done: a call failed, or its path holds a null
character. -/
inductive SystemError where
  | failed (cause : FileError) (call : FileCall)
  | nullInPath (path : String)
deriving DecidableEq

def FileError.message : FileError → String
  | .notFound => "ENOENT: no such file or directory"
  | .notDirectory => "ENOTDIR: not a directory"
  | .isDirectory => "EISDIR: illegal operation on a directory"
  | .alreadyExists => "EEXIST: file already exists"
  | .nameTooLong => "ENAMETOOLONG: name too long"

def FileCall.message : FileCall → String
  | .opening path => "open '" ++ path ++ "'"
  | .reading => "read"
  | .makingDirectory path => "mkdir '" ++ path ++ "'"

namespace SystemError

def message : SystemError → String
  | .failed cause call => cause.message ++ ", " ++ call.message
  | .nullInPath path =>
    "The argument 'path' must be a string, Uint8Array, or URL without null bytes. Received " ++
      Quoted.shown path

def kindName : SystemError → String
  | .failed _ _ => "Error"
  | .nullInPath _ => "TypeError [ERR_INVALID_ARG_VALUE]"

/-- The wording of an error after the name of its kind. -/
def report (e : SystemError) : String := e.kindName ++ ": " ++ e.message

end SystemError

/-- The error of a path that holds a null character, if it does. -/
def nullError? (path : String) : Option SystemError :=
  if path.toList.contains '\x00' then some (.nullInPath path) else none

structure FileTree where
  entries : List (Path × Entry)
deriving DecidableEq

namespace FileTree

/-- What a place holds, if there is anything. -/
def lookup (tree : FileTree) (place : Path) : Option Entry :=
  if place = [] then some .directory
  else (tree.entries.find? fun e => e.1 = place).map Prod.snd

/-- The most bytes in a name. -/
def nameLimit : Nat := 255

/-- The most bytes in a path. -/
def pathLimit : Nat := 4095

/-- Puts an entry at a place, instead of what it held. -/
def put (tree : FileTree) (place : Path) (entry : Entry) : FileTree :=
  ⟨tree.entries.filter (fun e => e.1 ≠ place) ++ [(place, entry)]⟩

/-- Puts an entry at a place that holds nothing; what is there already stays. -/
def add (tree : FileTree) (place : Path) (entry : Entry) : FileTree :=
  ⟨tree.entries ++ [(place, entry)]⟩

/-- Follows the parts of a path from a place that holds something. -/
def walk (tree : FileTree) (place : Path) : List String → Except FileError Path
  | [] => .ok place
  | part :: rest =>
    if tree.lookup place ≠ some .directory then .error .notDirectory
    else if part = "" ∨ part = "." then tree.walk place rest
    else if part = ".." then tree.walk place.dropLast rest
    else if nameLimit < part.utf8ByteSize then .error .nameTooLong
    else if tree.lookup (place ++ [part]) = none then .error .notFound
    else tree.walk (place ++ [part]) rest

/-- The place that a typed path leads to. -/
def locate (tree : FileTree) (directory : Path) (typed : String) : Except FileError Path :=
  if typed = "" then .error .notFound
  else if pathLimit < typed.utf8ByteSize then .error .nameTooLong
  else tree.walk (Path.base directory typed) (Path.parts typed)

/-- The bytes of the file that a typed path leads to. -/
def readFile (tree : FileTree) (directory : Path) (typed : String) :
    Except SystemError (List UInt8) :=
  match nullError? typed with
  | some e => .error e
  | none =>
    match tree.locate directory typed with
    | .error cause => .error (.failed cause (.opening typed))
    | .ok place =>
      match tree.lookup place with
      | some (.file bytes) => .ok bytes
      | some .directory => .error (.failed .isDirectory .reading)
      | none => .error (.failed .notFound (.opening typed))

/-- Why directories could not be made, and the place that the error names. -/
structure DirectoryFailure where
  cause : FileError
  place : Path

/-- The outcome of making directories: the tree afterwards, and the failure if there is one. -/
structure Change where
  tree : FileTree
  failure : Option DirectoryFailure

/-- Makes directories one below the other, starting in the new directory `place`. -/
def makeMissing (tree : FileTree) (place : Path) : List String → Change
  | [] => ⟨tree, none⟩
  | name :: rest =>
    let next := place ++ [name]
    if nameLimit < name.utf8ByteSize then ⟨tree, some ⟨.nameTooLong, next⟩⟩
    else (tree.add next .directory).makeMissing next rest

/-- Goes from `place` along `names` to `target` and makes the directories from the first missing
one on.  What fails before that is put down to `target`. -/
def makeDirectoriesFrom (tree : FileTree) (target place : Path) : List String → Change
  | [] => ⟨tree, none⟩
  | name :: rest =>
    let next := place ++ [name]
    if nameLimit < name.utf8ByteSize then ⟨tree, some ⟨.nameTooLong, target⟩⟩
    else
      match tree.lookup next with
      | some .directory => tree.makeDirectoriesFrom target next rest
      | some (.file _) =>
        ⟨tree, some ⟨if rest = [] then .alreadyExists else .notDirectory, target⟩⟩
      | none => (tree.add next .directory).makeMissing next rest

/-- Makes a directory and those above it. -/
def makeDirectories (tree : FileTree) (target : Path) : Change :=
  if pathLimit < (Path.text target).utf8ByteSize then ⟨tree, some ⟨.nameTooLong, target⟩⟩
  else tree.makeDirectoriesFrom target [] target

/-- Why a file cannot be written at a place whose directory exists. -/
def writeFailure? (tree : FileTree) (place : Path) : Option FileError :=
  if tree.lookup place = some .directory then some .isDirectory
  else if nameLimit < (place.getLast?.getD "").utf8ByteSize then some .nameTooLong
  else if pathLimit < (Path.text place).utf8ByteSize then some .nameTooLong
  else none

/-- Makes a directory and those above it, unless its path is refused. -/
def prepareDirectory (tree : FileTree) (place : Path) : FileTree × Option SystemError :=
  match nullError? (Path.text place) with
  | some e => (tree, some e)
  | none =>
    let change := tree.makeDirectories place
    (change.tree, change.failure.map fun f => .failed f.cause (.makingDirectory (Path.text f.place)))

/-- Puts a file at a place whose directory exists, unless its path is refused. -/
def storeFile (tree : FileTree) (place : Path) (bytes : List UInt8) :
    FileTree × Option SystemError :=
  match nullError? (Path.text place) with
  | some e => (tree, some e)
  | none =>
    match tree.writeFailure? place with
    | some cause => (tree, some (.failed cause (.opening (Path.text place))))
    | none => (tree.put place (.file bytes), none)

/-- Writes a file, making the directories above it.  When this fails, directories may have been
made, but no file has changed. -/
def writeFile (tree : FileTree) (place : Path) (bytes : List UInt8) :
    FileTree × Option SystemError :=
  match tree.prepareDirectory place.dropLast with
  | (prepared, some e) => (prepared, some e)
  | (prepared, none) => prepared.storeFile place bytes

end FileTree

end TapeCompiler
