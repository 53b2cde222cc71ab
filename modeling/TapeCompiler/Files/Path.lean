/-! # Paths

A place in the file tree is a list of names, the root being the empty list.  A path as it is
typed is split at its slashes; `Path.resolve` finds the place that it names by looking at the
names alone, from a directory that it is relative to.
-/

namespace TapeCompiler

/-- A place in the file tree: the names on the way to it from the root. -/
abbrev Path := List String

namespace Path

/-- Splits a text at its slashes, `word` holding the characters since the last one in reverse
order. -/
def splitAfter (word : List Char) : List Char → List String
  | [] => [String.ofList word.reverse]
  | c :: rest =>
    if c = '/' then String.ofList word.reverse :: splitAfter [] rest
    else splitAfter (c :: word) rest

/-- The parts of a typed path between its slashes. -/
def parts (typed : String) : List String := splitAfter [] typed.toList

/-- Whether a typed path starts at the root. -/
def isAbsolute (typed : String) : Bool := typed.toList.head? == some '/'

/-- Where a typed path starts: at the root or at the directory that it is relative to. -/
def base (directory : Path) (typed : String) : Path :=
  if isAbsolute typed then [] else directory

/-- Follows one part: an empty part or a dot stays, two dots go up, a name goes down. -/
def follow (p : Path) (part : String) : Path :=
  if part = "" ∨ part = "." then p
  else if part = ".." then p.dropLast
  else p ++ [part]

/-- The place that a typed path names, going by the names alone. -/
def resolve (directory : Path) (typed : String) : Path :=
  (parts typed).foldl follow (base directory typed)

/-- The text of a place, starting with a slash. -/
def text (p : Path) : String := "/" ++ String.intercalate "/" p

/-- The text of the place that a path names, every backslash turned into a slash. -/
def comparable (directory : Path) (typed : String) : String :=
  (text (resolve directory typed)).map fun c => if c = '\\' then '/' else c

end Path

end TapeCompiler
