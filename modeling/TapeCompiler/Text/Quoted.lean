import TapeCompiler.Text.Width

/-! # Quoted texts

A text is quoted for a message so that every character of it can be seen.  It stands between
single quotes or, if it holds any, between double quotes or else grave accents that it does not
hold.  Control characters, backslashes and the quote itself are escaped.

A long text is quoted line by line, and of what that gives only the beginning is shown.
-/

namespace TapeCompiler.Quoted

def grave : Char := '\x60'

/-- Whether a dollar sign stands before an opening brace, which between grave accents would
open a hole in the text. -/
def hasHole : List Char → Bool
  | [] => false
  | c :: rest => (c == '$' && rest.head? == some '\x7b') || hasHole rest

/-- The quote to put around a text. -/
def quoteFor (text : List Char) : Char :=
  if !text.contains '\x27' then '\x27'
  else if !text.contains '"' then '"'
  else if !text.contains grave && !hasHole text then grave
  else '\x27'

/-- A character by its code, in two hexadecimal digits. -/
def byCode (c : Char) : List Char :=
  let digits := (Nat.toDigits 16 c.toNat).map Char.toUpper
  '\\' :: 'x' :: List.replicate (2 - digits.length) '0' ++ digits

/-- Whether a character does not show by itself. -/
def isControl (c : Char) : Bool := c.toNat < 0x20 || (0x7F ≤ c.toNat && c.toNat < 0xA0)

/-- A character between quotes. -/
def escape (quote c : Char) : List Char :=
  if c = quote ∨ c = '\\' then ['\\', c]
  else if c = '\n' then ['\\', 'n']
  else if c = '\t' then ['\\', 't']
  else if c = '\r' then ['\\', 'r']
  else if c = '\x08' then ['\\', 'b']
  else if c = '\x0c' then ['\\', 'f']
  else if isControl c then byCode c
  else [c]

/-- A text between quotes, in one piece. -/
def piece (text : List Char) : List Char :=
  let quote := quoteFor text
  quote :: text.flatMap (escape quote) ++ [quote]

/-- The lines of a text, each with the line feed that ends it. -/
def lines : List Char → List (List Char)
  | [] => []
  | c :: rest =>
    if c = '\n' then [c] :: lines rest
    else
      match lines rest with
      | [] => [[c]]
      | first :: others => (c :: first) :: others

/-- How many code units a text has. -/
def size (text : List Char) : Nat := (Text.units text).length

/-- The most code units of a text that is quoted in one piece. -/
def pieceLimit : Nat := 76

/-- A text between quotes, line by line if it is long. -/
def quote (text : List Char) : List Char :=
  if size text ≤ pieceLimit then piece text
  else List.intercalate " +\n  ".toList ((lines text).map piece)

/-- The most code units of a quoted text that are shown. -/
def shownLimit : Nat := 128

/-- A quoted text as a message shows it. -/
def shown (text : String) : String :=
  let quoted := quote text.toList
  if size quoted ≤ shownLimit then String.ofList quoted
  else String.ofList (Text.beginning shownLimit quoted) ++ "..."

end TapeCompiler.Quoted
