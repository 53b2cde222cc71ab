import TapeCompiler.Token.Basic

/-! # Parsers

A parser reads a list of tokens from a position.  It succeeds with a value and the position
behind what it read, or fails; a failure that is not fatal lets `alt` try the next
alternative.  There is a token at the naturals below the number of tokens, and at no other
position.

* `ParseError`: why a parser failed, and `ParseError.message`, its wording.
* `Parser.expect`: one token of a given kind.
* `Parser.alt`: the first of several parsers that does not fail recoverably.
-/

namespace TapeCompiler

/-- Why a text is refused. -/
inductive ParseError where
  | unexpectedToken (token : Token)
  | endOfInput
deriving DecidableEq

def ParseError.message : ParseError → String
  | .endOfInput => "Unexpected end of input: a loop opened with \"[\" is never closed"
  | .unexpectedToken token =>
    if token.lexeme = .bare .loopClose then
      "Unexpected token " ++ token.describe ++ ": \"]\" has no matching \"[\""
    else
      "Unexpected token " ++ token.describe

/-- A failure of a parser.  A fatal one is final; after any other an alternative may be
tried. -/
structure ParseFailure where
  fatal : Bool
  error : ParseError
deriving DecidableEq

/-- A failure after which an alternative may be tried. -/
def ParseFailure.recoverable (error : ParseError) : ParseFailure := ⟨false, error⟩

inductive ParseResult (α : Type) where
  | success (value : α) (pos : Number)
  | failure (reason : ParseFailure)
deriving DecidableEq

def ParseResult.map {α β : Type} (f : α → β) : ParseResult α → ParseResult β
  | .success value pos => .success (f value) pos
  | .failure e => .failure e

abbrev Parser (α : Type) := List Token → Number → ParseResult α

/-- The tokens from a position on; none when the position is not a natural. -/
def tokensFrom (tokens : List Token) (pos : Number) : List Token :=
  match pos.index? with
  | some i => tokens.drop i
  | none => []

/-- The position behind the first `used` tokens from a position on.  There is none to use at a
position that is not a natural. -/
def positionAfter (pos : Number) (used : Nat) : Number :=
  match pos.index? with
  | some i => .ofNat (i + used)
  | none => pos

/-- The failure of finding nothing suitable at the head of `tokens`. -/
def ParseFailure.atHead : List Token → ParseFailure
  | [] => .recoverable .endOfInput
  | token :: _ => .recoverable (.unexpectedToken token)

namespace Parser

variable {α β : Type}

def map (f : α → β) (p : Parser α) : Parser β := fun tokens pos => (p tokens pos).map f

/-- Accepts nothing, recoverably. -/
def reject : Parser α := fun tokens pos => .failure (.atHead (tokensFrom tokens pos))

/-- Fails for good. -/
def abort : Parser α := fun _ _ => .failure ⟨true, .endOfInput⟩

/-- Reads one token of a kind. -/
def expect (kind : Kind) : Parser Token := fun tokens pos =>
  match tokensFrom tokens pos with
  | [] => .failure (.atHead [])
  | token :: rest =>
    if token.kind = kind then .success token (positionAfter pos 1) else .failure (.atHead (token :: rest))

/-- Tries parsers in order, `last` being the failure of the one before. -/
def altAfter (last : ParseFailure) : List (Parser α) → Parser α
  | [] => fun _ _ => .failure last
  | p :: rest => fun tokens pos =>
    match p tokens pos with
    | .success value next => .success value next
    | .failure reason =>
      if reason.fatal then .failure reason else altAfter reason rest tokens pos

/-- Tries parsers in order.  The first success or fatal failure wins; if there is none, the
failure of the last parser stands.  With no parser at all the input counts as ended. -/
def alt : List (Parser α) → Parser α := altAfter (.recoverable .endOfInput)

end Parser

end TapeCompiler
