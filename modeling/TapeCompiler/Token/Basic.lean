import TapeCompiler.Number.Text
import TapeCompiler.Source.Position

/-! # Tokens

The tape language has eight commands.  Four of them are *counted*: a run of the same
character is one token that carries the length of the run.  The other four are *bare*: each
character is a token of its own.

A `Lexeme` is what a token says, without its place; a `Token` is a lexeme and its span.
-/

namespace TapeCompiler

/-- The commands that come in runs. -/
inductive Counted where
  | moveLeft
  | moveRight
  | increment
  | decrement
deriving DecidableEq

/-- The commands that stand alone. -/
inductive Bare where
  | read
  | write
  | loopOpen
  | loopClose
deriving DecidableEq

namespace Counted

def char : Counted → Char
  | .moveLeft => '<'
  | .moveRight => '>'
  | .increment => '+'
  | .decrement => '-'

/-- The counted command that a character stands for. -/
def ofChar? : Char → Option Counted
  | '<' => some .moveLeft
  | '>' => some .moveRight
  | '+' => some .increment
  | '-' => some .decrement
  | _ => none

def tokenName : Counted → String
  | .moveLeft => "MoveLeft"
  | .moveRight => "MoveRight"
  | .increment => "Increment"
  | .decrement => "Decrement"

end Counted

namespace Bare

def char : Bare → Char
  | .read => ','
  | .write => '.'
  | .loopOpen => '['
  | .loopClose => ']'

/-- The bare command that a character stands for. -/
def ofChar? : Char → Option Bare
  | ',' => some .read
  | '.' => some .write
  | '[' => some .loopOpen
  | ']' => some .loopClose
  | _ => none

def tokenName : Bare → String
  | .read => "Read"
  | .write => "Write"
  | .loopOpen => "LoopOpen"
  | .loopClose => "LoopClose"

end Bare

/-- The kind of a token: its command without a count. -/
inductive Kind where
  | counted (command : Counted)
  | bare (command : Bare)
deriving DecidableEq

/-- What a token says. -/
inductive Lexeme where
  | counted (command : Counted) (count : Number)
  | bare (command : Bare)
deriving DecidableEq

/-- A lexeme and the stretch of text that it was read from. -/
structure Token where
  lexeme : Lexeme
  span : Span
deriving DecidableEq

namespace Lexeme

def kind : Lexeme → Kind
  | .counted command _ => .counted command
  | .bare command => .bare command

def isCounted : Lexeme → Bool
  | .counted _ _ => true
  | .bare _ => false

/-- The name of a lexeme, with its count in brackets where it has one. -/
def describe : Lexeme → String
  | .counted command count => command.tokenName ++ "(" ++ count.text ++ ")"
  | .bare command => command.tokenName

end Lexeme

namespace Token

def kind (t : Token) : Kind := t.lexeme.kind

def describe (t : Token) : String := t.lexeme.describe

/-- A line of the token dump: the token and where it starts. -/
def line (t : Token) : String :=
  t.describe ++ " @" ++ t.span.start.line.text ++ ":" ++
    t.span.start.column.text ++ "\n"

end Token

end TapeCompiler
