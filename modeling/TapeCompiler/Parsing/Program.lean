import TapeCompiler.Diagnostic.Basic
import TapeCompiler.Parsing.Statement
import TapeCompiler.Token.Lexer

/-! # Parsing a source file

`parseProgram` reads a text and parses it.  A text that is refused gives one diagnostic: at
the offending token, or behind the last character when the text ends inside a loop.
-/

namespace TapeCompiler

namespace ParseError

/-- What the report of a parse error is about. -/
def code : ParseError → ReportCode
  | .unexpectedToken _ => .unexpectedToken
  | .endOfInput => .endOfInput

/-- Where a parse error in a text is reported. -/
def position (text : List Char) : ParseError → Position
  | .unexpectedToken token => token.span.start
  | .endOfInput => (Cursor.endOf text).position

def diagnostic (file : String) (text : List Char) (e : ParseError) : Diagnostic :=
  let place := e.position text
  { Diagnostic.error e.code e.message file with
    line := some place.line, column := some place.column }

end ParseError

/-- The tokens of a source file and its program, or the report that it has none. -/
structure ParsedFile where
  tokens : List Token
  program : Except Diagnostic (List (Statement Span))

def parseProgram (file : String) (text : List Char) : ParsedFile :=
  let tokens := lex file text
  ⟨tokens, (parse tokens).mapError (ParseError.diagnostic file text)⟩

end TapeCompiler
