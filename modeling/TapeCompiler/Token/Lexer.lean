import TapeCompiler.Source.Cursor
import TapeCompiler.Token.Basic

/-! # Lexing

`lex` reads a text from left to right, one character at a time.  The state of the reader is
a `Scan`: where it stands, the run of a counted command that is still open, and the tokens
finished so far.  Any character other than the one of the open run closes it, and a
character that is no command is commentary.

A text is read by a left fold, so reading `a ++ b` is reading `b` from the state that `a`
leaves.
-/

namespace TapeCompiler

/-- A run of a counted command that may still grow. -/
structure OpenRun where
  command : Counted
  count : Nat
  start : Cursor
deriving DecidableEq

/-- The state of the reader.  `tokens` has the latest token first. -/
structure Scan where
  here : Cursor
  run : Option OpenRun
  tokens : List Token
deriving DecidableEq

namespace Scan

def start : Scan := ⟨.start, none, []⟩

/-- Ends the open run, if there is one, where the reader stands. -/
def close (file : String) (s : Scan) : Scan :=
  match s.run with
  | none => s
  | some run =>
    let token : Token := ⟨.counted run.command (.ofNat run.count), .between file run.start s.here⟩
    { s with run := none, tokens := token :: s.tokens }

/-- Reads the character of a counted command: the open run grows, or a new one starts. -/
def extend (file : String) (s : Scan) (command : Counted) (next : Cursor) : Scan :=
  match s.run with
  | some run =>
    if run.command = command then
      { s with here := next, run := some { run with count := run.count + 1 } }
    else
      { s.close file with here := next, run := some ⟨command, 1, s.here⟩ }
  | none => { s with here := next, run := some ⟨command, 1, s.here⟩ }

def step (file : String) (s : Scan) (c : Char) : Scan :=
  let next := s.here.step c
  match Counted.ofChar? c with
  | some command => s.extend file command next
  | none =>
    let closed := s.close file
    match Bare.ofChar? c with
    | some command =>
      { closed with
        here := next, tokens := ⟨.bare command, .between file s.here next⟩ :: closed.tokens }
    | none => { closed with here := next }

/-- The tokens read, in the order of the text. -/
def finish (file : String) (s : Scan) : List Token := (s.close file).tokens.reverse

end Scan

def lex (file : String) (text : List Char) : List Token :=
  (text.foldl (Scan.step file) .start).finish file

end TapeCompiler
