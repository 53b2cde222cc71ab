import TapeCompiler.Parsing.Basic
import TapeCompiler.Tree.Basic

/-! # Parsing statements

`readBlock` reads statements for as long as it can and tells what stopped it; `readStatement`
reads one statement from its first token.  Both work on the tokens that are left and say how
many of them they took, so no position is carried around.

A loop is refused with what stopped its body, unless the tokens ran out.  Hence an error
inside nested loops is reported as it is, whatever the depth.

* `readBlock_cons`: a block is its first statement and the block behind it.
* `parseBlock`: a block from a position in a token list.
* `parseStatement`: a statement from a position, as a choice between two parsers.
* `parse`: a whole token list, all of which must belong to the outer block.
-/

namespace TapeCompiler

/-- The outcome of reading a statement: the statement and how many tokens it took beyond its
first, or a failure. -/
inductive StatementReading where
  | taken (statement : Statement Span) (more : Nat)
  | refused (reason : ParseFailure)

/-- The outcome of reading a block: its statements, how many tokens they took, and what
stopped it. -/
structure BlockReading where
  statements : List (Statement Span)
  used : Nat
  stop : ParseFailure

/-- An empty block. -/
def BlockReading.stopped (reason : ParseFailure) : BlockReading := ⟨[], 0, reason⟩

/-- A block with one more statement, of `n` tokens, in front. -/
def BlockReading.push (s : Statement Span) (n : Nat) (b : BlockReading) : BlockReading :=
  ⟨s :: b.statements, n + b.used, b.stop⟩

/-- What a token can start. -/
inductive Opening where
  | simple (statement : Statement Span)
  | loop
  | nothing

def Token.opening (t : Token) : Opening :=
  match t.lexeme with
  | .counted command count => .simple (.counted command count t.span)
  | .bare .read => .simple (.read t.span)
  | .bare .write => .simple (.write t.span)
  | .bare .loopOpen => .loop
  | .bare .loopClose => .nothing

/-- Ends the loop that `first` opened and whose body is `inner`, looking at the tokens behind the
body. -/
def closeLoop (first : Token) (inner : BlockReading) : List Token → StatementReading
  | [] => .refused (.recoverable .endOfInput)
  | close :: _ =>
    if close.lexeme = .bare .loopClose then
      .taken (.loop inner.statements (first.span.join close.span)) (inner.used + 1)
    else
      .refused inner.stop

/-- Reads statements until one is refused. -/
def readBlock (tokens : List Token) : BlockReading :=
  match tokens with
  | [] => .stopped (.recoverable .endOfInput)
  | first :: rest =>
    match first.opening with
    | .simple s => (readBlock rest).push s 1
    | .nothing => .stopped (.recoverable (.unexpectedToken first))
    | .loop =>
      let inner := readBlock rest
      match closeLoop first inner (rest.drop inner.used) with
      | .refused reason => .stopped reason
      | .taken s more => (readBlock (rest.drop more)).push s (more + 1)
termination_by tokens.length
decreasing_by
  · simp
  · simp
  · simp only [List.length_drop, List.length_cons]; omega

/-- Reads the statement that starts with the token `first`. -/
def readStatement (first : Token) (rest : List Token) : StatementReading :=
  match first.opening with
  | .simple s => .taken s 0
  | .nothing => .refused (.recoverable (.unexpectedToken first))
  | .loop =>
    let inner := readBlock rest
    closeLoop first inner (rest.drop inner.used)

/-- A block is its first statement and the block behind it, or empty when there is no first
statement. -/
theorem readBlock_cons (first : Token) (rest : List Token) :
    readBlock (first :: rest) =
      match readStatement first rest with
      | .refused reason => .stopped reason
      | .taken s more => (readBlock (rest.drop more)).push s (more + 1) := by
  rw [readBlock, readStatement]
  cases first.opening with
  | simple s => rfl
  | nothing => rfl
  | loop => rfl

/-- What parsing a block returns: the statements and the span that they cover, the position of the
token that ended the block, and why it could not go on. -/
structure BlockResult where
  statements : List (Statement Span)
  span : Option Span
  pos : Number
  stop : ParseFailure

/-- Parses as many statements as there are.  This cannot fail. -/
def parseBlock (tokens : List Token) (pos : Number) : BlockResult :=
  let block := readBlock (tokensFrom tokens pos)
  ⟨block.statements, blockSpan? block.statements, positionAfter pos block.used, block.stop⟩

/-- Parses a statement of one token. -/
def simpleStatement : Parser (Statement Span) := fun tokens pos =>
  match tokensFrom tokens pos with
  | [] => .failure (.atHead [])
  | token :: rest =>
    match token.opening with
    | .simple s => .success s (positionAfter pos 1)
    | _ => .failure (.atHead (token :: rest))

/-- Parses a loop.  If another token stands in the place of its close, the failure is what stopped the
body and not the missing bracket. -/
def loopStatement : Parser (Statement Span) := fun tokens pos =>
  match Parser.expect (.bare .loopOpen) tokens pos with
  | .failure reason => .failure reason
  | .success first next =>
    let inner := parseBlock tokens next
    match Parser.expect (.bare .loopClose) tokens inner.pos with
    | .success close behind =>
      .success (.loop inner.statements (first.span.join close.span)) behind
    | .failure missing =>
      .failure (if (tokensFrom tokens inner.pos).isEmpty then missing else inner.stop)

def parseStatement : Parser (Statement Span) := Parser.alt [simpleStatement, loopStatement]

def parse (tokens : List Token) : Except ParseError (List (Statement Span)) :=
  let block := readBlock tokens
  if block.used < tokens.length then .error block.stop.error else .ok block.statements

end TapeCompiler
