import TapeCompiler.Lowering
import TapeCompiler.Qbe.Printer
import TapeCompiler.Text.LineEnding
import TapeCompiler.Tree.Outline

/-! # Artifacts

What a compilation writes: the dump of the tokens, the outline of the tree, or the text of the
module.
-/

namespace TapeCompiler

inductive ArtifactKind where
  | tokens
  | ast
  | qbe
deriving DecidableEq

def ArtifactKind.name : ArtifactKind → String
  | .tokens => "tokens"
  | .ast => "ast"
  | .qbe => "qbe"

def ArtifactKind.ofName? (name : String) : Option ArtifactKind :=
  if name = "tokens" then some .tokens
  else if name = "ast" then some .ast
  else if name = "qbe" then some .qbe
  else none

structure Artifact where
  kind : ArtifactKind
  text : String
deriving DecidableEq

namespace Artifact

variable {α : Type}

/-- The dump of a token list, one token a line. -/
def ofTokens (ending : LineEnding) (tokens : List Token) : Artifact :=
  ⟨.tokens, ending.apply (String.join (tokens.map Token.line))⟩

def ofProgram (ending : LineEnding) (program : List (Statement α)) : Artifact :=
  ⟨.ast, ending.apply (Outline.text program)⟩

def ofModule (ending : LineEnding) (module : Qbe.Module) : Artifact :=
  ⟨.qbe, ending.apply module.text⟩

end Artifact

end TapeCompiler
