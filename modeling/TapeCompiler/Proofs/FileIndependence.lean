import Mathlib.Data.List.Forall2
import TapeCompiler.Proofs.Reading
import TapeCompiler.Proofs.SameLexemes

/-! # The name of a file decides nothing

A compilation is told the name of its file.  The name goes into the span of every token, from there
into the notes of the tree, and into every diagnostic, but what is compiled does not depend on it.

* `lex_inFile`: the tokens of a text in another file are the same, with the other name.
* `compileText_ignores_file`: two compilations of a text give the same artifacts, and diagnostics
  that differ only in the name.
-/

namespace TapeCompiler

/-- The token at the same place of another file. -/
def Token.inFile (file : String) (t : Token) : Token :=
  { t with span := { t.span with file := file } }

/-- The diagnostic `d` is about the file `f`, and `e` says the same about the file `g`. -/
def Diagnostic.Renamed (f g : String) (d e : Diagnostic) : Prop :=
  d.file = f ∧ e.file = g ∧ e = { d with file := g }

theorem Tiles.inFile {f : String} {p : Cursor} {text : List Char} {ts : List Token}
    (h : Tiles f p text ts) (g : String) : Tiles g p text (ts.map (Token.inFile g)) := by
  induction h with
  | nil p => exact .nil p
  | skip hc _ ih => exact .skip hc ih
  | next hfront hover _ ih => exact .next hfront hover ih

theorem lex_inFile (f g : String) (text : List Char) :
    lex g text = (lex f text).map (Token.inFile g) :=
  (tiles_lex g text).unique ((tiles_lex f text).inFile g)

theorem ofTokens_inFile (ending : LineEnding) (tokens : List Token) (g : String) :
    Artifact.ofTokens ending (tokens.map (Token.inFile g)) = .ofTokens ending tokens := by
  -- A line of the dump shows where its token starts, but not in which file.
  have hline : Token.line ∘ Token.inFile g = Token.line := rfl
  rw [Artifact.ofTokens, Artifact.ofTokens, List.map_map, hline]

theorem ParseError.Matches.renamed {f g : String} {text : List Char} {error error' : ParseError}
    (h : Matches (lex f text) (lex g text) error error') :
    (error.diagnostic f text).Renamed f g (error'.diagnostic g text) := by
  cases h with
  | token ht ht' =>
    rw [lex_inFile f g, List.getElem?_map, ht] at ht'
    cases ht'
    exact ⟨rfl, rfl, rfl⟩
  | ended => exact ⟨rfl, rfl, rfl⟩

theorem forall₂_renamed {ι : Type} {f g : String} (xs : List ι) {d e : ι → Diagnostic}
    (h : ∀ x, (d x).Renamed f g (e x)) :
    List.Forall₂ (Diagnostic.Renamed f g) (xs.map d) (xs.map e) := by
  rw [List.forall₂_map_left_iff, List.forall₂_map_right_iff, List.forall₂_same]
  exact fun x _ => h x

/-- The name of the file never influences what is compiled.  Under two names a text has the same
artifacts, and as many diagnostics, each of which is the other one with the name exchanged. -/
theorem compileText_ignores_file (f g : String) (text : List Char) (options : CompileOptions)
    (writers : Writers) :
    (compileText f text options writers).artifacts =
        (compileText g text options writers).artifacts ∧
      List.Forall₂ (Diagnostic.Renamed f g) (compileText f text options writers).diagnostics
        (compileText g text options writers).diagnostics := by
  have hlexemes : (lex f text).map Token.lexeme = (lex g text).map Token.lexeme := by
    rw [lex_inFile f g, List.map_map]
    rfl
  rcases compileText_congr hlexemes options writers with
    ⟨error, error', hmatches, hf, hg⟩ | ⟨_, hf, hg⟩ | ⟨program, main, hf, hg⟩
  · rw [hf, hg]
    exact ⟨rfl, .cons hmatches.renamed .nil⟩
  · rw [hf, hg]
    exact ⟨rfl, forall₂_renamed _ fun fault => ⟨rfl, rfl, rfl⟩⟩
  · have hdump := ofTokens_inFile options.lineEnding.chosen (lex f text) g
    rw [← lex_inFile f g text] at hdump
    rw [hf, hg, Compilation.artifacts_write, Compilation.artifacts_write,
      Compilation.diagnostics_write, Compilation.diagnostics_write]
    refine ⟨List.map_congr_left fun kind _ => ?_, forall₂_renamed _ fun kind => ⟨rfl, rfl, rfl⟩⟩
    cases kind with
    | tokens => exact hdump.symm
    | ast => rfl
    | qbe => rfl

end TapeCompiler
