import TapeCompiler.Proofs.Reading
import TapeCompiler.Proofs.SameLexemes

/-! # Commentary is inert

Characters that are no commands may be put anywhere into a text, except into a run, which they would
cut in two.  They move everything behind them to other positions, so the tokens change, but not their
lexemes.  What is compiled stays the same, and errors are merely reported elsewhere.

* `lexemes_insert`: the lexemes of a text with commentary put in.
* `Compilation.artifactsOf`, `Diagnostic.unplaced`: what two compilations are compared by.
* `commentary_is_inert`: compilations with and without the commentary.
-/

namespace TapeCompiler

variable {a b c : List Char}

/-! ## Lexemes -/

theorem lexemes_insert (hc : ∀ x ∈ c, Commentary x) (hborder : ¬Fuses a b) (file : String) :
    (lex file (a ++ c ++ b)).map Token.lexeme = (lex file (a ++ b)).map Token.lexeme := by
  have ha := reads_lex file a
  have hb := reads_lex file b
  have hac := ha.append (.of_commentary hc) (Fuses.not_commentary hc)
  rw [List.append_nil] at hac
  have hinserted := hac.append hb fun hfuses => hborder (hfuses.of_append_commentary hc).2
  rw [hinserted.lexemes_lex, (ha.append hb hborder).lexemes_lex]

/-! ## Compilations -/

/-- What a diagnostic says, apart from the line and the column. -/
def Diagnostic.unplaced (d : Diagnostic) : Diagnostic := { d with line := none, column := none }

theorem ParseError.unplaced_diagnostic (e : ParseError) (file : String) (text : List Char) :
    (e.diagnostic file text).unplaced = .error e.code e.message file := rfl

namespace Compilation

/-- The artifacts of a kind. -/
def artifactsOf (c : Compilation) (kind : ArtifactKind) : List Artifact :=
  c.artifacts.filter fun artifact => artifact.kind = kind

theorem fails_iff_unplaced (c : Compilation) :
    c.Fails ↔ ∃ d ∈ c.diagnostics.map Diagnostic.unplaced, d.isError := by
  constructor
  · rintro ⟨d, hd, herror⟩
    exact ⟨d.unplaced, List.mem_map_of_mem hd, herror⟩
  · rintro ⟨_, hmem, herror⟩
    obtain ⟨d, hd, rfl⟩ := List.mem_map.1 hmem
    exact ⟨d, hd, herror⟩

variable {options : CompileOptions} {writers : Writers} {file : String} {kind : ArtifactKind}
  {artifact artifact' : ArtifactKind → Artifact}

theorem artifactsOf_write (hkinds : ∀ k, (artifact k).kind = k) :
    (write options writers file artifact).artifactsOf kind =
      ((writtenKinds options writers).filter (· = kind)).map artifact := by
  rw [artifactsOf, artifacts_write, List.filter_map]
  simp only [Function.comp_def, hkinds]

theorem artifactsOf_write_congr (hkinds : ∀ k, (artifact k).kind = k)
    (hkinds' : ∀ k, (artifact' k).kind = k) (h : artifact kind = artifact' kind) :
    (write options writers file artifact).artifactsOf kind =
      (write options writers file artifact').artifactsOf kind := by
  rw [artifactsOf_write hkinds, artifactsOf_write hkinds']
  apply List.map_congr_left
  intro k hk
  have hkind : k = kind := by simpa using (List.mem_filter.1 hk).2
  rw [hkind, h]

end Compilation

/-- Commentary may be put between two texts unless it cuts a run in two.  The compilation then fails
exactly if it failed before, it has the same outline and the same module, and its diagnostics are the
same and in the same order, except that they may be reported elsewhere. -/
theorem commentary_is_inert (hc : ∀ x ∈ c, x ∉ commands) (hborder : ¬Fuses a b) (file : String)
    (options : CompileOptions) (writers : Writers) :
    ((compileText file (a ++ c ++ b) options writers).Fails ↔
        (compileText file (a ++ b) options writers).Fails) ∧
      (∀ kind, kind ≠ .tokens →
        (compileText file (a ++ c ++ b) options writers).artifactsOf kind =
          (compileText file (a ++ b) options writers).artifactsOf kind) ∧
      (compileText file (a ++ c ++ b) options writers).diagnostics.map Diagnostic.unplaced =
        (compileText file (a ++ b) options writers).diagnostics.map Diagnostic.unplaced := by
  have hlexemes := lexemes_insert (fun x hx => commentary_of_not_mem (hc x hx)) hborder file
  rw [Compilation.fails_iff_unplaced, Compilation.fails_iff_unplaced]
  rcases compileText_congr hlexemes options writers with
    ⟨error, error', hmatches, hwith, hwithout⟩ | ⟨_, hwith, hwithout⟩ |
    ⟨program, main, hwith, hwithout⟩
  · obtain ⟨hcode, hmessage⟩ := hmatches.report_eq hlexemes
    have hsame : (error.diagnostic file (a ++ c ++ b)).unplaced =
        (error'.diagnostic file (a ++ b)).unplaced := by
      simp only [ParseError.unplaced_diagnostic, hcode, hmessage]
    rw [hwith, hwithout, List.map_singleton, List.map_singleton, hsame]
    exact ⟨Iff.rfl, fun kind _ => rfl, rfl⟩
  · rw [hwith, hwithout]
    exact ⟨Iff.rfl, fun kind _ => rfl, rfl⟩
  · rw [hwith, hwithout, Compilation.diagnostics_write, Compilation.diagnostics_write]
    refine ⟨Iff.rfl, fun kind hkind => ?_, rfl⟩
    apply Compilation.artifactsOf_write_congr (Compilation.kind_artifactOf _ _ _ _)
      (Compilation.kind_artifactOf _ _ _ _)
    -- Only the dump is made of the tokens.
    cases kind with
    | tokens => exact absurd rfl hkind
    | ast => rfl
    | qbe => rfl

/-- A note at the border of two runs inside a loop. -/
theorem commentary_is_inert_between_runs :
    (∀ x ∈ [' ', '#', '😀', '\n'], x ∉ commands) ∧ ¬Fuses ['[', '-'] ['>', '+', ']'] ∧
      ((compileText "move.b" (['[', '-'] ++ [' ', '#', '😀', '\n'] ++ ['>', '+', ']']) {} {}).Fails ↔
        (compileText "move.b" (['[', '-'] ++ ['>', '+', ']']) {} {}).Fails) ∧
      (∀ kind, kind ≠ .tokens →
        (compileText "move.b" (['[', '-'] ++ [' ', '#', '😀', '\n'] ++ ['>', '+', ']'])
            {} {}).artifactsOf kind =
          (compileText "move.b" (['[', '-'] ++ ['>', '+', ']']) {} {}).artifactsOf kind) ∧
      (compileText "move.b" (['[', '-'] ++ [' ', '#', '😀', '\n'] ++ ['>', '+', ']'])
          {} {}).diagnostics.map Diagnostic.unplaced =
        (compileText "move.b" (['[', '-'] ++ ['>', '+', ']']) {} {}).diagnostics.map
          Diagnostic.unplaced := by
  have hnote : ∀ x ∈ [' ', '#', '😀', '\n'], x ∉ commands := by simp [commands]
  have hborder : ¬Fuses ['[', '-'] ['>', '+', ']'] := by
    rintro ⟨command, hlast, hhead⟩
    cases command <;> simp [Counted.char] at hlast hhead
  exact ⟨hnote, hborder, commentary_is_inert hnote hborder "move.b" {} {}⟩

end TapeCompiler
