import TapeCompiler.Proofs.CompilationOutcome
import TapeCompiler.Proofs.Notes
import TapeCompiler.Proofs.ParseErrors

/-! # Texts with the same lexemes

Two compilations go side by side for as long as their lexemes agree.  Whether the tokens are accepted,
the tree up to its notes, the outline and the function all depend on the lexemes alone; the tokens
themselves are seen only in the dump and in where an error is reported.

* `parse_of_lexemes`: the tree of a token list is the one that is written like it.
* `ParseError.Matches`: two errors at the same place of two token lists.
* `parse_congr`: parsing two token lists with the same lexemes.
* `compileText_congr`: compiling two texts with the same lexemes, as three joint outcomes.
-/

namespace TapeCompiler

open Lexeme (bare)
open Statement (lexemesAll eraseAll)
open Compilation (artifactOf)

/-! ## Parsing -/

/-- Tokens that are written like a tree are parsed as that tree. -/
theorem parse_of_lexemes {α : Type} {tokens : List Token} {tree : List (Statement α)}
    (h : tokens.map Token.lexeme = lexemesAll tree) :
    ∃ program, parse tokens = .ok program ∧ eraseAll program = eraseAll tree := by
  have hbalanced := Statement.lexemesAll_balanced tree
  rw [← h] at hbalanced
  obtain ⟨program, hparse⟩ := (parse_isOk_iff tokens).2 hbalanced
  have hsame : lexemesAll program ++ [] = lexemesAll tree ++ [] := by
    rw [lexemesAll_of_parse hparse, h]
  exact ⟨program, hparse, (Statement.lexemesAll_unique (.inl rfl) (.inl rfl) hsame).1⟩

/-- Both errors are about the tokens at one place of their lists, or both about the end. -/
inductive ParseError.Matches (tokens tokens' : List Token) : ParseError → ParseError → Prop where
  | token {i : Nat} {t t' : Token} :
      tokens[i]? = some t → tokens'[i]? = some t' →
      Matches tokens tokens' (.unexpectedToken t) (.unexpectedToken t')
  | ended : Matches tokens tokens' .endOfInput .endOfInput

section Tokens

variable {tokens tokens' : List Token}
  (hlexemes : tokens.map Token.lexeme = tokens'.map Token.lexeme)

include hlexemes

theorem exists_lexeme_eq {i : Nat} {t : Token} (ht : tokens[i]? = some t) :
    ∃ t', tokens'[i]? = some t' ∧ t'.lexeme = t.lexeme := by
  have hplace : (tokens'.map Token.lexeme)[i]? = some t.lexeme := by
    rw [← hlexemes, List.getElem?_map, ht]
    rfl
  rwa [List.getElem?_map, Option.map_eq_some_iff] at hplace

/-- Matching errors are worded alike. -/
theorem ParseError.Matches.report_eq {error error' : ParseError}
    (h : Matches tokens tokens' error error') :
    error.code = error'.code ∧ error.message = error'.message := by
  cases h with
  | @token i t t' ht ht' =>
    obtain ⟨s, hs, hlexeme⟩ := exists_lexeme_eq hlexemes ht
    obtain rfl := Option.some.inj (hs.symm.trans ht')
    -- The wording looks at the lexeme of the token and not at its span.
    obtain ⟨lexeme, span⟩ := t
    obtain ⟨_, span'⟩ := s
    cases hlexeme
    exact ⟨rfl, rfl⟩
  | ended => exact ⟨rfl, rfl⟩

theorem parse_congr :
    (∃ program program', parse tokens = .ok program ∧ parse tokens' = .ok program' ∧
        eraseAll program = eraseAll program') ∨
      (∃ error error', parse tokens = .error error ∧ parse tokens' = .error error' ∧
        ParseError.Matches tokens tokens' error error') := by
  cases hparse : parse tokens with
  | ok program =>
    -- The other tokens are written like the tree that these were parsed as.
    have hwritten := lexemesAll_of_parse hparse
    rw [hlexemes] at hwritten
    obtain ⟨program', hparse', herase⟩ := parse_of_lexemes hwritten.symm
    exact .inl ⟨program, program', rfl, hparse', herase.symm⟩
  | error error =>
    refine .inr ⟨error, ?_⟩
    rcases (parse_eq_error_iff tokens error).1 hparse with ⟨i, t, hi, ht, rfl⟩ | hopen
    · obtain ⟨t', ht', _⟩ := exists_lexeme_eq hlexemes ht
      rw [hlexemes] at hi
      have hparse' := (parse_eq_error_iff tokens' _).2 (.inl ⟨i, t', hi, ht', rfl⟩)
      exact ⟨.unexpectedToken t', rfl, hparse', .token ht ht'⟩
    · rw [hlexemes] at hopen
      have hparse' := (parse_eq_error_iff tokens' error).2 (.inr hopen)
      obtain ⟨_, _, rfl⟩ := hopen
      exact ⟨.endOfInput, rfl, hparse', .ended⟩

end Tokens

/-! ## Compiling -/

theorem Compilation.artifactOf_congr {program program' : List (Statement Span)}
    (h : eraseAll program = eraseAll program') (ending : LineEnding) (tokens : List Token)
    (main : Qbe.Function) :
    artifactOf ending tokens program main = artifactOf ending tokens program' main := by
  funext kind
  cases kind with
  | tokens => rfl
  | ast => simp only [artifactOf, Artifact.ofProgram, Outline.text_congr h]
  | qbe => rfl

/-- Two texts with the same lexemes are refused with matching errors, or meet the same bad choice of
tape, or have their artifacts made of one tree and one function. -/
theorem compileText_congr {f g : String} {text text' : List Char}
    (hlexemes : (lex f text).map Token.lexeme = (lex g text').map Token.lexeme)
    (options : CompileOptions) (writers : Writers) :
    (∃ error error', ParseError.Matches (lex f text) (lex g text') error error' ∧
        compileText f text options writers = ⟨[error.diagnostic f text], []⟩ ∧
        compileText g text' options writers = ⟨[error'.diagnostic g text'], []⟩) ∨
      (options.tape.faults ≠ [] ∧
        compileText f text options writers =
          ⟨options.tape.faults.map (OptionError.diagnostic f), []⟩ ∧
        compileText g text' options writers =
          ⟨options.tape.faults.map (OptionError.diagnostic g), []⟩) ∨
      (∃ program main,
        compileText f text options writers = .write options writers f
          (artifactOf options.lineEnding.chosen (lex f text) program main) ∧
        compileText g text' options writers = .write options writers g
          (artifactOf options.lineEnding.chosen (lex g text') program main)) := by
  rcases parse_congr hlexemes with ⟨program, program', hparse, hparse', herase⟩ |
    ⟨error, error', hparse, hparse', hmatches⟩
  · rcases options.tape.resolve_cases with ⟨_, layout, hresolve⟩ | ⟨hfaults, hresolve⟩
    · have hmain := Lowering.mainFunction_congr herase layout
      refine .inr (.inr ⟨program, Lowering.mainFunction layout program,
        compileText_of_resolve hparse hresolve writers, ?_⟩)
      rw [compileText_of_resolve hparse' hresolve writers, ← hmain,
        Compilation.artifactOf_congr herase]
    · exact .inr (.inl ⟨hfaults, compileText_of_faults hparse hresolve writers,
        compileText_of_faults hparse' hresolve writers⟩)
  · exact .inl ⟨error, error', hmatches, compileText_of_error hparse options writers,
      compileText_of_error hparse' options writers⟩

end TapeCompiler
