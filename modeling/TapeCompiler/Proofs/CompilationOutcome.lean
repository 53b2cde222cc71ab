import TapeCompiler.Compilation
import TapeCompiler.Proofs.ControlFlow
import TapeCompiler.Proofs.Layout

/-! # What a compilation comes to

A compilation stops at the first stage that reports an error, and then it has nothing to show.  So
there are three outcomes: the text is refused, the choice of tape is bad, or everything that was asked
for is written as far as there are writers.

* `TapeOptions.faults`: what is wrong with a choice of tape, told from the choices made.
* `CompileOptions.Asks`, `Writers.Has`: which artifacts are asked for, and which can be written.
* `compileText_fails_fast`: the three outcomes, and when each is met.
-/

namespace TapeCompiler

/-! ## The choice of tape -/

namespace TapeOptions

/-- The choices that are bad: a number of cells that is no positive safe integer, and a stride that is
neither 1 nor 8.  What is not chosen is never bad. -/
def faults (o : TapeOptions) : List OptionError :=
  (o.cells.filter fun n => !n.isCount).toList.map .badCells ++
    (o.stride.filter fun n => n ≠ .integer 1 ∧ n ≠ .integer 8).toList.map .badStride

theorem isCellCount_eq_isCount (n : Number) : isCellCount n = n.isCount := by
  cases n with
  | integer i =>
    simp only [isCellCount, Number.isCount, ← Bool.decide_and, decide_eq_decide]
    omega
  | fraction i h => rfl
  | infinity negative => rfl

theorem ofNumber?_eq_none_iff (n : Number) :
    Stride.ofNumber? n = none ↔ n ≠ .integer 1 ∧ n ≠ .integer 8 := by
  unfold Stride.ofNumber?
  split
  · simp
  · simp
  · rename_i hone height
    simp only [true_iff]
    exact ⟨hone, height⟩

theorem cellErrors_getD (o : TapeOptions) :
    cellErrors (o.cells.getD defaultCells) =
      (o.cells.filter fun n => !n.isCount).toList.map .badCells := by
  cases o.cells with
  | none => rfl
  | some n =>
    rw [Option.getD_some, cellErrors, isCellCount_eq_isCount]
    cases hn : n.isCount <;> simp [Option.filter, hn]

/-- A choice of tape is accepted exactly if nothing is wrong with it, and else all that is wrong with
it is reported. -/
theorem resolve_cases (o : TapeOptions) :
    (o.faults = [] ∧ ∃ layout, o.resolve = .ok layout) ∨
      (o.faults ≠ [] ∧ o.resolve = .error o.faults) := by
  have hstride : (o.stride.filter fun n => n ≠ .integer 1 ∧ n ≠ .integer 8).toList =
      if Stride.ofNumber? (o.stride.getD defaultStride) = none then
        [o.stride.getD defaultStride] else [] := by
    cases o.stride with
    | none => rfl
    | some n =>
      simp only [Option.getD_some, ofNumber?_eq_none_iff, Option.filter, decide_eq_true_eq]
      split <;> rfl
  rw [faults, hstride, ← cellErrors_getD, resolve]
  cases Stride.ofNumber? (o.stride.getD defaultStride) with
  | none => exact .inr ⟨by simp, rfl⟩
  | some stride =>
    cases cellErrors (o.cells.getD defaultCells) with
    | nil => exact .inl ⟨rfl, _, rfl⟩
    | cons error rest => exact .inr ⟨by simp, by simp⟩

end TapeOptions

/-! ## What is asked for and what can be written -/

/-- Whether an artifact is asked for.  The module is also what is written when nothing is said about
any artifact, and to decline one is to say something. -/
def CompileOptions.Asks (o : CompileOptions) : ArtifactKind → Prop
  | .tokens => o.tokens = some true
  | .ast => o.ast = some true
  | .qbe => o.qbe = some true ∨ o.tokens = none ∧ o.ast = none ∧ o.qbe = none

def Writers.Has (w : Writers) : ArtifactKind → Prop
  | .tokens => w.tokens = true
  | .ast => w.ast = true
  | .qbe => True

theorem CompileOptions.wants_iff (o : CompileOptions) (kind : ArtifactKind) :
    o.wants kind ↔ o.Asks kind := by
  cases kind with
  | tokens => cases h : o.tokens <;> simp [wants, Asks, h]
  | ast => cases h : o.ast <;> simp [wants, Asks, h]
  | qbe =>
    cases h : o.qbe with
    | none => simp [wants, Asks, h]
    | some chosen => simp [wants, Asks, h]

theorem Writers.missing?_eq_none_iff (w : Writers) (kind : ArtifactKind) :
    w.missing? kind = none ↔ w.Has kind := by
  cases kind <;> simp [missing?, Has]

instance (o : CompileOptions) : DecidablePred o.Asks :=
  fun kind => decidable_of_iff _ (o.wants_iff kind)

instance (w : Writers) : DecidablePred w.Has :=
  fun kind => decidable_of_iff _ (w.missing?_eq_none_iff kind)

namespace Compilation

/-- There is an error among the diagnostics. -/
def Fails (c : Compilation) : Prop := ∃ d ∈ c.diagnostics, d.isError

variable (options : CompileOptions) (writers : Writers)

/-- The artifacts that a compilation writes, in the order in which it does. -/
def writtenKinds : List ArtifactKind := order.filter fun k => options.Asks k ∧ writers.Has k

/-- The artifacts that are asked for in vain. -/
def skippedKinds : List ArtifactKind := order.filter fun k => options.Asks k ∧ ¬writers.Has k

variable {options writers} {file : String} {artifact : ArtifactKind → Artifact}

theorem filter_wanted {p : ArtifactKind → Prop} [DecidablePred p] {test : ArtifactKind → Bool}
    (htest : ∀ kind, test kind ↔ p kind) :
    (order.filter options.wants).filter test = order.filter fun k => options.Asks k ∧ p k := by
  rw [List.filter_filter]
  apply List.filter_congr
  intro kind _
  rw [Bool.eq_iff_iff, Bool.and_eq_true, decide_eq_true_eq, htest, options.wants_iff, and_comm]

theorem artifacts_write :
    (write options writers file artifact).artifacts =
      (writtenKinds options writers).map artifact := by
  have hkinds : (order.filter options.wants).filter (fun k => (writers.missing? k).isNone) =
      writtenKinds options writers :=
    filter_wanted fun kind => by rw [Option.isNone_iff_eq_none, writers.missing?_eq_none_iff]
  rw [← hkinds]
  rfl

theorem diagnostics_write :
    (write options writers file artifact).diagnostics =
      (skippedKinds options writers).map fun kind =>
        .warning .unclassified ((writers.missing? kind).getD "") file := by
  have hkinds : (order.filter options.wants).filter (fun k => (writers.missing? k).isSome) =
      skippedKinds options writers :=
    filter_wanted fun kind => by rw [Option.isSome_iff_ne_none, Ne, writers.missing?_eq_none_iff]
  rw [← hkinds, write]
  -- A kind has at most one warning, so leaving out the others first changes nothing.
  induction order.filter options.wants with
  | nil => rfl
  | cons kind rest ih => cases h : writers.missing? kind <;> simp_all

/-- The artifact of each kind. -/
def artifactOf (ending : LineEnding) (tokens : List Token) (program : List (Statement Span))
    (main : Qbe.Function) : ArtifactKind → Artifact
  | .tokens => .ofTokens ending tokens
  | .ast => .ofProgram ending program
  | .qbe => .ofModule ending ⟨[main]⟩

theorem kind_artifactOf (ending : LineEnding) (tokens : List Token)
    (program : List (Statement Span)) (main : Qbe.Function) (kind : ArtifactKind) :
    (artifactOf ending tokens program main kind).kind = kind := by
  cases kind <;> rfl

end Compilation

/-! ## The three outcomes -/

open Compilation (artifactOf writtenKinds skippedKinds)

theorem compileText_of_error {file : String} {text : List Char} {error : ParseError}
    (hparse : parse (lex file text) = .error error) (options : CompileOptions) (writers : Writers) :
    compileText file text options writers = ⟨[error.diagnostic file text], []⟩ := by
  simp only [compileText, parseProgram, hparse, Except.mapError]
  rfl

section Parsed

variable {file : String} {text : List Char} {program : List (Statement Span)}
  (hparse : parse (lex file text) = .ok program) {options : CompileOptions}

include hparse

theorem compileText_of_faults (hresolve : options.tape.resolve = .error options.tape.faults)
    (writers : Writers) :
    compileText file text options writers =
      ⟨options.tape.faults.map (OptionError.diagnostic file), []⟩ := by
  have hlower : Lowering.lower options.tape program = .error options.tape.faults := by
    rw [Lowering.lower, hresolve]
    rfl
  simp only [compileText, parseProgram, hparse, Except.mapError, hlower]
  rfl

theorem compileText_of_resolve {layout : Tape} (hresolve : options.tape.resolve = .ok layout)
    (writers : Writers) :
    compileText file text options writers =
      .write options writers file (artifactOf options.lineEnding.chosen (lex file text) program
        (Lowering.mainFunction layout program)) := by
  simp only [compileText, parseProgram, hparse, Except.mapError,
    Lowering.lower_eq_ok hresolve program]
  rfl

end Parsed

/-- A compilation has one of three outcomes.  A text that is refused gives one error, about a bracket
or the end of the text, and no artifacts.  Otherwise a bad choice of tape gives one error for each bad
choice, the number of cells first, and no artifacts.  Otherwise there is a function that was built
without a build error; exactly the artifacts that are asked for and have a writer are written, once
each and in a fixed order, and each of the others that are asked for gives a warning. -/
theorem compileText_fails_fast (file : String) (text : List Char) (options : CompileOptions)
    (writers : Writers) :
    ((∃ error, parse (lex file text) = .error error) ∧
      ∃ report, compileText file text options writers = ⟨[report], []⟩ ∧
        report.severity = .error ∧ (report.id = "BFQ100" ∨ report.id = "BFQ101")) ∨
    ((∃ program, parse (lex file text) = .ok program) ∧ options.tape.faults ≠ [] ∧
      compileText file text options writers =
        ⟨options.tape.faults.map fun e => ⟨"BFQ200", .error, e.message, file, none, none⟩, []⟩) ∨
    (∃ program layout main, parse (lex file text) = .ok program ∧ options.tape.faults = [] ∧
      options.tape.resolve = .ok layout ∧
      Qbe.Builds Lowering.emptyMain (Lowering.body layout program) main ∧
      (compileText file text options writers).artifacts.map Artifact.kind =
        writtenKinds options writers ∧
      (compileText file text options writers).artifacts = (writtenKinds options writers).map
        (artifactOf options.lineEnding.chosen (lex file text) program main) ∧
      ∃ note : ArtifactKind → String, (compileText file text options writers).diagnostics =
        (skippedKinds options writers).map fun kind =>
          ⟨"BFQ000", .warning, note kind, file, none, none⟩) := by
  cases hparse : parse (lex file text) with
  | error error =>
    refine .inl ⟨⟨error, rfl⟩, _, compileText_of_error hparse options writers, rfl, ?_⟩
    cases error with
    | unexpectedToken token => exact .inl rfl
    | endOfInput => exact .inr rfl
  | ok program =>
    rcases options.tape.resolve_cases with ⟨hfaults, layout, hresolve⟩ | ⟨hfaults, hresolve⟩
    · have hbuilds := Lowering.builds_body layout program
      rw [compileText_of_resolve hparse hresolve]
      refine .inr (.inr ⟨program, layout, _, rfl, hfaults, hresolve, hbuilds, ?_,
        Compilation.artifacts_write, _, Compilation.diagnostics_write⟩)
      rw [Compilation.artifacts_write, List.map_map]
      exact List.map_id'' (Compilation.kind_artifactOf _ _ _ _) _
    · exact .inr (.inl ⟨⟨program, rfl⟩, hfaults, compileText_of_faults hparse hresolve writers⟩)

/-- Two artifacts are asked for, and one of them has a writer. -/
example :
    compileText "x.b" ['+', '[', ']'] { tokens := some true, ast := some true } { tokens := false } =
      ⟨[⟨"BFQ000", .warning,
          "emitTokens=true but no token writer is configured; skipping token dump.", "x.b", none, none⟩],
        [⟨.ast, "Block\n  Add(1)\n  Loop\n    Block\n"⟩]⟩ := by
  decide +kernel

/-- Whoever declines the module gets nothing. -/
example : writtenKinds ⟨⟨none, none⟩, none, none, some false, .lf⟩ ⟨true, true⟩ = [] := by decide

end TapeCompiler
