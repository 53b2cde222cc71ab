import Mathlib.Data.List.Forall2
import TapeCompiler.Proofs.CompilationOutcome
import TapeCompiler.Proofs.OutlinedTrees

/-! # Line endings

The characters of a source never get into what is written: of a text there remain its commands, their
counts and where they stand.  So no artifact holds a carriage return, even if the source does, and
the one in front of each line feed can be taken away again.

* `Text.Returnless`: a text without a carriage return, with a lemma for each printer.
* `Text.withReturns`, `Text.withoutReturns`: from one line ending to the other and back.
* `crlf_reencodes_lf`: the compilations of a text with the two line endings.
-/

namespace TapeCompiler

namespace Text

/-! ## Texts without carriage returns -/

/-- A text without a carriage return. -/
def Returnless (text : String) : Prop := '\r' ∉ text.toList

instance (text : String) : Decidable (Returnless text) :=
  inferInstanceAs (Decidable ('\r' ∉ text.toList))

@[simp] theorem returnless_append {a b : String} :
    Returnless (a ++ b) ↔ Returnless a ∧ Returnless b := by
  simp [Returnless]

theorem returnless_join {texts : List String} (h : ∀ text ∈ texts, Returnless text) :
    Returnless (String.join texts) := by
  rw [Returnless, String.toList_join, List.mem_flatMap]
  rintro ⟨text, htext, hmem⟩
  exact h text htext hmem

theorem returnless_intercalate {glue : String} (hglue : Returnless glue) {texts : List String}
    (h : ∀ text ∈ texts, Returnless text) : Returnless (glue.intercalate texts) := by
  induction texts with
  | nil => simp [Returnless]
  | cons text rest ih =>
    obtain ⟨htext, hrest⟩ := List.forall_mem_cons.1 h
    by_cases hne : rest = []
    · simpa [hne] using htext
    · rw [String.intercalate_cons_of_ne_nil hne]
      simp [htext, hglue, ih hrest]

/-! ## From one line ending to the other -/

/-- Every line feed gets a carriage return in front of it. -/
def withReturns (text : List Char) : List Char :=
  text.flatMap fun c => if c = '\n' then ['\r', '\n'] else [c]

/-- Every carriage return in front of a line feed is taken away. -/
def withoutReturns : List Char → List Char
  | '\r' :: '\n' :: rest => '\n' :: withoutReturns rest
  | c :: rest => c :: withoutReturns rest
  | [] => []

theorem withoutReturns_cons {c : Char} (hc : c ≠ '\r') (rest : List Char) :
    withoutReturns (c :: rest) = c :: withoutReturns rest := by
  rw [withoutReturns]
  rintro _ rfl
  exact absurd rfl hc

theorem withoutReturns_withReturns {text : List Char} (h : '\r' ∉ text) :
    withoutReturns (withReturns text) = text := by
  induction text with
  | nil => rfl
  | cons c rest ih =>
    have hrest := ih (List.not_mem_of_not_mem_cons h)
    rw [withReturns, List.flatMap_cons, ← withReturns]
    by_cases hc : c = '\n'
    · rw [if_pos hc, hc]
      simp only [List.cons_append, List.nil_append, withoutReturns, hrest]
    · rw [if_neg hc, List.singleton_append,
        withoutReturns_cons (List.ne_of_not_mem_cons h).symm, hrest]

end Text

open Text (Returnless)

/-! ## What is printed -/

@[simp] theorem Number.returnless_text (n : Number) : Returnless n.text := by
  intro hmem
  have hnumeric := List.all_eq_true.1 n.all_text _ hmem
  cases hnumeric

theorem Token.returnless_line (t : Token) : Returnless t.line := by
  obtain ⟨lexeme, span⟩ := t
  have hdescribe : Returnless lexeme.describe := by
    cases lexeme with
    | counted command count => cases command <;> simp +decide [Lexeme.describe, Counted.tokenName]
    | bare command => cases command <;> decide
  simp +decide [line, describe, hdescribe]

theorem Outline.returnless_line {name : String} (h : Returnless name) (depth : Nat) :
    Returnless (line depth name) := by
  have hindent : Returnless (String.ofList (List.replicate (2 * depth) ' ')) := by
    simp [Returnless]
  simp +decide [line, hindent, h]

theorem Outline.returnless_text {α : Type} (program : List (Statement α)) :
    Returnless (text program) := by
  refine Text.returnless_join (forall_mem_lines (returnless_line (by decide)) ?_ program)
  intro depth s
  apply returnless_line
  cases s with
  | counted command count note =>
    cases command <;> simp +decide [heading, Counted.statementName]
  | read | write | loop => simp only [heading]; decide

namespace Qbe

variable {P : Number → Prop}

theorem returnless_of_isName {name : String} (h : IsName name) : Returnless name := by
  intro hmem
  have hchar := h.2 _ hmem
  cases hchar

@[simp] theorem returnless_baseType (type : BaseType) : Returnless type.text := by
  cases type <;> decide

theorem Value.returnless_text {v : Value} (h : v.WellFormed P) : Returnless v.text := by
  cases v with
  | temp name => exact Text.returnless_append.2 ⟨by decide, returnless_of_isName h⟩
  | const n => exact n.returnless_text

theorem Operation.returnless_text {op : Operation} (h : op.WellFormed P) :
    Returnless op.text := by
  cases op with
  | copy v => simp +decide [text, Value.returnless_text h]
  | add v w | sub v w | above type v w =>
    simp +decide [text, Value.returnless_text h.1, Value.returnless_text h.2]
  | load op address => cases op <;> simp +decide [text, LoadOp.text, Value.returnless_text h]
  | alloc8 bytes => simp +decide [text]

theorem Instr.returnless_text {i : Instr} (h : i.WellFormed P) : Returnless i.text := by
  cases i with
  | assign dest type operation =>
    simp +decide [text, Value.returnless_text h.1, Operation.returnless_text h.2]
  | store op value address =>
    cases op <;>
      simp +decide [text, StoreOp.text, Value.returnless_text h.1, Value.returnless_text h.2]
  | call target args =>
    have hargs : Returnless (", ".intercalate (args.map Argument.text)) := by
      refine Text.returnless_intercalate (by decide) (List.forall_mem_map.2 fun a ha => ?_)
      simp +decide [Argument.text, Value.returnless_text (h.2 a ha)]
    simp +decide [text, returnless_of_isName h.1, hargs]

theorem Jump.returnless_text {j : Jump} (h : j.WellFormed P) : Returnless j.text := by
  fun_cases Jump.text j with
  | case1 cond ifNonZero ifZero =>
    simp +decide [Value.returnless_text h.1, returnless_of_isName h.2.1, returnless_of_isName h.2.2]
  | case2 => decide
  | case3 value => simp +decide [Value.returnless_text h]

theorem Item.returnless_line {item : Item} (h : item.WellFormed P) : Returnless item.line := by
  cases item with
  | label name => simp +decide [line, returnless_of_isName h]
  | instr i => simp +decide [line, Instr.returnless_text h]
  | jump j => simp +decide [line, Jump.returnless_text h]

theorem Function.returnless_text {f : Function} (h : f.WellFormed P) : Returnless f.text := by
  have hheader : Returnless f.header := by
    cases hexported : f.exported <;> cases htype : f.returnType <;>
      simp +decide [header, hexported, htype, returnless_of_isName h.name]
  refine Text.returnless_intercalate (by decide) ?_
  rw [lines_eq]
  refine List.forall_mem_append.2 ⟨List.forall_mem_cons.2 ⟨hheader, ?_⟩, by decide⟩
  exact List.forall_mem_map.2 fun item hitem => Item.returnless_line (h.items item hitem)

theorem Module.returnless_text {m : Module} (h : m.WellFormed P) : Returnless m.text := by
  refine Text.returnless_intercalate (by decide) (List.forall_mem_map.2 fun f hf => ?_)
  simp +decide [Function.returnless_text (h f hf)]

end Qbe

/-! ## Artifacts -/

/-- The artifact `b` is `a` with carriage returns, and they can be taken away again. -/
structure Artifact.Reencodes (a b : Artifact) : Prop where
  kind_eq : b.kind = a.kind
  return_not_mem : '\r' ∉ a.text.toList
  text_eq : b.text.toList = Text.withReturns a.text.toList
  text_back : Text.withoutReturns b.text.toList = a.text.toList

theorem LineEnding.reencodes_apply {text : String} (h : Returnless text) (kind : ArtifactKind) :
    Artifact.Reencodes ⟨kind, lf.apply text⟩ ⟨kind, crlf.apply text⟩ := by
  have hlf : lf.apply text = text := if_pos rfl
  have hcrlf : (crlf.apply text).toList = Text.withReturns text.toList := by
    rw [apply, if_neg (by decide), String.toList_ofList]
    rfl
  refine ⟨rfl, ?_, ?_, ?_⟩
  · rw [hlf]
    exact h
  · rw [hlf, hcrlf]
  · rw [hlf, hcrlf, Text.withoutReturns_withReturns h]

open Compilation (artifactOf)

theorem reencodes_artifactOf (tokens : List Token) (program : List (Statement Span))
    (layout : Tape) (kind : ArtifactKind) :
    (artifactOf .lf tokens program (Lowering.mainFunction layout program) kind).Reencodes
      (artifactOf .crlf tokens program (Lowering.mainFunction layout program) kind) := by
  cases kind with
  | tokens =>
    have hdump : Returnless (String.join (tokens.map Token.line)) :=
      Text.returnless_join (List.forall_mem_map.2 fun t _ => t.returnless_line)
    exact LineEnding.reencodes_apply hdump .tokens
  | ast => exact LineEnding.reencodes_apply (Outline.returnless_text program) .ast
  | qbe =>
    have hmodule := Qbe.Module.returnless_text (Lowering.wellFormed_module layout program)
    exact LineEnding.reencodes_apply hmodule .qbe

/-- Carriage returns are a faithful re-encoding.  With either line ending a text has the same
diagnostics, and artifacts of the same kinds in the same order.  With line feeds alone no artifact
holds a carriage return; the other artifacts are these with a carriage return in front of each line
feed, and without it they are these again. -/
theorem crlf_reencodes_lf (file : String) (text : List Char) (options : CompileOptions)
    (writers : Writers) :
    (compileText file text { options with lineEnding := .crlf } writers).diagnostics =
        (compileText file text { options with lineEnding := .lf } writers).diagnostics ∧
      List.Forall₂ Artifact.Reencodes
        (compileText file text { options with lineEnding := .lf } writers).artifacts
        (compileText file text { options with lineEnding := .crlf } writers).artifacts := by
  cases hparse : parse (lex file text) with
  | error error =>
    rw [compileText_of_error hparse, compileText_of_error hparse]
    exact ⟨rfl, .nil⟩
  | ok program =>
    rcases options.tape.resolve_cases with ⟨_, layout, hresolve⟩ | ⟨_, hresolve⟩
    · have hcompile : ∀ ending, compileText file text { options with lineEnding := ending } writers =
          .write { options with lineEnding := ending } writers file (artifactOf ending.chosen
            (lex file text) program (Lowering.mainFunction layout program)) := by
        intro ending
        apply compileText_of_resolve hparse
        exact hresolve
      rw [hcompile, hcompile, Compilation.diagnostics_write, Compilation.diagnostics_write,
        Compilation.artifacts_write, Compilation.artifacts_write]
      -- What is asked for does not depend on the line ending.
      have hkinds : Compilation.writtenKinds { options with lineEnding := .crlf } writers =
          Compilation.writtenKinds { options with lineEnding := .lf } writers := rfl
      refine ⟨rfl, ?_⟩
      rw [hkinds, List.forall₂_map_left_iff, List.forall₂_map_right_iff, List.forall₂_same]
      exact fun kind _ => reencodes_artifactOf (lex file text) program layout kind
    · have hcompile : ∀ ending, compileText file text { options with lineEnding := ending } writers =
          ⟨options.tape.faults.map (OptionError.diagnostic file), []⟩ := by
        intro ending
        apply compileText_of_faults hparse
        exact hresolve
      rw [hcompile, hcompile]
      exact ⟨rfl, .nil⟩

/-- The dump of two tokens on two lines. -/
example :
    compileText "x.b" ['+', '\n', ','] { tokens := some true, lineEnding := .lf } {} =
        ⟨[], [⟨.tokens, "Increment(1) @1:1\nRead @2:1\n"⟩]⟩ ∧
      compileText "x.b" ['+', '\n', ','] { tokens := some true, lineEnding := .crlf } {} =
        ⟨[], [⟨.tokens, "Increment(1) @1:1\r\nRead @2:1\r\n"⟩]⟩ := by
  decide +kernel

end TapeCompiler
