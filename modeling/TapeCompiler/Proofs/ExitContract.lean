import TapeCompiler.CommandLine.Run
import TapeCompiler.Proofs.CompilationOutcome
import TapeCompiler.Proofs.FileWrites
import TapeCompiler.Proofs.Utf8RoundTrip

/-! # What the code of a run promises

A run ends with code 0, 1 or 2, and whoever started it goes by that code.  `ExitContract` lists what
the code stands for: what was printed, where, and what became of the files.

A run has five endings, and each of them keeps the contract.  The arguments are refused, or help or
the version is printed, or the compilation reports errors, or the one artifact that it makes is
delivered, or this artifact cannot be written.

* `compilation_conclusive`: a compilation without errors has the artifact and nothing to report.
* `GivenUp`: the reasons for code 2.
* `deliver_cases`: what delivering an artifact leaves behind.
* `ExitContract.of_givenUp` and the others: the endings.
* `run_keeps_exit_contract`: the contract for every run.
-/

namespace TapeCompiler

/-! ## Reports -/

theorem Collation.compareKeys_self (keys : List Nat) : compareKeys keys keys = .eq := by
  induction keys with
  | nil => rfl
  | cons key rest ih => simp [compareKeys, ih]

theorem Collation.compareTexts_self (text : String) : compareTexts text text = .eq := by
  simp [compareTexts, compareKeys_self]

namespace Diagnostic

/-- Neither of two reports on one file comes first if both have no line. -/
theorem before_of_placeless {a b : Diagnostic} (hfile : a.file = b.file) (ha : a.line = none)
    (hb : b.line = none) : before a b = false := by
  simp [before, compareReports, thenCompare, hfile, ha, hb, Collation.compareTexts_self, coordinate,
    compareCoordinates]

theorem sort_of_placeless {file : String} {reports : List Diagnostic}
    (h : ∀ d ∈ reports, d.file = file ∧ d.line = none) : sort reports = reports := by
  induction reports with
  | nil => rfl
  | cons d rest ih =>
    obtain ⟨⟨hfile, hline⟩, hrest⟩ := List.forall_mem_cons.1 h
    have hsort : sort (d :: rest) = insert d rest := congrArg (insert d) (ih hrest)
    rw [hsort]
    cases rest with
    | nil => rfl
    | cons e rest =>
      obtain ⟨⟨hfile', hline'⟩, _⟩ := List.forall_mem_cons.1 hrest
      rw [insert, before_of_placeless (hfile'.trans hfile.symm) hline' hline]
      rfl

end Diagnostic

/-! ## The compilation of a run -/

/-- A compilation for one artifact: it has errors to report, which are in order, or it has the
artifact and nothing to report. -/
inductive Compilation.Conclusive (kind : ArtifactKind) : Compilation → Prop where
  | errors {reports : List Diagnostic} : reports ≠ [] → (∀ d ∈ reports, d.isError) →
      Diagnostic.sort reports = reports → Conclusive kind ⟨reports, []⟩
  | made {artifact : Artifact} : artifact.kind = kind → Conclusive kind ⟨[], [artifact]⟩

theorem Compilation.conclusive_error {kind : ArtifactKind} {report : Diagnostic}
    (h : report.isError) : Conclusive kind ⟨[report], []⟩ :=
  .errors (List.cons_ne_nil _ _) (List.forall_mem_singleton.2 h) rfl

namespace CommandLine

open Compilation (Conclusive)

/-- The settings ask for one artifact, and all writers are there. -/
theorem write_compileOptions (settings : Settings) (file : String)
    (artifact : ArtifactKind → Artifact) :
    Compilation.write settings.compileOptions {} file artifact =
      ⟨[], [artifact settings.emit]⟩ := by
  obtain ⟨output, emit, tapeCells, stride⟩ := settings
  cases emit <;> rfl

theorem compileText_conclusive (file : String) (text : List Char) (settings : Settings) :
    Conclusive settings.emit (compileText file text settings.compileOptions {}) := by
  cases hparse : parse (lex file text) with
  | error error =>
    rw [compileText_of_error hparse]
    exact Compilation.conclusive_error rfl
  | ok program =>
    rcases settings.compileOptions.tape.resolve_cases with
      ⟨_, layout, hresolve⟩ | ⟨hfaults, hresolve⟩
    · rw [compileText_of_resolve hparse hresolve, write_compileOptions]
      exact .made (Compilation.kind_artifactOf _ _ _ _ _)
    · rw [compileText_of_faults hparse hresolve]
      -- Errors in the choice of tape have no line, so they stay in the order they are found in.
      have hplaceless : ∀ d ∈ settings.compileOptions.tape.faults.map (OptionError.diagnostic file),
          d.file = file ∧ d.line = none := by
        simp [OptionError.diagnostic, Diagnostic.error]
      refine .errors (by simpa using hfaults) ?_ (Diagnostic.sort_of_placeless hplaceless)
      simp [OptionError.diagnostic, Diagnostic.error, Diagnostic.isError]

/-- The compilation that a run makes. -/
def compilation (tree : FileTree) (directory : Path) (entry : String) (settings : Settings) :
    Compilation :=
  compileFile tree directory entry settings.compileOptions {}

theorem compilation_conclusive (tree : FileTree) (directory : Path) (entry : String)
    (settings : Settings) :
    Conclusive settings.emit (compilation tree directory entry settings) := by
  unfold compilation compileFile compileBytes
  cases tree.readFile directory entry with
  | error e => exact Compilation.conclusive_error rfl
  | ok bytes => exact compileText_conclusive entry (Utf8.decode bytes) settings

/-! ## The contract -/

/-- Where the text of an artifact is to be found: on standard output, or in the file that was asked
for, whose place is printed and beside which no file has changed. -/
def Delivered (tree : FileTree) (directory : Path) (output : Option String) (text stdout : String)
    (after : FileTree) : Prop :=
  match output with
  | none => stdout = text ∧ after = tree
  | some typed =>
    let place := Path.resolve directory typed
    stdout = Path.text place ++ "\n" ∧
      (∃ bytes, after.file? place = some bytes ∧ bytes = Utf8.encode text.toList ∧
        Utf8.decode bytes = text.toList) ∧
      ∀ other, other ≠ place → after.file? other = tree.file? other

/-- Why a run is given up: its arguments are refused, or the file that was asked for cannot be
written. -/
inductive GivenUp (tree : FileTree) (directory : Path) (arguments : List String) : String → Prop where
  | usage {e : UsageError} : parseArguments arguments = .error e →
      GivenUp tree directory arguments e.message
  | writing {entry : String} {settings : Settings} {artifact : Artifact} {typed : String}
      {after : FileTree} {e : SystemError} :
      parseArguments arguments = .ok (.compile entry settings) →
      compilation tree directory entry settings = ⟨[], [artifact]⟩ →
      settings.output = some typed →
      tree.writeFile (Path.resolve directory typed) (Utf8.encode artifact.text.toList) =
        (after, some e) →
      GivenUp tree directory arguments e.message

/-- What the code of a run stands for.  The run is given the arguments in a directory of `tree`, and
leaves `outcome` and the tree `after`. -/
structure ExitContract (tree : FileTree) (directory : Path) (arguments : List String)
    (outcome : Outcome) (after : FileTree) : Prop where
  /-- There are three codes. -/
  code : outcome.code = 0 ∨ outcome.code = 1 ∨ outcome.code = 2
  /-- Without success nothing goes to standard output, and all files are as they were. -/
  harmless : outcome.code ≠ 0 → outcome.stdout = "" ∧ tree.SameFiles after
  /-- With code 1 the directories are as they were, too. -/
  untouched : outcome.code = 1 → after = tree
  /-- The code is 1 exactly if a compilation is asked for and fails. -/
  fails : outcome.code = 1 ↔ ∃ entry settings,
    parseArguments arguments = .ok (.compile entry settings) ∧
      (compilation tree directory entry settings).Fails
  /-- Then its diagnostics are printed, each on a line of its own, and nothing else. -/
  reported : ∀ entry settings, outcome.code = 1 →
    parseArguments arguments = .ok (.compile entry settings) →
      outcome.stderr = String.join
        ((compilation tree directory entry settings).diagnostics.map fun d => d.text ++ "\n")
  /-- The code is 2 exactly if the run is given up. -/
  refused : outcome.code = 2 ↔ ∃ reason, GivenUp tree directory arguments reason
  /-- Then the reason is printed, and how to use the program. -/
  explained : ∀ reason, GivenUp tree directory arguments reason →
    outcome.stderr = "bfqc: " ++ reason ++ "\n" ++ usage ++ "\n"
  /-- Help and the version are printed, and nothing else is done. -/
  announced : ∀ request, parseArguments arguments = .ok request →
    request = .help ∨ request = .version →
      outcome = ⟨0, request.announcement, ""⟩ ∧ after = tree
  /-- With code 0, unless help or the version was asked for, there is nothing to report and one
  artifact, of the kind asked for, and its text is delivered. -/
  delivered : outcome.code = 0 → parseArguments arguments ≠ .ok .help →
    parseArguments arguments ≠ .ok .version → ∃ entry settings artifact,
      parseArguments arguments = .ok (.compile entry settings) ∧
        compilation tree directory entry settings = ⟨[], [artifact]⟩ ∧
        artifact.kind = settings.emit ∧ outcome.stderr = "" ∧
        Delivered tree directory settings.output artifact.text outcome.stdout after

/-! ## The steps of a run -/

variable {tree after : FileTree} {directory : Path} {arguments : List String} {entry : String}
  {settings : Settings} {reports : List Diagnostic} {artifact : Artifact}

theorem deliver_none (tree : FileTree) (directory : Path) (artifact : Artifact) :
    deliver tree directory none artifact = (.success artifact.text, tree) := rfl

theorem deliver_some (tree : FileTree) (directory : Path) (typed : String) (artifact : Artifact) :
    deliver tree directory (some typed) artifact =
      match tree.writeFile (Path.resolve directory typed) (Utf8.encode artifact.text.toList) with
      | (after, none) => (.success (Path.text (Path.resolve directory typed) ++ "\n"), after)
      | (after, some e) => (.refused e.message, after) := by
  rcases hwrite : tree.writeFile (Path.resolve directory typed) (Utf8.encode artifact.text.toList)
    with ⟨after, e⟩
  cases e <;> simp [deliver, deliverWith, FileSystem.inTree, hwrite]

/-- An artifact is delivered, unless it goes to a file that cannot be written. -/
theorem deliver_cases (tree : FileTree) (directory : Path) (output : Option String)
    (artifact : Artifact) :
    (∃ stdout after, deliver tree directory output artifact = (.success stdout, after) ∧
        Delivered tree directory output artifact.text stdout after ∧
        ∀ typed, output = some typed → tree.writeFile (Path.resolve directory typed)
          (Utf8.encode artifact.text.toList) = (after, none)) ∨
      (∃ typed e after, deliver tree directory output artifact = (.refused e.message, after) ∧
        output = some typed ∧ tree.writeFile (Path.resolve directory typed)
          (Utf8.encode artifact.text.toList) = (after, some e) ∧ tree.SameFiles after) := by
  cases output with
  | none =>
    refine .inl ⟨_, _, deliver_none tree directory artifact, ⟨rfl, rfl⟩, fun typed htyped => ?_⟩
    cases htyped
  | some typed =>
    rw [deliver_some]
    rcases tree.writeFile_cases (Path.resolve directory typed) (Utf8.encode artifact.text.toList)
      with ⟨after, e, hwrite, hfiles⟩ | ⟨after, hwrite, hfile, hothers⟩
    · rw [hwrite]
      exact .inr ⟨typed, e, after, rfl, rfl, hwrite, hfiles⟩
    · rw [hwrite]
      refine .inl ⟨_, _, rfl, ⟨rfl, ⟨_, hfile, rfl, Utf8.decode_encode _⟩, hothers⟩, ?_⟩
      intro typed' htyped
      cases htyped
      exact hwrite

theorem Outcome.reporting_nil (o : Outcome) : o.reporting [] = o := by
  simp [reporting, Diagnostic.sort]

theorem run_of_usageError {e : UsageError} (hparse : parseArguments arguments = .error e) :
    run tree directory arguments = (.refused e.message, tree) := by
  simp [run, runWith, hparse]

theorem run_of_announcement {request : Request} (hparse : parseArguments arguments = .ok request)
    (hrequest : request = .help ∨ request = .version) :
    run tree directory arguments = (.success request.announcement, tree) := by
  rcases hrequest with rfl | rfl <;> simp [run, runWith, hparse]

/-- The diagnostics of a compilation are reported however the run goes on. -/
theorem run_of_compile (hparse : parseArguments arguments = .ok (.compile entry settings)) :
    run tree directory arguments =
      (conclude tree directory settings (compilation tree directory entry settings)).map
        (Outcome.reporting (compilation tree directory entry settings).diagnostics) id := by
  simp only [run, runWith, hparse]
  rfl

theorem run_of_errors (hparse : parseArguments arguments = .ok (.compile entry settings))
    (hreports : compilation tree directory entry settings = ⟨reports, []⟩) :
    run tree directory arguments =
      (⟨1, "", String.join (reports.map fun d => d.text ++ "\n")⟩, tree) := by
  have hconclusive := compilation_conclusive tree directory entry settings
  rw [hreports] at hconclusive
  cases hconclusive with
  | errors hne herrors hsorted =>
    obtain ⟨d, rest, rfl⟩ := List.exists_cons_of_ne_nil hne
    have hany : (d :: rest).any Diagnostic.isError := by simp [herrors d List.mem_cons_self]
    have hconclude : conclude tree directory settings ⟨d :: rest, []⟩ = (.failed "", tree) := by
      simp only [conclude, concludeWith, hany, if_true]
      rfl
    rw [run_of_compile hparse, hreports, hconclude]
    simp [Outcome.reporting, Outcome.failed, hsorted]

theorem run_of_made (hparse : parseArguments arguments = .ok (.compile entry settings))
    (hmade : compilation tree directory entry settings = ⟨[], [artifact]⟩) :
    run tree directory arguments = deliver tree directory settings.output artifact := by
  have hconclusive := compilation_conclusive tree directory entry settings
  rw [hmade] at hconclusive
  cases hconclusive with
  | made hkind =>
    have hconclude : conclude tree directory settings ⟨[], [artifact]⟩ =
        deliver tree directory settings.output artifact := by
      simp [conclude, concludeWith, deliver, hkind]
    rw [run_of_compile hparse, hmade, hconclude]
    exact Prod.ext (Outcome.reporting_nil _) rfl

/-! ## The endings of a run -/

/-- A run that is given up has one reason for it. -/
theorem GivenUp.unique {reason reason' : String} (h : GivenUp tree directory arguments reason)
    (h' : GivenUp tree directory arguments reason') : reason = reason' := by
  cases h with
  | usage hparse =>
    cases h' with
    | usage hparse' =>
      cases hparse.symm.trans hparse'
      rfl
    | writing hparse' => cases hparse.symm.trans hparse'
  | writing hparse hmade houtput hwrite =>
    cases h' with
    | usage hparse' => cases hparse.symm.trans hparse'
    | writing hparse' hmade' houtput' hwrite' =>
      cases hparse.symm.trans hparse'
      cases hmade.symm.trans hmade'
      cases houtput.symm.trans houtput'
      cases hwrite.symm.trans hwrite'
      rfl

/-- If the arguments are accepted, only a file that cannot be written is a reason. -/
theorem GivenUp.of_parsed {reason : String} {request : Request}
    (hparse : parseArguments arguments = .ok request) (h : GivenUp tree directory arguments reason) :
    ∃ entry settings artifact typed, request = .compile entry settings ∧
      compilation tree directory entry settings = ⟨[], [artifact]⟩ ∧ settings.output = some typed ∧
      (tree.writeFile (Path.resolve directory typed) (Utf8.encode artifact.text.toList)).2 ≠ none := by
  cases h with
  | usage hrefused => cases hparse.symm.trans hrefused
  | @writing entry settings artifact typed after e hcompile hmade houtput hwrite =>
    cases hparse.symm.trans hcompile
    exact ⟨entry, settings, artifact, typed, rfl, hmade, houtput, by simp [hwrite]⟩

theorem not_announced_of_compile (entry : String) (settings : Settings) :
    ¬(Request.compile entry settings = .help ∨ Request.compile entry settings = .version) := by
  simp

theorem not_givenUp_of_announcement {request : Request}
    (hparse : parseArguments arguments = .ok request)
    (hrequest : request = .help ∨ request = .version) :
    ¬∃ reason, GivenUp tree directory arguments reason := by
  rintro ⟨reason, h⟩
  obtain ⟨_, _, _, _, rfl, _⟩ := h.of_parsed hparse
  exact not_announced_of_compile _ _ hrequest

theorem not_givenUp_of_errors (hparse : parseArguments arguments = .ok (.compile entry settings))
    (hreports : compilation tree directory entry settings = ⟨reports, []⟩) :
    ¬∃ reason, GivenUp tree directory arguments reason := by
  rintro ⟨reason, h⟩
  obtain ⟨_, _, _, _, hrequest, hmade, _⟩ := h.of_parsed hparse
  cases hrequest
  cases hreports.symm.trans hmade

theorem not_givenUp_of_written (hparse : parseArguments arguments = .ok (.compile entry settings))
    (hmade : compilation tree directory entry settings = ⟨[], [artifact]⟩)
    (hwritten : ∀ typed, settings.output = some typed → tree.writeFile (Path.resolve directory typed)
      (Utf8.encode artifact.text.toList) = (after, none)) :
    ¬∃ reason, GivenUp tree directory arguments reason := by
  rintro ⟨reason, h⟩
  obtain ⟨_, _, _, typed, hrequest, hmade', houtput, hrefused⟩ := h.of_parsed hparse
  cases hrequest
  cases hmade.symm.trans hmade'
  rw [hwritten typed houtput] at hrefused
  exact hrefused rfl

/-- A compilation that made its artifact did not fail. -/
theorem not_fails_of_made (hparse : parseArguments arguments = .ok (.compile entry settings))
    (hmade : compilation tree directory entry settings = ⟨[], [artifact]⟩) :
    ¬∃ entry settings, parseArguments arguments = .ok (.compile entry settings) ∧
      (compilation tree directory entry settings).Fails := by
  rintro ⟨_, _, hcompile, d, hd, _⟩
  cases hparse.symm.trans hcompile
  rw [hmade] at hd
  cases hd

namespace ExitContract

theorem of_givenUp {reason : String} (h : GivenUp tree directory arguments reason)
    (hfiles : tree.SameFiles after)
    (hfails : ¬∃ entry settings, parseArguments arguments = .ok (.compile entry settings) ∧
      (compilation tree directory entry settings).Fails) :
    ExitContract tree directory arguments (.refused reason) after where
  code := .inr (.inr rfl)
  harmless _ := ⟨rfl, hfiles⟩
  untouched hcode := by cases hcode
  fails := iff_of_false (by simp [Outcome.refused]) hfails
  reported _ _ hcode := by cases hcode
  refused := iff_of_true rfl ⟨reason, h⟩
  explained reason' h' := by
    cases h.unique h'
    rfl
  announced request hparse hrequest := by
    cases h with
    | usage hrefused => cases hparse.symm.trans hrefused
    | writing hcompile =>
      cases hparse.symm.trans hcompile
      exact absurd hrequest (not_announced_of_compile _ _)
  delivered hcode := by cases hcode

theorem of_announcement {request : Request} (hparse : parseArguments arguments = .ok request)
    (hrequest : request = .help ∨ request = .version) :
    ExitContract tree directory arguments (.success request.announcement) tree where
  code := .inl rfl
  harmless hcode := absurd rfl hcode
  untouched hcode := by cases hcode
  fails := by
    refine iff_of_false (by simp [Outcome.success]) ?_
    rintro ⟨entry, settings, hcompile, _⟩
    cases hparse.symm.trans hcompile
    exact not_announced_of_compile _ _ hrequest
  reported _ _ hcode := by cases hcode
  refused := iff_of_false (by simp [Outcome.success]) (not_givenUp_of_announcement hparse hrequest)
  explained reason h := absurd ⟨reason, h⟩ (not_givenUp_of_announcement hparse hrequest)
  announced request' hparse' _ := by
    cases hparse.symm.trans hparse'
    exact ⟨rfl, rfl⟩
  delivered _ hhelp hversion := by
    rcases hrequest with rfl | rfl
    · exact absurd hparse hhelp
    · exact absurd hparse hversion

theorem of_errors (hparse : parseArguments arguments = .ok (.compile entry settings))
    (hreports : compilation tree directory entry settings = ⟨reports, []⟩)
    (hne : reports ≠ []) (herrors : ∀ d ∈ reports, d.isError) :
    ExitContract tree directory arguments
      ⟨1, "", String.join (reports.map fun d => d.text ++ "\n")⟩ tree where
  code := .inr (.inl rfl)
  harmless _ := ⟨rfl, .refl tree⟩
  untouched _ := rfl
  fails := by
    obtain ⟨d, rest, rfl⟩ := List.exists_cons_of_ne_nil hne
    refine iff_of_true rfl ⟨entry, settings, hparse, d, ?_, herrors d List.mem_cons_self⟩
    rw [hreports]
    exact List.mem_cons_self
  reported _ _ _ hcompile := by
    cases hparse.symm.trans hcompile
    rw [hreports]
  refused := iff_of_false (by simp) (not_givenUp_of_errors hparse hreports)
  explained reason h := absurd ⟨reason, h⟩ (not_givenUp_of_errors hparse hreports)
  announced request hparse' hrequest := by
    cases hparse.symm.trans hparse'
    exact absurd hrequest (not_announced_of_compile _ _)
  delivered hcode := by cases hcode

theorem of_delivered {stdout : String}
    (hparse : parseArguments arguments = .ok (.compile entry settings))
    (hmade : compilation tree directory entry settings = ⟨[], [artifact]⟩)
    (hkind : artifact.kind = settings.emit)
    (hdelivered : Delivered tree directory settings.output artifact.text stdout after)
    (hgivenUp : ¬∃ reason, GivenUp tree directory arguments reason) :
    ExitContract tree directory arguments (.success stdout) after where
  code := .inl rfl
  harmless hcode := absurd rfl hcode
  untouched hcode := by cases hcode
  fails := iff_of_false (by simp [Outcome.success]) (not_fails_of_made hparse hmade)
  reported _ _ hcode := by cases hcode
  refused := iff_of_false (by simp [Outcome.success]) hgivenUp
  explained reason h := absurd ⟨reason, h⟩ hgivenUp
  announced request hparse' hrequest := by
    cases hparse.symm.trans hparse'
    exact absurd hrequest (not_announced_of_compile _ _)
  delivered _ _ _ := ⟨entry, settings, artifact, hparse, hmade, hkind, rfl, hdelivered⟩

end ExitContract

/-- Every run keeps the contract, whatever its arguments and the files that it finds. -/
theorem run_keeps_exit_contract (tree : FileTree) (directory : Path) (arguments : List String) :
    ExitContract tree directory arguments (run tree directory arguments).1
      (run tree directory arguments).2 := by
  cases hparse : parseArguments arguments with
  | error e =>
    rw [run_of_usageError hparse]
    refine .of_givenUp (.usage hparse) (.refl tree) ?_
    rintro ⟨entry, settings, hcompile, _⟩
    cases hparse.symm.trans hcompile
  | ok request =>
    cases request with
    | help =>
      rw [run_of_announcement hparse (.inl rfl)]
      exact .of_announcement hparse (.inl rfl)
    | version =>
      rw [run_of_announcement hparse (.inr rfl)]
      exact .of_announcement hparse (.inr rfl)
    | compile entry settings =>
      have hconclusive := compilation_conclusive tree directory entry settings
      generalize hcompilation : compilation tree directory entry settings = c at hconclusive
      cases hconclusive with
      | errors hne herrors hsorted =>
        rw [run_of_errors hparse hcompilation]
        exact .of_errors hparse hcompilation hne herrors
      | @made artifact hkind =>
        rw [run_of_made hparse hcompilation]
        rcases deliver_cases tree directory settings.output artifact with
          ⟨stdout, after, hdeliver, hdelivered, hwritten⟩ |
            ⟨typed, e, after, hdeliver, houtput, hwrite, hfiles⟩
        · rw [hdeliver]
          exact .of_delivered hparse hcompilation hkind hdelivered
            (not_givenUp_of_written hparse hcompilation hwritten)
        · rw [hdeliver]
          exact .of_givenUp (.writing hparse hcompilation houtput hwrite) hfiles
            (not_fails_of_made hparse hcompilation)

/-- The outline of `++` goes to standard output. -/
example :
    run ⟨[(["x.b"], .file [43, 43])]⟩ [] ["-e", "ast", "x.b"] =
      (⟨0, "Block\n  Add(2)\n", ""⟩, ⟨[(["x.b"], .file [43, 43])]⟩) := by
  decide +kernel

/-- It goes to a file in a new directory, but not to a place that is a directory. -/
example :
    run ⟨[(["x.b"], .file [43, 43])]⟩ [] ["-e", "ast", "-o", "out/y", "x.b"] =
        (⟨0, "/out/y\n", ""⟩, ⟨[(["x.b"], .file [43, 43]), (["out"], .directory),
          (["out", "y"], .file (Utf8.encode "Block\n  Add(2)\n".toList))]⟩) ∧
      (run ⟨[(["x.b"], .file [43, 43])]⟩ [] ["-e", "ast", "-o", ".", "x.b"]).1.code = 2 := by
  decide +kernel

end CommandLine

end TapeCompiler
