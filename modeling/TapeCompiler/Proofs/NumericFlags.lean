import Mathlib.Algebra.Group.Nat.Defs
import TapeCompiler.Proofs.ArgumentGrammar
import TapeCompiler.Proofs.DecimalText
import TapeCompiler.Proofs.ExitContract
import TapeCompiler.Proofs.Grammar

/-! # Numeric flags

A numeral may have any number of digits, and it is rounded when it is read.  Whether it is in range is
decided later, on the rounded number.  Rounding is monotone and leaves everything below `2 ^ 53` as it
is, so it takes no number across that border: the decision is the one that the exact numbers would get.

* `Number.round_eq_ofNat_iff`: only a safe integer itself is rounded to it.
* `TapeOptions.rangeErrors`: what is wrong with two exact numbers.
* `TapeOptions.faults_round`, `TapeOptions.resolve_round`: the rounded ones have the same faults and
  give the same tape.
* `CommandLine.numeric_flags_exact`: what a run makes of its numeric flags.
-/

namespace TapeCompiler

/-! ## Rounding around the border -/

namespace Number

theorem round_of_lt {n : Nat} (hn : n < safeLimit) : round n = .ofNat n := by
  have hsame : nearest n 1 = n := by simpa using nearest_mul_two_pow hn 0
  have hfinite : n < 1 <<< 1024 := Nat.lt_trans hn (by decide)
  simp only [round, hsame, ofMagnitude, if_pos hfinite, signed]
  rfl

theorem safeLimit_le_nearest {n : Nat} (hn : safeLimit ≤ n) : safeLimit ≤ nearest n 1 :=
  nearest_mono hn

theorem round_eq_ofNat_iff {n k : Nat} (hk : k < safeLimit) : round n = .ofNat k ↔ n = k := by
  by_cases hn : n < safeLimit
  · rw [round_of_lt hn]
    simp only [ofNat, integer.injEq, Int.natCast_inj]
  · have hlarge := safeLimit_le_nearest (Nat.le_of_not_lt hn)
    have hne : n ≠ k := by omega
    simp only [round, ofMagnitude, ofNat, signed, hne, iff_false]
    split
    · simp
      omega
    · simp

theorem isCount_round {n : Nat} : (round n).isCount ↔ 1 ≤ n ∧ n ≤ 2 ^ 53 - 1 := by
  have hlimit : safeLimit = 2 ^ 53 := rfl
  rw [isCount_iff]
  constructor
  · rintro ⟨k, hround, hpos, hlt⟩
    have hn := (round_eq_ofNat_iff hlt).1 hround
    omega
  · rintro ⟨hpos, hle⟩
    have hlt : n < safeLimit := by omega
    exact ⟨n, round_of_lt hlt, hpos, hlt⟩

end Number

/-! ## The choice of tape -/

namespace TapeOptions

/-- A number of cells and a stride that a tape can have. -/
def InRange (cells stride : Nat) : Prop :=
  (1 ≤ cells ∧ cells ≤ 2 ^ 53 - 1) ∧ (stride = 1 ∨ stride = 8)

/-- What is wrong with a number of cells and a stride: at most one error for each. -/
def rangeErrors (cells stride : Nat) : List OptionError :=
  (if 1 ≤ cells ∧ cells ≤ 2 ^ 53 - 1 then [] else [.badCells (.round cells)]) ++
    (if stride = 1 ∨ stride = 8 then [] else [.badStride (.round stride)])

theorem rangeErrors_eq_nil_iff {cells stride : Nat} :
    rangeErrors cells stride = [] ↔ InRange cells stride := by
  simp only [rangeErrors, InRange, List.append_eq_nil_iff, ite_eq_left_iff, reduceCtorEq, imp_false,
    not_not]

theorem faults_round (cells stride : Nat) :
    faults ⟨some (.round cells), some (.round stride)⟩ = rangeErrors cells stride := by
  have hone : Number.round stride = .integer 1 ↔ stride = 1 :=
    Number.round_eq_ofNat_iff (k := 1) (by decide)
  have height : Number.round stride = .integer 8 ↔ stride = 8 :=
    Number.round_eq_ofNat_iff (k := 8) (by decide)
  simp only [faults, rangeErrors, Option.filter, ← Number.isCount_round, ne_eq, hone, height,
    ← not_or, decide_not]
  by_cases hcells : (Number.round cells).isCount <;> by_cases hstride : stride = 1 ∨ stride = 8 <;>
    simp [hcells, hstride]

theorem ofNumber?_bytes (stride : Stride) : Stride.ofNumber? (.ofNat stride.bytes) = some stride := by
  cases stride <;> rfl

theorem resolve_round {cells : Nat} (h : 1 ≤ cells ∧ cells ≤ 2 ^ 53 - 1) (stride : Stride) :
    resolve ⟨some (.round cells), some (.round stride.bytes)⟩ = .ok ⟨.ofNat cells, stride⟩ := by
  have hlimit : Number.safeLimit = 2 ^ 53 := rfl
  have hcells : Number.round cells = .ofNat cells := Number.round_of_lt (by omega)
  have hbytes : Number.round stride.bytes = .ofNat stride.bytes :=
    Number.round_of_lt (by cases stride <;> decide)
  have herrors : cellErrors (.ofNat cells) = [] := by
    rw [cellErrors, isCellCount_eq_isCount, ← hcells, if_pos (Number.isCount_round.2 h)]
  simp only [resolve, Option.getD_some, hcells, hbytes, herrors, ofNumber?_bytes]

end TapeOptions

/-! ## Runs -/

namespace CommandLine

open TapeOptions (InRange faults_round rangeErrors rangeErrors_eq_nil_iff resolve_round)

variable {arguments : List String} {items : List Item} {entry cells stride : String}
  {settings : Settings} {tree : FileTree} {directory : Path}

/-- The natural that a numeral denotes, in full. -/
def exactValue (numeral : String) : Nat := Nat.ofDigitChars 10 numeral.toList 0

theorem numeralValue_eq (numeral : String) : numeralValue numeral = .round (exactValue numeral) := rfl

/-- Any two numerals can be given. -/
theorem exists_numeric_items (hcells : IsNumeral cells) (hstride : IsNumeral stride)
    (hne : entry ≠ "") (hdash : entry.toList.head? ≠ some '-') :
    ∃ items, AsksToCompile ["--tape-cells", cells, "--stride", stride, entry] items entry ∧
      lastValue? .tapeCells items = some cells ∧ lastValue? .stride items = some stride := by
  exact ⟨[⟨.tapeCells, cells, _, hcells, List.mem_cons_self⟩,
    ⟨.stride, stride, _, hstride, List.mem_cons_self⟩], ⟨rfl, hne, hdash⟩, rfl, rfl⟩

theorem tape_settingsOf (hcells : lastValue? .tapeCells items = some cells)
    (hstride : lastValue? .stride items = some stride) :
    (settingsOf items).compileOptions.tape =
      ⟨some (.round (exactValue cells)), some (.round (exactValue stride))⟩ := by
  simp [Settings.compileOptions, settingsOf, hcells, hstride, numeralValue_eq]

/-- A numeric flag is honoured exactly or rejected.  The settings end with the numerals `cells` and
`stride`, of any length, and the source file can be read and parsed.  Then there is a module if and only
if the exact numbers are in range.  It is the one for a tape that has these very numbers, and what the
run delivers is made with it.  If a number is out of range, the run fails with one error for each that is. -/
theorem numeric_flags_exact (hasks : AsksToCompile arguments items entry)
    (hcells : lastValue? .tapeCells items = some cells)
    (hstride : lastValue? .stride items = some stride) {bytes : List UInt8}
    {program : List (Statement Span)} (hread : tree.readFile directory entry = .ok bytes)
    (hparse : parse (lex entry (Utf8.decode bytes)) = .ok program) :
    ∃ settings, parseArguments arguments = .ok (.compile entry settings) ∧
      ((∃ target, Lowering.lower settings.compileOptions.tape program = .ok target) ↔
        InRange (exactValue cells) (exactValue stride)) ∧
      (InRange (exactValue cells) (exactValue stride) → ∃ layout target artifact,
        settings.compileOptions.tape.resolve = .ok layout ∧
        layout.cells = .ofNat (exactValue cells) ∧ layout.stride.bytes = exactValue stride ∧
        target = ⟨[Lowering.mainFunction layout program]⟩ ∧
        Lowering.lower settings.compileOptions.tape program = .ok target ∧
        compilation tree directory entry settings = ⟨[], [artifact]⟩ ∧
        (settings.emit = .qbe → artifact = .ofModule .lf target) ∧
        run tree directory arguments = deliver tree directory settings.output artifact) ∧
      (¬InRange (exactValue cells) (exactValue stride) → ∃ reports,
        reports = (rangeErrors (exactValue cells) (exactValue stride)).map
          (fun e => ⟨"BFQ200", .error, e.message, entry, none, none⟩) ∧
        compilation tree directory entry settings = ⟨reports, []⟩ ∧
        run tree directory arguments =
          (⟨1, "", String.join (reports.map fun d => d.text ++ "\n")⟩, tree)) := by
  have hcompile := parseArguments_compile_iff.2 ⟨items, hasks, rfl⟩
  have htape := tape_settingsOf hcells hstride
  have hcompilation : compilation tree directory entry (settingsOf items) =
      compileText entry (Utf8.decode bytes) (settingsOf items).compileOptions {} := by
    simp only [compilation, compileFile, compileBytes, hread]
  generalize settingsOf items = settings at hcompile htape hcompilation
  refine ⟨settings, hcompile, ?_⟩
  by_cases hrange : InRange (exactValue cells) (exactValue stride)
  · obtain ⟨width, hwidth⟩ : ∃ width : Stride, exactValue stride = width.bytes :=
      hrange.2.elim (fun h => ⟨.one, h⟩) (fun h => ⟨.eight, h⟩)
    have hresolve := resolve_round hrange.1 width
    rw [← hwidth, ← htape] at hresolve
    have hlower := Lowering.lower_eq_ok hresolve program
    rw [compileText_of_resolve hparse hresolve, write_compileOptions] at hcompilation
    refine ⟨iff_of_true ⟨_, hlower⟩ hrange, fun _ => ?_, fun hout => absurd hrange hout⟩
    refine ⟨_, _, _, hresolve, rfl, hwidth.symm, rfl, hlower, hcompilation, fun hkind => ?_,
      run_of_made hcompile hcompilation⟩
    rw [hkind]
    rfl
  · -- The rounded numbers have the faults of the exact ones, and there are some.
    have hfaults : settings.compileOptions.tape.faults =
        rangeErrors (exactValue cells) (exactValue stride) := by rw [htape, faults_round]
    have hne : settings.compileOptions.tape.faults ≠ [] := by
      rw [hfaults]
      exact mt rangeErrors_eq_nil_iff.1 hrange
    obtain ⟨hnil, _⟩ | ⟨_, hresolve⟩ := settings.compileOptions.tape.resolve_cases
    · exact absurd hnil hne
    · rw [compileText_of_faults hparse hresolve, hfaults] at hcompilation
      refine ⟨iff_of_false ?_ hrange, fun hin => absurd hin hrange, fun _ => ?_⟩
      · rintro ⟨target, hlower⟩
        rw [Lowering.lower, hresolve] at hlower
        cases hlower
      · exact ⟨_, rfl, hcompilation, run_of_errors hcompile hcompilation⟩

/-- The numbers around `2 ^ 53`, with leading zeros.  One more is rounded down to `2 ^ 53` and still
rejected, while one less is taken, and so is the stride. -/
theorem numeric_flags_exact_border :
    ∃ tree directory program, FileTree.readFile tree directory "x.b" = .ok [43, 46] ∧
      parse (lex "x.b" (Utf8.decode [43, 46])) = .ok program ∧
      IsNumeral "0009007199254740993" ∧ IsNumeral "0009007199254740991" ∧ IsNumeral "08" ∧
      run tree directory ["--tape-cells", "0009007199254740993", "--stride", "08", "x.b"] =
        (⟨1, "", "x.b: error: [BFQ200] Tape size must be a positive integer number of cells " ++
          "(got 9007199254740992)\n"⟩, tree) ∧
      run tree directory ["--tape-cells", "0009007199254740991", "--stride", "08", "x.b"] =
        (⟨0, (Artifact.ofModule .lf
          ⟨[Lowering.mainFunction ⟨.ofNat 9007199254740991, .eight⟩ program]⟩).text, ""⟩, tree) := by
  have hread : FileTree.readFile ⟨[(["x.b"], .file [43, 46])]⟩ [] "x.b" = .ok [43, 46] := by decide
  have hlexemes : (lex "x.b" (Utf8.decode [43, 46])).map Token.lexeme =
      Statement.lexemesAll [.counted .increment (.ofNat 1) (), .write ()] := by decide
  obtain ⟨program, hparse⟩ := (parse_isOk_iff _).2
    (by rw [hlexemes]; exact Statement.lexemesAll_balanced _)
  have habove : IsNumeral "0009007199254740993" := by decide
  have hbelow : IsNumeral "0009007199254740991" := by decide
  have hstride : IsNumeral "08" := by decide
  refine ⟨_, _, program, hread, hparse, habove, hbelow, hstride, ?_, ?_⟩
  · obtain ⟨items, hasks, hlastCells, hlastStride⟩ :=
      exists_numeric_items habove hstride (by decide : "x.b" ≠ "") (by decide)
    obtain ⟨settings, -, -, -, hout⟩ := numeric_flags_exact hasks hlastCells hlastStride hread hparse
    obtain ⟨reports, rfl, -, hrun⟩ := hout (fun hin => absurd hin.1.2 (by decide))
    refine hrun.trans ?_
    decide
  · obtain ⟨items, hasks, hlastCells, hlastStride⟩ :=
      exists_numeric_items hbelow hstride (by decide : "x.b" ≠ "") (by decide)
    obtain ⟨settings, hcompile, -, hin, -⟩ :=
      numeric_flags_exact hasks hlastCells hlastStride hread hparse
    obtain ⟨⟨cells, stride⟩, target, artifact, -, hcells, hbytes, rfl, -, -, hmodule, hrun⟩ :=
      hin ⟨by decide, by decide⟩
    have hsettings : parseArguments
        ["--tape-cells", "0009007199254740991", "--stride", "08", "x.b"] =
        .ok (.compile "x.b" ⟨none, .qbe, some (.ofNat 9007199254740991), some (.ofNat 8)⟩) := by
      decide +kernel
    cases hsettings.symm.trans hcompile
    have hnumber : exactValue "0009007199254740991" = 9007199254740991 := by decide
    have height : exactValue "08" = 8 := by decide
    rw [hnumber] at hcells
    rw [height] at hbytes
    cases hcells
    cases stride with
    | one => cases hbytes
    | eight =>
      rw [hrun, hmodule rfl, deliver_none]
      rfl

end CommandLine

end TapeCompiler
