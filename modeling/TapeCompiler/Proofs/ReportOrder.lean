import TapeCompiler.Proofs.ReportComparison
import TapeCompiler.Tape

/-! # The order of a report

Sorting puts reports in a weak order and keeps those that compare as equal as they came
(`sort_eq`: it is insertion sort).

* `reports_are_weakly_ordered`: the comparison is a weak order, and no sorted report comes before an
  earlier one.
* `map_eq_of_pairwise`: what a weak order leaves open cannot be seen through a function that does
  not tell equals apart.
* `insert_insert`: of two equals, the one that was pushed first stays in front.
* `report_lines_fixed_iff`: so the lines of a report depend on the order in which its diagnostics were
  pushed exactly if two of them read differently and a coordinate that both lack keeps them from
  being compared.
-/

namespace TapeCompiler.Diagnostic

open Std (OrientedCmp ReflCmp TransCmp)

/-! ## Sorting -/

/-- The first report comes no later than the second. -/
def NoLater (a b : Diagnostic) : Prop := (sign a b).isLE

instance : DecidableRel NoLater := fun a b => inferInstanceAs (Decidable ((sign a b).isLE = true))

instance : IsTrans Diagnostic NoLater := ⟨fun _ _ _ => TransCmp.isLE_trans⟩

instance : Std.Total NoLater where
  total a b := by
    have hswap : sign a b = (sign b a).swap := OrientedCmp.eq_swap
    unfold NoLater
    cases h : sign b a <;> simp [hswap, h]

theorem before_iff {a b : Diagnostic} : before a b ↔ sign a b = .lt := by
  unfold before sign
  cases h : compareReports a b <;> simp

theorem before_eq_not (a b : Diagnostic) : before a b = !decide (NoLater b a) := by
  have hswap : sign b a = (sign a b).swap := OrientedCmp.eq_swap
  rw [Bool.eq_iff_iff, before_iff]
  unfold NoLater
  cases h : sign a b <;> simp [hswap, h]

theorem insert_eq (d : Diagnostic) (reports : List Diagnostic) :
    insert d reports = reports.orderedInsert NoLater d := by
  induction reports with
  | nil => rfl
  | cons e rest ih =>
    rw [insert, List.orderedInsert, ih, before_eq_not]
    by_cases h : NoLater d e <;> simp [h]

theorem sort_eq (reports : List Diagnostic) : sort reports = reports.insertionSort NoLater := by
  induction reports with
  | nil => rfl
  | cons d rest ih =>
    rw [List.insertionSort_cons, ← ih, ← insert_eq]
    rfl

theorem perm_sort (reports : List Diagnostic) : (sort reports).Perm reports := by
  rw [sort_eq]
  exact List.perm_insertionSort NoLater reports

theorem pairwise_sort (reports : List Diagnostic) : (sort reports).Pairwise NoLater := by
  rw [sort_eq]
  exact List.pairwise_insertionSort NoLater reports

/-- Comparing reports, an undecided comparison being taken as equality, is a weak order.  It can be
turned around, what comes no later is transitive, and so is what compares as equal.  Hence sorting
leaves no report behind one that it comes before.  For reports whose texts are not all printable ASCII
this is about the order that `Collation.weight` chooses. -/
theorem reports_are_weakly_ordered :
    (∀ a b, sign a b = (sign b a).swap) ∧
      (∀ a b c, (sign a b).isLE → (sign b c).isLE → (sign a c).isLE) ∧
      (∀ a b c, sign a b = .eq → sign b c = .eq → sign a c = .eq) ∧
      ∀ reports, (sort reports).Perm reports ∧
        (sort reports).Pairwise fun earlier later => ¬before later earlier := by
  refine ⟨fun a b => OrientedCmp.eq_swap, fun a b c => TransCmp.isLE_trans,
    fun a b c => TransCmp.eq_trans, fun reports => ⟨perm_sort reports, ?_⟩⟩
  refine (pairwise_sort reports).imp fun h => ?_
  simpa [before_eq_not] using h

/-! ## What is left open -/

theorem map_middle {β : Type} {f : Diagnostic → β} {d : Diagnostic} {front : List Diagnostic}
    (same : ∀ e ∈ front, f e = f d) (back : List Diagnostic) :
    (front ++ d :: back).map f = (d :: (front ++ back)).map f := by
  induction front with
  | nil => rfl
  | cons e front ih =>
    obtain ⟨hhead, hfront⟩ := List.forall_mem_cons.1 same
    simp only [List.cons_append, List.map_cons, ih hfront, hhead]

/-- Lists in a weak order with the same members look the same to a function that does not tell equals
apart. -/
theorem map_eq_of_pairwise {β : Type} {f : Diagnostic → β} {xs ys : List Diagnostic}
    (perm : xs.Perm ys) (hxs : xs.Pairwise NoLater) (hys : ys.Pairwise NoLater)
    (equals : ∀ a ∈ xs, ∀ b ∈ xs, sign a b = .eq → f a = f b) : xs.map f = ys.map f := by
  induction xs generalizing ys with
  | nil => rw [perm.nil_eq]
  | cons x xs ih =>
    obtain ⟨hhead, htail⟩ := List.pairwise_cons.1 hxs
    obtain ⟨front, back, rfl⟩ := List.append_of_mem (perm.mem_iff.1 List.mem_cons_self)
    have hrest : xs.Perm (front ++ back) := (List.perm_cons x).1 (perm.trans List.perm_middle)
    have hys' : (front ++ back).Pairwise NoLater :=
      hys.sublist ((List.sublist_cons_self x back).append_left front)
    -- What the second list has in front of its `x` is equal to `x`, the least of the first list.
    have hfront : ∀ e ∈ front, f e = f x := by
      intro e he
      have hmem : e ∈ xs := hrest.mem_iff.2 (List.mem_append_left _ he)
      have hle : NoLater e x := (List.pairwise_append.1 hys).2.2 e he x List.mem_cons_self
      exact equals e (List.mem_cons_of_mem _ hmem) x List.mem_cons_self
        (OrientedCmp.isLE_antisymm hle (hhead e hmem))
    rw [map_middle hfront, List.map_cons, List.map_cons,
      ih hrest htail hys' fun a ha b hb => equals a (.tail _ ha) b (.tail _ hb)]

/-- Some order of the reports is the documented one. -/
theorem exists_documented (reports : List Diagnostic) :
    ∃ ordered : List Diagnostic, ordered.Perm reports ∧
      ordered.Pairwise fun a b => (documented a b).isLE := by
  refine ⟨reports.mergeSort fun a b => (documented a b).isLE, List.mergeSort_perm _ _,
    List.pairwise_mergeSort (fun a b c => TransCmp.isLE_trans) (fun a b => ?_) reports⟩
  have hswap : documented a b = (documented b a).swap := OrientedCmp.eq_swap
  cases h : documented b a <;> simp [hswap, h]

theorem before_congr {a b : Diagnostic} (h : sign a b = .eq) (e : Diagnostic) :
    before e a = before e b := by
  rw [Bool.eq_iff_iff, before_iff, before_iff, TransCmp.congr_right h]

/-- Of two equals, the one that was pushed first is put in front of the other. -/
theorem insert_insert {a b : Diagnostic} (h : sign a b = .eq) (reports : List Diagnostic) :
    ∃ front back, insert a (insert b reports) = front ++ a :: b :: back ∧
      insert b (insert a reports) = front ++ b :: a :: back := by
  have hself : ∀ d, before d d = false := by
    intro d
    have hsign : sign d d = .eq := ReflCmp.compare_self
    simp [← Bool.not_eq_true, before_iff, hsign]
  have hab : before a b = false := (before_congr h a).symm.trans (hself a)
  have hba : before b a = false := (before_congr h b).trans (hself b)
  induction reports with
  | nil => exact ⟨[], [], by simp [insert, hba], by simp [insert, hab]⟩
  | cons e rest ih =>
    have hsame := before_congr h e
    cases he : before e b with
    | true =>
      obtain ⟨front, back, hfirst, hsecond⟩ := ih
      exact ⟨e :: front, back, by simp [insert, hsame, he, hfirst],
        by simp [insert, hsame, he, hsecond]⟩
    | false => exact ⟨[], e :: rest, by simp [insert, he, hba], by simp [insert, hsame, he, hab]⟩

/-- The lines of a report are those of the documented order, whatever the order in which its
diagnostics were pushed, exactly if any two of them read the same whose comparison is cut short by
a coordinate that both lack.  Outside printable ASCII the documented order is that of
`Collation.weight`. -/
theorem report_lines_fixed_iff {reports : List Diagnostic} (placed : ∀ d ∈ reports, d.Placed) :
    (∀ pushed ordered : List Diagnostic, pushed.Perm reports → ordered.Perm reports →
        ordered.Pairwise (fun a b => (documented a b).isLE) →
        (sort pushed).map text = ordered.map text) ↔
      ∀ a ∈ reports, ∀ b ∈ reports, Unsettled a b → a.text = b.text := by
  constructor
  · intro fixed a ha b hb unsettled
    by_cases hne : b = a
    · rw [hne]
    -- The two are pushed last, in either order, and their lines must not tell which.
    have hequal : sign a b = .eq := (sign_eq_eq_iff (placed a ha) (placed b hb)).2 (.inr unsettled)
    have hperm : (a :: b :: (reports.erase a).erase b).Perm reports :=
      ((List.perm_cons_erase ha).trans
        ((List.perm_cons_erase ((List.mem_erase_of_ne hne).2 hb)).cons a)).symm
    obtain ⟨ordered, hordered, hpairwise⟩ := exists_documented reports
    have hfirst := fixed _ ordered hperm hordered hpairwise
    have hsecond := fixed _ ordered ((List.Perm.swap a b _).trans hperm) hordered hpairwise
    obtain ⟨front, back, hab, hba⟩ := insert_insert hequal (sort ((reports.erase a).erase b))
    have hlines : (front ++ a :: b :: back).map text = (front ++ b :: a :: back).map text := by
      rw [← hab, ← hba]
      exact hfirst.trans hsecond.symm
    simp only [List.map_append, List.map_cons, List.append_cancel_left_eq, List.cons.injEq] at hlines
    exact hlines.1
  · intro same pushed ordered hpushed hordered hpairwise
    have hperm : (sort pushed).Perm reports := (perm_sort pushed).trans hpushed
    apply map_eq_of_pairwise (hperm.trans hordered.symm) (pairwise_sort pushed)
      (hpairwise.imp sign_isLE_of_documented)
    intro a ha b hb hequal
    have ha := hperm.mem_iff.1 ha
    have hb := hperm.mem_iff.1 hb
    rcases (sign_eq_eq_iff (placed a ha) (placed b hb)).1 hequal with rfl | unsettled
    · rfl
    · exact same a ha b hb unsettled

/-- A tape without cells. -/
def noCells : Diagnostic := OptionError.diagnostic "x.b" (.badCells (.integer 0))

/-- A stride that is neither 1 nor 8. -/
def oddStride : Diagnostic := OptionError.diagnostic "x.b" (.badStride (.integer 4))

/-- An error with a place. -/
def unexpectedAt (line column : Int) : Diagnostic :=
  ⟨ReportCode.unexpectedToken.id, .error, "Unexpected token", "x.b", some (.integer line),
    some (.integer column)⟩

theorem placed_diagnostic (file : String) (e : OptionError) : (e.diagnostic file).Placed :=
  ⟨nofun, nofun⟩

theorem placed_unexpectedAt {line column : Int} (hline : 1 ≤ line) (hcolumn : 1 ≤ column) :
    (unexpectedAt line column).Placed :=
  ⟨fun _ h => ⟨line, hline, (Option.some.inj h).symm⟩,
    fun _ h => ⟨column, hcolumn, (Option.some.inj h).symm⟩⟩

/-- Two errors with a place and one without: no two of them are left unsettled. -/
theorem report_lines_fixed_mixed :
    (∀ d ∈ [unexpectedAt 2 1, unexpectedAt 1 5, noCells], d.Placed) ∧
      ∀ pushed, pushed.Perm [unexpectedAt 2 1, unexpectedAt 1 5, noCells] →
        (sort pushed).map text =
          ["x.b:1:5: error: [BFQ100] Unexpected token", "x.b:2:1: error: [BFQ100] Unexpected token",
            "x.b: error: [BFQ200] Tape size must be a positive integer number of cells (got 0)"] := by
  have placed : ∀ d ∈ [unexpectedAt 2 1, unexpectedAt 1 5, noCells], d.Placed := by
    simp [placed_unexpectedAt, noCells, placed_diagnostic]
  refine ⟨placed, fun pushed hpushed => ?_⟩
  have hfixed := (report_lines_fixed_iff placed).2 ?_ pushed [unexpectedAt 1 5, unexpectedAt 2 1, noCells]
    hpushed (List.Perm.swap _ _ _) (by decide)
  · rw [hfixed]
    decide
  · simp [Unsettled, unexpectedAt, noCells, OptionError.diagnostic, Diagnostic.error]

/-- Two errors without a place are reported in the order in which they were pushed, although the
documented order of their messages is fixed. -/
theorem report_lines_follow_pushing :
    noCells.Placed ∧ oddStride.Placed ∧ documented oddStride noCells = .lt ∧
      (sort [oddStride, noCells]).map text =
        ["x.b: error: [BFQ200] Cell stride must be 1 or 8 (got 4)",
          "x.b: error: [BFQ200] Tape size must be a positive integer number of cells (got 0)"] ∧
      (sort [noCells, oddStride]).map text =
        ["x.b: error: [BFQ200] Tape size must be a positive integer number of cells (got 0)",
          "x.b: error: [BFQ200] Cell stride must be 1 or 8 (got 4)"] :=
  ⟨placed_diagnostic _ _, placed_diagnostic _ _, by decide, by decide, by decide⟩

end TapeCompiler.Diagnostic
