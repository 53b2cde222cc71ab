import Mathlib.Data.List.Sort
import TapeCompiler.Diagnostic.Order

/-! # Comparing reports

Two comparisons of reports.  `Diagnostic.documented` goes through file, line, column, severity,
identifier and message.  `Diagnostic.sign` is what sorting makes of `Diagnostic.compareReports`: an
undecided comparison counts as equality.  The two part where both reports lack a line, or have the
same line and both lack a column.  There `sign` finds them equal whatever else they say.

Both are weak orders: they can be turned around, and what comes no later is transitive.  For `sign`
this is not plain, since what it looks at depends on which coordinates are there.  `sign_eq` puts it
together from comparisons that are weak orders one by one.  The parts that are not compared
are those of `compareAmong`: reports outside of it are all equal, and behind those inside.

* `Collation.compareTexts`, `Number.order`: weak orders, and the first tells all texts apart.
* `Diagnostic.sign_eq`, `Diagnostic.sign_isLE_of_documented`: the two comparisons.
* `Diagnostic.eq_of_sign_eq`: reports that compare as equal are the same or lack a coordinate.
-/

namespace TapeCompiler

open Std (LawfulEqCmp OrientedCmp ReflCmp TransCmp)

/-! ## Texts -/

namespace Collation

theorem compareKeys_eq (xs ys : List Nat) : compareKeys xs ys = compare xs ys := by
  fun_induction compareKeys xs ys with
  | case1 => rfl
  | case2 y ys => rfl
  | case3 x xs => rfl
  | case4 x xs y ys ih => rw [ih, List.compare_cons_cons]

theorem compareTexts_eq : compareTexts =
    compareLex (compareOn fun text => text.toList.map weight)
      (compareOn fun text => text.toList.map caseRank) := by
  funext a b
  simp only [compareTexts, compareKeys_eq, compareLex, compareOn]

instance : TransCmp compareTexts := by
  rw [compareTexts_eq]
  infer_instance

theorem isUpper_iff_val (c : Char) : c.isUpper ↔ 'A'.val ≤ c.val ∧ c.val ≤ 'Z'.val :=
  decide_eq_true_iff

theorem isUpper_iff (c : Char) : c.isUpper ↔ 65 ≤ c.toNat ∧ c.toNat ≤ 90 := by
  simp [isUpper_iff_val, UInt32.le_iff_toNat_le]

theorem isLower_iff (c : Char) : c.isLower ↔ 97 ≤ c.toNat ∧ c.toNat ≤ 122 := by
  have hdef : c.isLower = (decide (97 ≤ c.val) && decide (c.val ≤ 122)) := rfl
  simp [hdef, UInt32.le_iff_toNat_le]

theorem isAlpha_iff (c : Char) : c.isAlpha ↔ c.isUpper ∨ c.isLower := by
  have hdef : c.isAlpha = (c.isUpper || c.isLower) := rfl
  simp [hdef]

theorem toNat_toLower (c : Char) :
    c.toLower.toNat = if c.isUpper then c.toNat + 32 else c.toNat := by
  delta Char.toLower
  by_cases hupper : c.isUpper
  · have hle := (isUpper_iff c).1 hupper
    rw [if_pos hupper, dif_pos ((isUpper_iff_val c).1 hupper)]
    change (c.val + 32).toNat = c.toNat + 32
    rw [UInt32.toNat_add]
    change (c.toNat + 32) % 2 ^ 32 = c.toNat + 32
    omega
  · rw [if_neg hupper, dif_neg (mt (isUpper_iff_val c).2 hupper)]

/-- The weight of a character says of which kind it is, and but for its case which one. -/
theorem weight_cases (c : Char) :
    (weight c = c.toNat + 52 ∧ 48 ≤ c.toNat ∧ c.toNat ≤ 57) ∨
      (weight c = c.toNat + 135 ∧ 65 ≤ c.toNat ∧ c.toNat ≤ 90 ∧ caseRank c = 1) ∨
      (weight c = c.toNat + 103 ∧ 97 ≤ c.toNat ∧ c.toNat ≤ 122 ∧ caseRank c = 0) ∨
      (weight c = symbols.idxOf c ∧ c ∈ symbols ∧ symbols.idxOf c < 33) ∨
      weight c = c.toNat + 300 := by
  have hupper := isUpper_iff c
  unfold weight
  split
  · rename_i hdigit
    simp [Char.isDigit, UInt32.le_iff_toNat_le] at hdigit ⊢
    omega
  · split
    · rename_i halpha
      rw [toNat_toLower, caseRank]
      rw [isAlpha_iff, isLower_iff] at halpha
      by_cases h : c.isUpper
      · simp [h] at hupper ⊢
        omega
      · simp [h] at halpha ⊢
        omega
    · split
      · rename_i hsymbol
        have hmem := List.contains_iff_mem.1 hsymbol
        exact .inr (.inr (.inr (.inl ⟨rfl, hmem, List.idxOf_lt_length_of_mem hmem⟩)))
      · exact .inr (.inr (.inr (.inr (Nat.add_comm _ _))))

theorem eq_of_weight_eq {c d : Char} (hweight : weight c = weight d)
    (hcase : caseRank c = caseRank d) : c = d := by
  have hcode : c.toNat = d.toNat → c = d := Char.toNat_inj.1
  rcases weight_cases c with hc | hc | hc | ⟨hc, hmem, _⟩ | hc <;>
    rcases weight_cases d with hd | hd | hd | ⟨hd, _, _⟩ | hd
  -- Only two symbols are told apart by anything but their codes.
  case inr.inr.inr.inl.inr.inr.inr.inl =>
    rw [hc, hd] at hweight
    exact (List.idxOf_inj hmem).1 hweight
  all_goals
    apply hcode
    omega

theorem eq_of_keys_eq {xs ys : List Char} (hweights : xs.map weight = ys.map weight)
    (hcases : xs.map caseRank = ys.map caseRank) : xs = ys := by
  induction xs generalizing ys with
  | nil => simpa using hweights
  | cons x xs ih =>
    cases ys with
    | nil => simp at hweights
    | cons y ys =>
      simp only [List.map_cons, List.cons.injEq] at hweights hcases
      rw [eq_of_weight_eq hweights.1 hcases.1, ih hweights.2 hcases.2]

instance : LawfulEqCmp compareTexts where
  eq_of_compare {a b} h := by
    rw [compareTexts_eq] at h
    simp only [compareLex, compareOn, Ordering.then_eq_eq, Std.LawfulEqCmp.compare_eq_iff_eq] at h
    exact String.toList_injective (eq_of_keys_eq h.1 h.2)

end Collation

/-! ## Numbers -/

namespace Number

/-- Whether a number lies below, among or above the finite ones. -/
def side : Number → Int
  | .infinity true => -1
  | .infinity false => 1
  | _ => 0

def compareRatios (a b : Number) : Ordering :=
  compare (a.numerator * b.denominator) (b.numerator * a.denominator)

theorem denominator_pos (n : Number) : 0 < n.denominator := by
  cases n with
  | integer i => exact Nat.one_pos
  | fraction i halvings =>
    rw [denominator, Nat.one_shiftLeft]
    exact Nat.two_pow_pos halvings
  | infinity negative => exact Nat.one_pos

instance : TransCmp compareRatios where
  eq_swap := Std.OrientedOrd.eq_swap
  isLE_trans {a b c} hab hbc := by
    simp only [compareRatios, Int.isLE_compare] at *
    have ha := denominator_pos a
    have hb := denominator_pos b
    have hc := denominator_pos c
    -- Both inequalities are brought to the product of the three denominators.
    apply Int.le_of_mul_le_mul_right (a := (b.denominator : Int)) _ (by omega)
    calc a.numerator * c.denominator * b.denominator
        = a.numerator * b.denominator * c.denominator := Int.mul_right_comm ..
      _ ≤ b.numerator * a.denominator * c.denominator :=
          Int.mul_le_mul_of_nonneg_right hab (by omega)
      _ = b.numerator * c.denominator * a.denominator := Int.mul_right_comm ..
      _ ≤ c.numerator * b.denominator * a.denominator :=
          Int.mul_le_mul_of_nonneg_right hbc (by omega)
      _ = c.numerator * a.denominator * b.denominator := Int.mul_right_comm ..

/-- Numbers on different sides are told apart by that, and two that are infinite on the same side
count as zero. -/
theorem order_eq : order = compareLex (compareOn side) compareRatios := by
  funext a b
  cases a with
  | infinity x => cases b with
    | infinity y => cases x <;> cases y <;> rfl
    | integer j => cases x <;> rfl
    | fraction j k => cases x <;> rfl
  | integer i => cases b with
    | infinity y => cases y <;> rfl
    | integer j => rfl
    | fraction j k => rfl
  | fraction i k => cases b with
    | infinity y => cases y <;> rfl
    | integer j => rfl
    | fraction j k' => rfl

instance : TransCmp order := by
  rw [order_eq]
  infer_instance

theorem side_eq_of_order_eq {a b : Number} (h : order a b = .eq) : a.side = b.side := by
  rw [order_eq] at h
  exact Std.LawfulEqCmp.eq_of_compare (Ordering.then_eq_eq.1 h).1

theorem integer_eq_of_order_eq {m n : Int} (h : order (.integer m) (.integer n) = .eq) : m = n := by
  simpa [order, numerator, denominator] using h

end Number

/-! ## Comparing only some -/

/-- Compares by `cmp` those that satisfy `p`.  All others are equal, and come behind them. -/
def compareAmong {α : Type} (p : α → Bool) (cmp : α → α → Ordering) (a b : α) : Ordering :=
  match p a, p b with
  | true, true => cmp a b
  | true, false => .lt
  | false, true => .gt
  | false, false => .eq

instance {α : Type} {p : α → Bool} {cmp : α → α → Ordering} [TransCmp cmp] :
    TransCmp (compareAmong p cmp) where
  eq_swap {a b} := by
    cases ha : p a <;> cases hb : p b <;> simp [compareAmong, ha, hb, ← OrientedCmp.eq_swap]
  isLE_trans {a b c} hab hbc := by
    cases ha : p a <;> cases hb : p b <;> cases hc : p c <;>
      simp only [compareAmong, ha, hb, hc] at hab hbc ⊢
    case true.true.true => exact TransCmp.isLE_trans hab hbc
    all_goals first | rfl | contradiction

namespace Diagnostic

/-! ## Undecided comparisons -/

/-- A comparison as sorting reads it: undecided counts as equal. -/
def sign (a b : Diagnostic) : Ordering := (compareReports a b).getD .eq

/-- Compares by file, line, column, severity, identifier and message. -/
def documented : Diagnostic → Diagnostic → Ordering :=
  compareLex (Ordering.byKey file Collation.compareTexts)
    (compareLex (Ordering.byKey (fun d => coordinate d.line) Number.order)
      (compareLex (Ordering.byKey (fun d => coordinate d.column) Number.order) compareRest))

theorem compareRest_eq : compareRest =
    compareLex (compareOn fun d => severityRank d.severity)
      (compareLex (Ordering.byKey id Collation.compareTexts)
        (Ordering.byKey message Collation.compareTexts)) := rfl

instance : TransCmp compareRest := by
  rw [compareRest_eq]
  infer_instance

instance : TransCmp documented := by
  unfold documented
  infer_instance

def lineKnown (d : Diagnostic) : Bool := (coordinate d.line).side = 0

def columnKnown (d : Diagnostic) : Bool := (coordinate d.column).side = 0

theorem getD_thenCompare (o : Ordering) (next : Option Ordering) :
    (thenCompare (some o) next).getD .eq = o.then (next.getD .eq) := by
  cases o <;> rfl

/-- What comes behind two coordinates counts only if they are finite. -/
theorem getD_thenCompare_coordinates (x y : Number) (next : Option Ordering) :
    (thenCompare (compareCoordinates x y) next).getD .eq =
      (Number.order x y).then (if x.side = 0 then next.getD .eq else .eq) := by
  cases x with
  | integer i => simp only [compareCoordinates, getD_thenCompare, Number.side, if_true]
  | fraction i k => simp only [compareCoordinates, getD_thenCompare, Number.side, if_true]
  | infinity s =>
    cases y with
    | integer j => cases s <;> rfl
    | fraction j k => cases s <;> rfl
    | infinity s' => cases s <;> cases s' <;> rfl

theorem sign_eq_ite (a b : Diagnostic) : sign a b =
    (Collation.compareTexts a.file b.file).then
      ((Number.order (coordinate a.line) (coordinate b.line)).then
        (if a.lineKnown then
          (Number.order (coordinate a.column) (coordinate b.column)).then
            (if a.columnKnown then compareRest a b else .eq)
        else .eq)) := by
  simp only [sign, compareReports, getD_thenCompare, getD_thenCompare_coordinates, Option.getD_some,
    lineKnown, columnKnown, decide_eq_true_eq]

theorem then_compareAmong {α : Type} {p : α → Bool} {cmp : α → α → Ordering} {o : Ordering} {a b : α}
    (h : o = .eq → p a = p b) :
    o.then (compareAmong p cmp a b) = o.then (if p a then cmp a b else .eq) := by
  cases o with
  | lt => rfl
  | gt => rfl
  | eq =>
    have hb : p b = p a := (h rfl).symm
    cases ha : p a <;> simp [compareAmong, ha, hb]

/-- Equal coordinates are both finite or both infinite, so it does not matter which of the two reports
is asked whether to go on. -/
theorem sign_eq : sign =
    compareLex (Ordering.byKey file Collation.compareTexts)
      (compareLex (Ordering.byKey (fun d => coordinate d.line) Number.order)
        (compareAmong lineKnown
          (compareLex (Ordering.byKey (fun d => coordinate d.column) Number.order)
            (compareAmong columnKnown compareRest)))) := by
  funext a b
  have hline : Number.order (coordinate a.line) (coordinate b.line) = .eq →
      a.lineKnown = b.lineKnown := by
    intro h
    rw [lineKnown, lineKnown, Number.side_eq_of_order_eq h]
  have hcolumn : Number.order (coordinate a.column) (coordinate b.column) = .eq →
      a.columnKnown = b.columnKnown := by
    intro h
    rw [columnKnown, columnKnown, Number.side_eq_of_order_eq h]
  simp only [sign_eq_ite, compareLex, Ordering.byKey, then_compareAmong hline,
    then_compareAmong hcolumn]

instance : TransCmp sign := by
  rw [sign_eq]
  infer_instance

theorem sign_isLE_of_documented {a b : Diagnostic} (h : (documented a b).isLE) :
    (sign a b).isLE := by
  simp only [documented, compareLex, Ordering.byKey, Ordering.isLE_then_iff_or] at h
  simp only [sign_eq_ite, Ordering.isLE_then_iff_or]
  rcases h with hfile | ⟨hfile, hline | ⟨hline, hcolumn⟩⟩
  · exact .inl hfile
  · exact .inr ⟨hfile, .inl hline⟩
  · refine .inr ⟨hfile, .inr ⟨hline, ?_⟩⟩
    split
    · rw [Ordering.isLE_then_iff_or]
      refine hcolumn.imp_right fun ⟨hcolumn, hrest⟩ => ⟨hcolumn, ?_⟩
      split
      · exact hrest
      · rfl
    · rfl

/-! ## Reports that compare as equal -/

/-- The coordinates that a report has are positive integers. -/
structure Placed (d : Diagnostic) : Prop where
  line : ∀ x ∈ d.line, ∃ k : Int, 1 ≤ k ∧ x = .integer k
  column : ∀ x ∈ d.column, ∃ k : Int, 1 ≤ k ∧ x = .integer k

/-- Two reports on one file that both have no line, or that have the same line and both have no
column. -/
def Unsettled (a b : Diagnostic) : Prop :=
  a.file = b.file ∧ a.line = b.line ∧ (a.line = none ∨ a.column = none ∧ b.column = none)

theorem eq_of_order_coordinate {x y : Option Number} (hx : ∀ n ∈ x, ∃ k : Int, 1 ≤ k ∧ n = .integer k)
    (hy : ∀ n ∈ y, ∃ k : Int, 1 ≤ k ∧ n = .integer k)
    (h : Number.order (coordinate x) (coordinate y) = .eq) : x = y := by
  cases x with
  | none =>
    cases y with
    | none => rfl
    | some n =>
      obtain ⟨k, _, rfl⟩ := hy n rfl
      cases h
  | some m =>
    obtain ⟨j, _, rfl⟩ := hx m rfl
    cases y with
    | none => cases h
    | some n =>
      obtain ⟨k, _, rfl⟩ := hy n rfl
      rw [Number.integer_eq_of_order_eq h]

theorem side_coordinate {x : Option Number} (hx : ∀ n ∈ x, ∃ k : Int, 1 ≤ k ∧ n = .integer k) :
    (coordinate x).side = 0 ↔ x ≠ none := by
  cases x with
  | none => simp [coordinate, Number.side]
  | some n =>
    obtain ⟨k, _, rfl⟩ := hx n rfl
    simp [coordinate, Number.side]

theorem severityRank_injective {s t : Severity} (h : severityRank s = severityRank t) : s = t := by
  cases s <;> cases t <;> first | rfl | cases h

theorem compareRest_eq_eq {a b : Diagnostic} (h : compareRest a b = .eq) :
    a.severity = b.severity ∧ a.id = b.id ∧ a.message = b.message := by
  simp only [compareRest, Ordering.then_eq_eq, LawfulEqCmp.compare_eq_iff_eq] at h
  exact ⟨severityRank_injective h.1, h.2⟩

/-- Reports compare as equal if they are the same, or if a coordinate that both lack keeps the rest of
them from being compared. -/
theorem sign_eq_eq_iff {a b : Diagnostic} (ha : a.Placed) (hb : b.Placed) :
    sign a b = .eq ↔ a = b ∨ Unsettled a b := by
  have hlineKnown : a.lineKnown ↔ a.line ≠ none := by
    rw [lineKnown, decide_eq_true_eq, side_coordinate ha.line]
  have hcolumnKnown : a.columnKnown ↔ a.column ≠ none := by
    rw [columnKnown, decide_eq_true_eq, side_coordinate ha.column]
  constructor
  · intro h
    simp only [sign_eq_ite, Ordering.then_eq_eq, LawfulEqCmp.compare_eq_iff_eq] at h
    obtain ⟨hfile, hline, hbehind⟩ := h
    have hline := eq_of_order_coordinate ha.line hb.line hline
    by_cases hnone : a.line = none
    · exact .inr ⟨hfile, hline, .inl hnone⟩
    · rw [if_pos (hlineKnown.2 hnone), Ordering.then_eq_eq] at hbehind
      have hcolumn := eq_of_order_coordinate ha.column hb.column hbehind.1
      by_cases hnone' : a.column = none
      · exact .inr ⟨hfile, hline, .inr ⟨hnone', hcolumn ▸ hnone'⟩⟩
      · rw [if_pos (hcolumnKnown.2 hnone')] at hbehind
        obtain ⟨hseverity, hid, hmessage⟩ := compareRest_eq_eq hbehind.2
        left
        cases a
        cases b
        simp_all
  · rintro (rfl | ⟨hfile, hline, hmissing⟩)
    · exact ReflCmp.compare_self
    · have hself : ∀ x, Number.order x x = .eq := fun x => ReflCmp.compare_self
      simp only [sign_eq_ite, Ordering.then_eq_eq, LawfulEqCmp.compare_eq_iff_eq, ← hline, hself]
      refine ⟨hfile, trivial, ?_⟩
      rcases hmissing with hnone | ⟨hnone, hnone'⟩
      · rw [if_neg (by simp [hlineKnown, hnone])]
      · split
        · rw [if_neg (by simp [hcolumnKnown, hnone]), hnone, hnone', hself]
          rfl
        · rfl

end Diagnostic

end TapeCompiler
