import Mathlib.Algebra.Group.Nat.Defs
import TapeCompiler.Tape
import TapeCompiler.Tree.Basic

/-! # The tape in bytes

A tape of fewer than `2 ^ 53` cells has fewer than `2 ^ 57` bytes.  The sizes and distances that a
program needs are products of a safe integer and a power of two, so they have 53 significant bits
and nothing is rounded: `Number.scale_two_pow`.

* `Tape.size`, `Stride.width`: the number of cells of a tape and the bits of each.
* `Tape.Accepted`: what an accepted choice of tape promises.
* `Statement.countsSafe`: whether all counts of a statement are positive safe integers.
* `Statement.parts`: the statements that a statement is made of.
-/

namespace TapeCompiler

/-! ## Products that are not rounded -/

namespace Number

theorem excessBits_le {m k : Nat} (h : m < 2 ^ (53 + k)) : excessBits m ≤ k := by
  unfold excessBits
  by_cases hm : m = 0
  · subst hm
    simp
  · have hlog := (Nat.log2_lt hm).2 h
    omega

theorem roundHalfEven_mul {d : Nat} (hd : 0 < d) (q : Nat) : roundHalfEven (d * q) d = q := by
  simp [roundHalfEven, Nat.mul_div_cancel_left _ hd, hd]

/-- A natural whose excess bits are zeros is its own nearest one. -/
theorem nearest_eq_self {m : Nat} (h : 2 ^ excessBits m ∣ m) : nearest m 1 = m := by
  simp only [nearest, Nat.div_one, Nat.shiftLeft_eq, Nat.one_mul]
  obtain ⟨q, hq⟩ := h
  generalize excessBits m = e at hq ⊢
  subst hq
  rw [roundHalfEven_mul (Nat.two_pow_pos e), Nat.mul_comm]

theorem two_mul_two_pow (n k : Nat) : 2 * (n * 2 ^ k) = n * 2 ^ (k + 1) := by
  rw [Nat.pow_succ, Nat.mul_left_comm, Nat.mul_comm 2]

/-- Only the lowest `k` bits of such a product are in excess of 53, and they are zeros. -/
theorem nearest_mul_two_pow {n : Nat} (hn : n < safeLimit) (k : Nat) :
    nearest (n * 2 ^ k) 1 = n * 2 ^ k := by
  have hlimit : n * 2 ^ k < 2 ^ (53 + k) := by
    rw [Nat.pow_add 2 53]
    exact Nat.mul_lt_mul_of_pos_right hn (Nat.two_pow_pos k)
  apply nearest_eq_self
  exact Nat.dvd_mul_left_of_dvd (Nat.pow_dvd_pow 2 (excessBits_le hlimit)) n

theorem scale_two_pow {n j k : Nat} (hn : n < safeLimit) (hjk : j + k ≤ 64) :
    (ofNat (n * 2 ^ j)).scale (2 ^ k) = ofNat (n * 2 ^ (j + k)) := by
  have hproduct : n * 2 ^ j * 2 ^ k = n * 2 ^ (j + k) := by rw [Nat.mul_assoc, ← Nat.pow_add]
  have hfinite : n * 2 ^ (j + k) < 1 <<< 1024 := by
    have hlimit : n * 2 ^ (j + k) < 2 ^ 53 * 2 ^ (j + k) :=
      Nat.mul_lt_mul_of_pos_right hn (Nat.two_pow_pos (j + k))
    have hmono := Nat.pow_le_pow_right (n := 2) (by decide) (by omega : 53 + (j + k) ≤ 1024)
    rw [Nat.pow_add] at hmono
    rw [Nat.one_shiftLeft]
    omega
  have hsign : decide (((n * 2 ^ j : Nat) : Int) < 0) = false :=
    decide_eq_false (Int.not_lt.2 (Int.natCast_nonneg _))
  simp only [ofNat, scale, hsign, Int.natAbs_natCast, hproduct, nearest_mul_two_pow hn, ofMagnitude,
    if_pos hfinite, signed]
  rfl

/-- Whether a number is a positive safe integer. -/
def isCount : Number → Bool
  | .integer n => decide (0 < n ∧ n.natAbs < safeLimit)
  | _ => false

theorem isCount_iff {n : Number} : n.isCount ↔ ∃ k : Nat, n = .ofNat k ∧ 0 < k ∧ k < safeLimit := by
  constructor
  · intro h
    cases n with
    | integer i =>
      obtain ⟨hpos, hsafe⟩ := of_decide_eq_true h
      obtain ⟨k, rfl⟩ := Int.eq_ofNat_of_zero_le (Int.le_of_lt hpos)
      exact ⟨k, rfl, Int.natCast_pos.1 hpos, hsafe⟩
    | fraction i k => cases h
    | infinity negative => cases h
  · rintro ⟨k, rfl, hpos, hlt⟩
    exact decide_eq_true ⟨Int.natCast_pos.2 hpos, hlt⟩

end Number

/-! ## Tapes -/

/-- How many bits a cell has. -/
def Stride.width : Stride → Nat
  | .one => 8
  | .eight => 32

theorem Stride.bytes_eq_two_pow (s : Stride) : ∃ k ≤ 3, s.bytes = 2 ^ k := by
  cases s with
  | one => exact ⟨0, by decide, rfl⟩
  | eight => exact ⟨3, by decide, rfl⟩

theorem Number.scale_bytes {n : Nat} (hn : n < safeLimit) (s : Stride) :
    (ofNat n).scale s.bytes = ofNat (n * s.bytes) := by
  obtain ⟨k, hk, hbytes⟩ := s.bytes_eq_two_pow
  rw [hbytes]
  simpa using scale_two_pow (n := n) (j := 0) (k := k) hn (by omega)

/-- How many cells a tape has. -/
def Tape.size (t : Tape) : Nat := t.cells.index?.getD 0

/-- An accepted number of cells, with all that a choice of tape promises about it. -/
structure Tape.Accepted (t : Tape) : Prop where
  cells_eq : t.cells = .ofNat t.size
  size_pos : 0 < t.size
  size_lt : t.size < Number.safeLimit

theorem TapeOptions.resolve_accepted {options : TapeOptions} {layout : Tape}
    (h : options.resolve = .ok layout) : layout.Accepted := by
  -- Both numbers are checked, and there is a tape only where neither has an error.
  simp only [resolve] at h
  split at h
  · rename_i stride cellErrors hstride herrors
    cases h
    unfold TapeOptions.cellErrors at herrors
    split at herrors
    · rename_i hcells
      generalize options.cells.getD defaultCells = cells at hcells
      cases cells with
      | integer i =>
        simp only [isCellCount, Bool.and_eq_true, decide_eq_true_eq] at hcells
        obtain ⟨n, rfl⟩ := Int.eq_ofNat_of_zero_le (by omega : 0 ≤ i)
        refine ⟨rfl, ?_, ?_⟩
        · simp only [Tape.size, Number.index?, Option.getD_some]
          omega
        · simp only [Tape.size, Number.index?, Option.getD_some]
          omega
      | fraction i k => simp [isCellCount] at hcells
      | infinity negative => simp [isCellCount] at hcells
    · cases herrors
  · cases h
  · cases h

namespace Tape.Accepted

variable {t : Tape}

theorem addressable_eq (h : t.Accepted) : t.addressable = .ofNat (t.size * t.stride.bytes) := by
  rw [addressable, h.cells_eq, Number.scale_bytes h.size_lt]

theorem allocated_eq (h : t.Accepted) : t.allocated = .ofNat (2 * (t.size * t.stride.bytes)) := by
  obtain ⟨k, hk, hbytes⟩ := t.stride.bytes_eq_two_pow
  rw [allocated, h.addressable_eq, hbytes, Number.two_mul_two_pow]
  exact Number.scale_two_pow (n := t.size) (j := k) (k := 1) h.size_lt (by omega)

theorem region_lt (h : t.Accepted) : 2 * (t.size * t.stride.bytes) < 2 ^ 57 := by
  have hlt := h.size_lt
  unfold Number.safeLimit at hlt
  cases t.stride with
  | one => simp only [Stride.bytes]; omega
  | eight => simp only [Stride.bytes]; omega

end Tape.Accepted

/-! ## Counts -/

namespace Statement

variable {α : Type}

mutual

/-- Whether every count of a statement is a positive safe integer. -/
def countsSafe : Statement α → Bool
  | .counted _ count _ => count.isCount
  | .read _ => true
  | .write _ => true
  | .loop body _ => countsSafeAll body

def countsSafeAll : List (Statement α) → Bool
  | [] => true
  | s :: rest => s.countsSafe && countsSafeAll rest

end

mutual

/-- A statement and all statements inside it, at any depth. -/
def parts : Statement α → List (Statement α)
  | .counted command count note => [.counted command count note]
  | .read note => [.read note]
  | .write note => [.write note]
  | .loop body note => .loop body note :: partsAll body

def partsAll : List (Statement α) → List (Statement α)
  | [] => []
  | s :: rest => s.parts ++ partsAll rest

end

mutual

theorem isCount_of_mem_parts {command : Counted} {count : Number} {note : α} {s : Statement α}
    (hs : s.countsSafe) (h : .counted command count note ∈ s.parts) : count.isCount := by
  cases s with
  | counted command' count' note' =>
    cases List.mem_singleton.1 h
    exact hs
  | read note' => cases List.mem_singleton.1 h
  | write note' => cases List.mem_singleton.1 h
  | loop body note' =>
    cases h with
    | tail _ hbody => exact isCount_of_mem_partsAll hs hbody

theorem isCount_of_mem_partsAll {command : Counted} {count : Number} {note : α}
    {ss : List (Statement α)} (hs : countsSafeAll ss)
    (h : .counted command count note ∈ partsAll ss) : count.isCount := by
  cases ss with
  | nil => cases h
  | cons s rest =>
    rw [countsSafeAll, Bool.and_eq_true] at hs
    obtain h | h := List.mem_append.1 h
    · exact isCount_of_mem_parts hs.1 h
    · exact isCount_of_mem_partsAll hs.2 h

end

theorem countsSafeAll_append (xs ys : List (Statement α)) :
    countsSafeAll (xs ++ ys) = (countsSafeAll xs && countsSafeAll ys) := by
  induction xs with
  | nil => rfl
  | cons x rest ih => simp only [List.cons_append, countsSafeAll, ih, Bool.and_assoc]

end Statement

end TapeCompiler
