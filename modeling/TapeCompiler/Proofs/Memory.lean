import TapeCompiler.Proofs.Execution

/-! # Bytes in memory

Facts about reading and writing bytes, and about numbers as bytes with the lowest first.

Everything that a program writes lies in one region.  So addresses are compared through their
offsets from its base: `overlay_offset` says where in the region a write is seen, and
`read_overlay_of_disjoint` and `read_overlay_self` follow from it.
-/

namespace TapeCompiler.Qbe

/-! ## Numbers as bytes -/

@[simp] theorem length_toBytes (n v : Nat) : (toBytes n v).length = n := by
  induction n generalizing v with
  | zero => rfl
  | succ n ih => simp [toBytes, ih]

theorem ofBytes_toBytes (n v : Nat) : ofBytes (toBytes n v) = v % 256 ^ n := by
  induction n generalizing v with
  | zero => simp [toBytes, ofBytes, Nat.mod_one]
  | succ n ih =>
    have hsplit : v % 256 ^ (n + 1) = v % 256 + 256 * (v / 256 % 256 ^ n) := by
      rw [Nat.pow_succ 256 n, Nat.mul_comm (256 ^ n) 256, Nat.mod_mul]
    simp only [toBytes, ofBytes, ih, BitVec.toNat_ofNat, hsplit]

theorem ofBytes_lt (bytes : List Byte) : ofBytes bytes < 256 ^ bytes.length := by
  induction bytes with
  | nil => simp [ofBytes]
  | cons b rest ih =>
    have hb := b.isLt
    simp only [ofBytes, List.length_cons, Nat.pow_succ]
    omega

theorem toBytes_mod (n v : Nat) : toBytes n (v % 256 ^ n) = toBytes n v := by
  induction n generalizing v with
  | zero => rfl
  | succ n ih =>
    have hlow : BitVec.ofNat 8 (v % 256 ^ (n + 1)) = BitVec.ofNat 8 v := by
      apply BitVec.eq_of_toNat_eq
      simp only [BitVec.toNat_ofNat]
      exact Nat.mod_mod_of_dvd v ⟨256 ^ n, by rw [Nat.pow_succ, Nat.mul_comm]⟩
    have hhigh : v % 256 ^ (n + 1) / 256 = v / 256 % 256 ^ n := by
      rw [Nat.pow_succ, Nat.mul_comm, Nat.mod_mul_right_div_self]
    simp only [toBytes, hlow, hhigh, ih]

theorem toBytes_zero (n : Nat) : toBytes n 0 = List.replicate n 0 := by
  induction n with
  | zero => rfl
  | succ n ih => rw [toBytes, Nat.zero_div, ih, List.replicate_succ]; rfl

theorem toBytes_congr {n v w : Nat} (h : v % 256 ^ n = w % 256 ^ n) :
    toBytes n v = toBytes n w := by
  rw [← toBytes_mod n v, h, toBytes_mod]

theorem toBytes_withLowByte (n v : Nat) (b : Byte) :
    toBytes (n + 1) (v / 256 * 256 + b.toNat) = b :: toBytes n (v / 256) := by
  have hb := b.isLt
  have hlow : BitVec.ofNat 8 (v / 256 * 256 + b.toNat) = b := by
    apply BitVec.eq_of_toNat_eq
    rw [BitVec.toNat_ofNat]
    omega
  have hhigh : (v / 256 * 256 + b.toNat) / 256 = v / 256 := by omega
  rw [toBytes, hlow, hhigh]

/-! ## Reading and writing -/

namespace Memory

theorem read_eq_some_iff {m : Memory} {a : Address} {n : Nat} {bytes : List Byte} :
    m.read a n = some bytes ↔
      bytes.length = n ∧ ∀ i < n, m (a + BitVec.ofNat 64 i) = bytes[i]? := by
  induction n generalizing a bytes with
  | zero =>
    cases bytes with
    | nil => simp [read]
    | cons b rest => simp [read]
  | succ n ih =>
    -- Byte `i` from `a + 1` on is byte `i + 1` from `a` on.
    have hnext : ∀ i, a + 1 + BitVec.ofNat 64 i = a + BitVec.ofNat 64 (i + 1) := by
      intro i
      rw [Nat.add_comm, BitVec.ofNat_add, BitVec.add_assoc]
      rfl
    simp only [read, Option.bind_eq_bind, Option.bind_eq_some_iff, Option.some.injEq, ih, hnext]
    constructor
    · rintro ⟨b, hb, rest, ⟨hlen, hrest⟩, rfl⟩
      refine ⟨by rw [List.length_cons, hlen], fun i hi => ?_⟩
      cases i with
      | zero => simpa using hb
      | succ i => simpa using hrest i (by omega)
    · rintro ⟨hlen, hbytes⟩
      cases bytes with
      | nil => simp at hlen
      | cons b rest =>
        have hfirst := hbytes 0 (by omega)
        refine ⟨b, by simpa using hfirst, rest, ⟨by simpa using hlen, fun i hi => ?_⟩, rfl⟩
        simpa using hbytes (i + 1) (by omega)

theorem exists_read {m : Memory} {a : Address} {n : Nat}
    (h : ∀ i < n, (m (a + BitVec.ofNat 64 i)).isSome) : ∃ bytes, m.read a n = some bytes := by
  refine ⟨(List.range n).map fun i => (m (a + BitVec.ofNat 64 i)).getD 0, ?_⟩
  rw [read_eq_some_iff]
  refine ⟨by simp, fun i hi => ?_⟩
  obtain ⟨b, hb⟩ := Option.isSome_iff_exists.1 (h i hi)
  simp [hi, hb]

theorem write_eq_some {m : Memory} {a : Address} {bytes : List Byte}
    (allocated : ∀ i < bytes.length, (m (a + BitVec.ofNat 64 i)).isSome) :
    m.write a bytes = some (m.overlay a bytes) :=
  if_pos allocated

theorem eq_overlay_of_write {m m' : Memory} {a : Address} {bytes : List Byte}
    (h : m.write a bytes = some m') : m' = m.overlay a bytes := by
  unfold write at h
  split at h
  · simpa using h.symm
  · cases h

theorem isSome_overlay {m : Memory} {a x : Address} {bytes : List Byte} (h : (m x).isSome) :
    (m.overlay a bytes x).isSome := by
  simp only [overlay, Option.isSome_or, h, Bool.or_true]

/-! ## Offsets from a base -/

theorem toNat_offset (base : Address) {k : Nat} (hk : k < 2 ^ 64) :
    (base + BitVec.ofNat 64 k - base).toNat = k := by
  have hbase := base.isLt
  simp only [BitVec.toNat_sub, BitVec.toNat_add, BitVec.toNat_ofNat, Nat.mod_eq_of_lt hk]
  omega

/-- The distance between two offsets does not depend on their base. -/
theorem toNat_offset_sub (base : Address) {j k : Nat} (hj : j < 2 ^ 64) (hk : k < 2 ^ 64) :
    (base + BitVec.ofNat 64 j - (base + BitVec.ofNat 64 k)).toNat =
      if k ≤ j then j - k else 2 ^ 64 + j - k := by
  have hbase := base.isLt
  simp only [BitVec.toNat_sub, BitVec.toNat_add, BitVec.toNat_ofNat, Nat.mod_eq_of_lt hj,
    Nat.mod_eq_of_lt hk]
  split <;> omega

/-- A write at offset `k` is seen at the offsets from `k` on, as far as its bytes go. -/
theorem overlay_offset {m : Memory} {base : Address} {bytes : List Byte} {j k : Nat}
    (hk : k < 2 ^ 64) (hj : j < 2 ^ 64) (hfit : k + bytes.length ≤ 2 ^ 64) :
    m.overlay (base + BitVec.ofNat 64 k) bytes (base + BitVec.ofNat 64 j) =
      if k ≤ j then bytes[j - k]?.or (m (base + BitVec.ofNat 64 j))
      else m (base + BitVec.ofNat 64 j) := by
  simp only [overlay, toNat_offset_sub base hj hk]
  split
  · rfl
  -- Below `k` the difference wraps around, to a place past the end of `bytes`.
  · rw [List.getElem?_eq_none (by omega), Option.none_or]

theorem offset_add (base : Address) (k i : Nat) :
    base + BitVec.ofNat 64 k + BitVec.ofNat 64 i = base + BitVec.ofNat 64 (k + i) := by
  rw [BitVec.add_assoc, ← BitVec.ofNat_add]

theorem read_overlay_self (m : Memory) (base : Address) {bytes : List Byte} {k : Nat}
    (hk : k < 2 ^ 64) (hfit : k + bytes.length ≤ 2 ^ 64) :
    (m.overlay (base + BitVec.ofNat 64 k) bytes).read (base + BitVec.ofNat 64 k) bytes.length =
      some bytes := by
  rw [read_eq_some_iff]
  refine ⟨rfl, fun i hi => ?_⟩
  rw [offset_add, overlay_offset hk (by omega) hfit, if_pos (by omega), Nat.add_sub_cancel_left,
    List.getElem?_eq_getElem hi, Option.some_or]

/-- A write does not touch what lies wholly before or behind it. -/
theorem read_overlay_of_disjoint {m : Memory} {base : Address} {bytes old : List Byte}
    {j k n : Nat} (hk : k < 2 ^ 64) (hfit : k + bytes.length ≤ 2 ^ 64) (hj : j + n ≤ 2 ^ 64)
    (disjoint : j + n ≤ k ∨ k + bytes.length ≤ j)
    (hold : m.read (base + BitVec.ofNat 64 j) n = some old) :
    (m.overlay (base + BitVec.ofNat 64 k) bytes).read (base + BitVec.ofNat 64 j) n = some old := by
  rw [read_eq_some_iff] at hold ⊢
  refine ⟨hold.1, fun i hi => ?_⟩
  rw [← hold.2 i hi, offset_add, overlay_offset hk (by omega) hfit]
  split
  · rw [List.getElem?_eq_none (by omega), Option.none_or]
  · rfl

@[simp] theorem overlay_nil (m : Memory) (a : Address) : m.overlay a [] = m := by
  funext x
  simp [overlay]

theorem read_cons {m : Memory} {a : Address} {n : Nat} {b : Byte} {rest : List Byte} :
    m.read a (n + 1) = some (b :: rest) ↔ m a = some b ∧ m.read (a + 1) n = some rest := by
  simp [read, Option.bind_eq_some_iff]

theorem read_overlay_first {m : Memory} {base : Address} {k n : Nat} {b old : Byte}
    {rest : List Byte} (hfit : k + n + 1 ≤ 2 ^ 64)
    (hold : m.read (base + BitVec.ofNat 64 k) (n + 1) = some (old :: rest)) :
    (m.overlay (base + BitVec.ofNat 64 k) [b]).read (base + BitVec.ofNat 64 k) (n + 1) =
      some (b :: rest) := by
  have hnext : base + BitVec.ofNat 64 k + 1 = base + BitVec.ofNat 64 (k + 1) := offset_add base k 1
  rw [read_cons, hnext] at hold ⊢
  constructor
  · rw [overlay_offset (by omega) (by omega) (by simp; omega), if_pos (Nat.le_refl k), Nat.sub_self]
    rfl
  · exact read_overlay_of_disjoint (by omega) (by simp; omega) (by omega) (.inr (by simp)) hold.2

end Memory

end TapeCompiler.Qbe
