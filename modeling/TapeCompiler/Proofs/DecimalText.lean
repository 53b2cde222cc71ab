import Mathlib.Algebra.Group.Nat.Defs
import TapeCompiler.Number.Text
import TapeCompiler.Proofs.Layout

/-! # The decimals of large integers

From `safeLimit` on an integer is written with as few digits as read back as it, and with zeros
behind them.  What is written need not be the integer itself, only a natural that rounds to it.

* `Number.nearest_mono`: rounding is monotone.
* `Number.IsRoundest`: nothing rounder than an integer rounds to it.
* `Number.isRoundest_of_lt`: so it is below `2 ^ 54`.
* `Number.text_eq_natText`: what the text of an integer denotes, and when that is the integer.
-/

namespace TapeCompiler.Number

/-! ## Rounding is monotone -/

theorem div_le_roundHalfEven (n d : Nat) : n / d ≤ roundHalfEven n d := by
  grind [roundHalfEven]

theorem roundHalfEven_le (n d : Nat) : roundHalfEven n d ≤ n / d + 1 := by
  grind [roundHalfEven]

theorem roundHalfEven_mono {m n : Nat} (d : Nat) (h : m ≤ n) :
    roundHalfEven m d ≤ roundHalfEven n d := by
  rcases Nat.lt_or_eq_of_le (Nat.div_le_div_right (c := d) h) with hlt | heq
  · calc roundHalfEven m d ≤ m / d + 1 := roundHalfEven_le m d
      _ ≤ n / d := hlt
      _ ≤ roundHalfEven n d := div_le_roundHalfEven n d
  · -- With the same whole part, the one with the smaller rest is rounded up only if both are.
    have hrest : m % d ≤ n % d := by
      have hm := Nat.div_add_mod m d
      have hn := Nat.div_add_mod n d
      rw [heq] at hm
      omega
    simp only [roundHalfEven, heq]
    grind

theorem nearest_one (n : Nat) :
    nearest n 1 = roundHalfEven n (2 ^ excessBits n) * 2 ^ excessBits n := by
  simp only [nearest, Nat.div_one, Nat.shiftLeft_eq, Nat.one_mul]

theorem lt_two_pow_excessBits (n : Nat) : n < 2 ^ (53 + excessBits n) := by
  refine Nat.lt_of_lt_of_le (Nat.lt_log2_self (n := n)) (Nat.pow_le_pow_right (by decide) ?_)
  unfold excessBits
  omega

theorem two_pow_excessBits_le {n : Nat} (h : 0 < excessBits n) : 2 ^ (52 + excessBits n) ≤ n := by
  have hn : n ≠ 0 := by
    rintro rfl
    simp [excessBits] at h
  have hlog : 52 + excessBits n = n.log2 := by
    unfold excessBits at h ⊢
    omega
  rw [hlog]
  exact Nat.log2_self_le hn

theorem nearest_le_two_pow (n : Nat) : nearest n 1 ≤ 2 ^ (53 + excessBits n) := by
  have hquotient : n / 2 ^ excessBits n < 2 ^ 53 := by
    apply Nat.div_lt_of_lt_mul
    rw [← Nat.pow_add, Nat.add_comm]
    exact lt_two_pow_excessBits n
  rw [nearest_one, Nat.pow_add]
  exact Nat.mul_le_mul_right _ (Nat.le_trans (roundHalfEven_le _ _) hquotient)

theorem two_pow_le_nearest {n : Nat} (h : 0 < excessBits n) :
    2 ^ (52 + excessBits n) ≤ nearest n 1 := by
  have hquotient : 2 ^ 52 ≤ n / 2 ^ excessBits n := by
    rw [Nat.le_div_iff_mul_le (Nat.two_pow_pos _), ← Nat.pow_add]
    exact two_pow_excessBits_le h
  rw [nearest_one, Nat.pow_add]
  exact Nat.mul_le_mul_right _ (Nat.le_trans hquotient (div_le_roundHalfEven _ _))

theorem nearest_mono {m n : Nat} (h : m ≤ n) : nearest m 1 ≤ nearest n 1 := by
  have hexcess : excessBits m ≤ excessBits n :=
    excessBits_le (Nat.lt_of_le_of_lt h (lt_two_pow_excessBits n))
  rcases Nat.lt_or_eq_of_le hexcess with hlt | heq
  · -- A power of two stands between two numbers of different length.
    calc nearest m 1 ≤ 2 ^ (53 + excessBits m) := nearest_le_two_pow m
      _ ≤ 2 ^ (52 + excessBits n) := Nat.pow_le_pow_right (by decide) (by omega)
      _ ≤ nearest n 1 := two_pow_le_nearest (by omega)
  · rw [nearest_one, nearest_one, heq]
    exact Nat.mul_le_mul_right _ (roundHalfEven_mono _ h)

/-! ## Digits -/

theorem digitCount_pos (n : Nat) : 0 < digitCount n := Nat.length_toDigits_pos

theorem lt_digitCount_iff {n k : Nat} (hn : 0 < n) : k < digitCount n ↔ 10 ^ k ≤ n := by
  rcases Nat.eq_zero_or_pos k with rfl | hk
  · simp only [Nat.pow_zero]
    exact iff_of_true (digitCount_pos n) hn
  · have hlength := Nat.length_toDigits_le_iff (b := 10) (n := n) (by decide) hk
    unfold digitCount
    omega

theorem digitCount_le {n k : Nat} (hk : 0 < k) (h : n < 10 ^ k) : digitCount n ≤ k :=
  (Nat.length_toDigits_le_iff (by decide) hk).2 h

theorem toDigits_eq_significantDigits (m : Nat) :
    ∃ zeros, Nat.toDigits 10 m = significantDigits m ++ List.replicate zeros '0' := by
  have hzeros : ∀ c ∈ ((Nat.toDigits 10 m).reverse.takeWhile (· == '0')).reverse, c = '0' := by
    intro c hc
    exact eq_of_beq (List.all_eq_true.1 List.all_takeWhile c (List.mem_reverse.1 hc))
  have hsplit : Nat.toDigits 10 m =
      significantDigits m ++ ((Nat.toDigits 10 m).reverse.takeWhile (· == '0')).reverse := by
    rw [significantDigits, ← List.reverse_append, List.takeWhile_append_dropWhile,
      List.reverse_reverse]
  rw [List.eq_replicate_of_mem hzeros] at hsplit
  exact ⟨_, hsplit⟩

theorem toDigits_mul_pow {m : Nat} (hm : 0 < m) (s : Nat) :
    Nat.toDigits 10 (m * 10 ^ s) = Nat.toDigits 10 m ++ List.replicate s '0' := by
  induction s with
  | zero => simp
  | succ s ih =>
    have hpos : 0 < m * 10 ^ s := Nat.mul_pos hm (Nat.pow_pos (by decide))
    have hnext := Nat.toDigits_append_toDigits (b := 10) (d := 0) (by decide) hpos (by decide)
    have hproduct : 10 * (m * 10 ^ s) + 0 = m * 10 ^ (s + 1) := by
      rw [Nat.pow_succ, Nat.add_zero, Nat.mul_comm, Nat.mul_assoc]
    rw [← hproduct, ← hnext, ih, List.replicate_succ', List.append_assoc]
    rfl

/-- A decimal without places behind the point is laid out as the natural that it is. -/
theorem layout_natural {m s : Nat} (hm : 0 < m) (hsmall : digitCount m + s ≤ 21) :
    plain.layout ⟨significantDigits m, digitCount m + s⟩ = Nat.toDigits 10 (m * 10 ^ s) := by
  obtain ⟨zeros, hdigits⟩ := toDigits_eq_significantDigits m
  have hcount : digitCount m = (significantDigits m).length + zeros := by
    rw [digitCount, hdigits, List.length_append, List.length_replicate]
  have hpoint : 0 < (digitCount m + s : Int) ∧ (digitCount m + s : Int) ≤ plain.wholeDigits := by
    have hpos := digitCount_pos m
    simp only [plain]
    omega
  have hwhole : (digitCount m + s : Int).toNat = (significantDigits m).length + (zeros + s) := by
    omega
  simp only [Style.layout, if_pos hpoint, hwhole, if_pos (Nat.le_add_right _ _),
    Nat.add_sub_cancel_left]
  rw [toDigits_mul_pow hm, hdigits, List.append_assoc, List.replicate_append_replicate]

/-! ## The shortest decimal of an integer -/

theorem mem_neighbours {n d m : Nat} : m ∈ neighbours n d ↔ m = n / d ∨ m = n / d + 1 := by
  simp only [neighbours]
  split <;> simp [or_comm]

/-- What stands between an integer and something that rounds to it rounds to it as well. -/
theorem nearest_of_between {n x y : Nat} (hn : nearest n 1 = n) (hx : nearest x 1 = n)
    (h : x ≤ y ∧ y ≤ n ∨ n ≤ y ∧ y ≤ x) : nearest y 1 = n := by
  rcases h with ⟨hxy, hyn⟩ | ⟨hny, hyx⟩
  · have hlow := nearest_mono hxy
    have hhigh := nearest_mono hyn
    omega
  · have hlow := nearest_mono hny
    have hhigh := nearest_mono hyx
    omega

/-- If any point of a grid rounds to `n` then so does a neighbour of `n` on it. -/
theorem exists_neighbour {n x d : Nat} (hn : nearest n 1 = n) (hpos : 0 < d) (hd : d ∣ x)
    (hx : nearest x 1 = n) : ∃ m ∈ neighbours n d, nearest (m * d) 1 = n := by
  obtain ⟨q, rfl⟩ := hd
  rw [Nat.mul_comm] at hx
  rcases Nat.lt_or_ge (n / d) q with hq | hq
  · have hhigh : n < (n / d + 1) * d := Nat.mul_comm d _ ▸ Nat.lt_mul_div_succ n hpos
    exact ⟨n / d + 1, mem_neighbours.2 (.inr rfl), nearest_of_between hn hx
      (.inr ⟨Nat.le_of_lt hhigh, Nat.mul_le_mul_right d hq⟩)⟩
  · exact ⟨n / d, mem_neighbours.2 (.inl rfl), nearest_of_between hn hx
      (.inl ⟨Nat.mul_le_mul_right d hq, Nat.div_mul_le_self n d⟩)⟩

/-- Whether a decimal is taken depends on what the natural that it denotes rounds to. -/
theorem ofRatio_beq_iff {n x : Nat} (hn : nearest n 1 = n) (hfinite : n < 1 <<< 1024) :
    (ofRatio false x 1 == ofRatio false n 1) = true ↔ nearest x 1 = n := by
  simp only [ofRatio, Nat.mod_one, if_true, Nat.div_one, hn, beq_iff_eq, ofMagnitude, if_pos hfinite]
  split
  · simp only [signed, Bool.false_eq_true, if_false, integer.injEq, Int.natCast_inj]
  · rename_i hinfinite
    simp only [reduceCtorEq, false_iff]
    rintro rfl
    exact hinfinite hfinite

/-- The candidates of a length up to that of the integer itself. -/
theorem shortestOfLength?_eq {n s k : Nat} (hn : 0 < n) (h : k + 1 + s = digitCount n) :
    shortestOfLength? n 1 (k + 1) =
      ((neighbours n (10 ^ s)).find? fun m => ofRatio false (m * 10 ^ s) 1 == ofRatio false n 1).map
        fun m => ⟨significantDigits m, digitCount m + s⟩ := by
  have hstep : pointOf n 1 - ((k + 1 : Nat) : Int) = s := by
    rw [pointOf, if_pos (Nat.succ_le_of_lt hn), Nat.div_one]
    omega
  simp only [shortestOfLength?, hstep, inSteps, ofSteps]
  simp

section Integer

variable {n s k : Nat} (hpos : 0 < n) (hn : nearest n 1 = n) (hfinite : n < 1 <<< 1024)
  (hlength : k + 1 + s = digitCount n)

include hpos hn hfinite hlength

theorem nearest_ne_of_none (h : shortestOfLength? n 1 (k + 1) = none) {x : Nat}
    (hdvd : 10 ^ s ∣ x) : nearest x 1 ≠ n := by
  intro hx
  obtain ⟨m, hmem, hm⟩ := exists_neighbour hn (Nat.pow_pos (by decide)) hdvd hx
  rw [shortestOfLength?_eq hpos hlength, Option.map_eq_none_iff, List.find?_eq_none] at h
  exact h m hmem ((ofRatio_beq_iff hn hfinite).2 hm)

/-- A point of the grid is taken that rounds to the integer: the integer itself if it is one. -/
theorem eq_of_shortestOfLength? {d : Decimal} (h : shortestOfLength? n 1 (k + 1) = some d) :
    ∃ m ∈ neighbours n (10 ^ s), d = ⟨significantDigits m, digitCount m + s⟩ ∧
      nearest (m * 10 ^ s) 1 = n ∧ (10 ^ s ∣ n → m * 10 ^ s = n) := by
  rw [shortestOfLength?_eq hpos hlength, Option.map_eq_some_iff] at h
  obtain ⟨m, hfind, rfl⟩ := h
  have htaken := List.find?_some hfind
  refine ⟨m, List.mem_of_find?_eq_some hfind, rfl, (ofRatio_beq_iff hn hfinite).1 htaken,
    fun hdvd => ?_⟩
  obtain ⟨q, rfl⟩ := hdvd
  have hten : 0 < 10 ^ s := Nat.pow_pos (by decide)
  -- The quotient is exact, so it is the nearer neighbour, and it is the first to be tried.
  rw [neighbours, roundHalfEven_mul hten, Nat.mul_div_cancel_left q hten, if_pos rfl,
    Nat.mul_comm] at hfind
  rw [List.find?_cons_of_pos (by simp)] at hfind
  cases hfind
  exact Nat.mul_comm _ _

end Integer

theorem findSome?_range_eq_some {β : Type} {f : Nat → Option β} {n : Nat} {b : β}
    (h : (List.range n).findSome? f = some b) : ∃ k < n, f k = some b ∧ ∀ j < k, f j = none := by
  induction n with
  | zero => cases h
  | succ n ih =>
    rw [List.range_succ, List.findSome?_append] at h
    cases hfirst : (List.range n).findSome? f with
    | some c =>
      rw [hfirst] at h
      cases h
      obtain ⟨k, hk, hfound⟩ := ih hfirst
      exact ⟨k, Nat.lt_succ_of_lt hk, hfound⟩
    | none =>
      rw [hfirst] at h
      have hnone := List.findSome?_eq_none_iff.1 hfirst
      exact ⟨n, Nat.lt_succ_self n, by simpa using h,
        fun j hj => hnone j (List.mem_range.2 hj)⟩

/-- A neighbour of an integer on a grid no coarser than it is has few enough digits to be laid out
without an exponent. -/
theorem digitCount_neighbour {n s m : Nat} (hsmall : n < 10 ^ 18) (hs : s < 18)
    (hm : m ∈ neighbours n (10 ^ s)) : digitCount m + s ≤ 21 := by
  have hquotient : n / 10 ^ s < 10 ^ (18 - s) := by
    apply Nat.div_lt_of_lt_mul
    rwa [← Nat.pow_add, Nat.add_sub_cancel' (Nat.le_of_lt hs)]
  have hgrow : 10 ^ (18 - s) < 10 ^ (19 - s) := Nat.pow_lt_pow_right (by decide) (by omega)
  have hlt : m < 10 ^ (19 - s) := by
    rcases mem_neighbours.1 hm with rfl | rfl
    · omega
    · omega
  have hcount := digitCount_le (by omega) hlt
  omega

/-- A point `m * 10 ^ s` of the coarsest grid that has one rounding to `n`.  It is `n` itself if the
grid goes through `n`. -/
structure IsShortest (n s m : Nat) : Prop where
  pos : 0 < m
  short : digitCount m + s ≤ 21
  within : 10 ^ s ≤ n
  rounds : nearest (m * 10 ^ s) 1 = n
  eq_of_dvd : 10 ^ s ∣ n → m * 10 ^ s = n
  coarsest : ∀ s', s < s' → 10 ^ s' ≤ n → ∀ x, 10 ^ s' ∣ x → nearest x 1 ≠ n

theorem shortest_spec {n : Nat} (hpos : 0 < n) (hn : nearest n 1 = n) (hsmall : n < 10 ^ 18) :
    ∃ s m : Nat, shortest n 1 = ⟨significantDigits m, digitCount m + s⟩ ∧ IsShortest n s m := by
  have hfinite : n < 1 <<< 1024 := Nat.lt_trans hsmall (by decide)
  have hcount : digitCount n ≤ 18 := digitCount_le (by decide) hsmall
  have hcount_pos := digitCount_pos n
  cases hfound : (List.range 17).findSome? fun k => shortestOfLength? n 1 (k + 1) with
  | none =>
    have hnone := List.findSome?_eq_none_iff.1 hfound
    refine ⟨0, n, ?_, hpos, by omega, hpos, by simpa using hn, fun _ => Nat.mul_one n, ?_⟩
    · rw [shortest, hfound]
      simp
    · intro s' hs' hle x hdvd hx
      have hlt := (lt_digitCount_iff hpos).2 hle
      exact nearest_ne_of_none (k := digitCount n - s' - 1) hpos hn hfinite (by omega)
        (hnone _ (List.mem_range.2 (by omega))) hdvd hx
  | some d =>
    obtain ⟨k, hk, hd, hearlier⟩ := findSome?_range_eq_some hfound
    -- At its full length the integer itself is found, so no longer one is tried.
    have hlength : k < digitCount n := by
      apply Nat.lt_of_not_ge
      intro hge
      exact nearest_ne_of_none (k := digitCount n - 1) (s := 0) hpos hn hfinite (by omega)
        (hearlier _ (by omega)) (Nat.one_dvd n) hn
    obtain ⟨s, hs⟩ := Nat.exists_eq_add_of_le' (Nat.succ_le_of_lt hlength)
    obtain ⟨m, hmem, rfl, hround, hexact⟩ :=
      eq_of_shortestOfLength? (s := s) hpos hn hfinite (by omega) hd
    have hle := (lt_digitCount_iff (k := s) hpos).1 (by omega)
    have hm : 0 < m := by
      have hquotient := Nat.div_pos hle (Nat.pow_pos (by decide))
      rcases mem_neighbours.1 hmem with rfl | rfl
      · exact hquotient
      · exact Nat.succ_pos _
    refine ⟨s, m, ?_, hm, digitCount_neighbour hsmall (by omega) hmem, hle, hround, hexact, ?_⟩
    · rw [shortest, hfound, Option.getD_some]
    · intro s' hs' hle' x hdvd hx
      have hlt := (lt_digitCount_iff hpos).2 hle'
      exact nearest_ne_of_none (k := digitCount n - s' - 1) hpos hn hfinite (by omega)
        (hearlier _ (by omega)) hdvd hx

/-! ## What the text of an integer denotes -/

/-- Nothing ends in more zeros than `n` and rounds to it. -/
def IsRoundest (n : Nat) : Prop :=
  ∀ s x, 10 ^ s ≤ n → 10 ^ s ∣ x → nearest x 1 = n → 10 ^ s ∣ n

theorem IsShortest.eq_iff {n s m : Nat} (h : IsShortest n s m) : m * 10 ^ s = n ↔ IsRoundest n := by
  constructor
  · intro heq s' x hle hdvd hx
    rcases Nat.lt_or_ge s s' with hlt | hge
    · exact absurd hx (h.coarsest s' hlt hle x hdvd)
    · rw [← heq]
      exact Nat.dvd_mul_left_of_dvd (Nat.pow_dvd_pow 10 hge) m
  · intro hroundest
    exact h.eq_of_dvd (hroundest s (m * 10 ^ s) h.within (Nat.dvd_mul_left _ m) h.rounds)

/-- Below `2 ^ 54` only the odd integers are rounded, and an odd one ends in no zeros. -/
theorem isRoundest_of_lt {n : Nat} (h : n < 2 * safeLimit) : IsRoundest n := by
  intro s x _ hdvd hx
  rcases Nat.eq_zero_or_pos s with rfl | hs
  · exact Nat.one_dvd n
  · have hlimit : nearest (2 * safeLimit) 1 = 2 * safeLimit := by decide
    have hlt : x < 2 * safeLimit := by
      apply Nat.lt_of_not_ge
      intro hge
      have hle := nearest_mono hge
      omega
    have hexcess : excessBits x ≤ 1 := excessBits_le hlt
    have heven : 2 ∣ x := Nat.dvd_trans (Nat.dvd_trans (by decide) (Nat.pow_dvd_pow 10 hs)) hdvd
    have hself : nearest x 1 = x := by
      apply nearest_eq_self
      exact Nat.dvd_trans (Nat.pow_dvd_pow 2 hexcess) heven
    rw [← hx, hself]
    exact hdvd

/-- An integer `n` is written as `m`, which rounds to it.  That is `n` itself if and only if nothing
rounder than it rounds to it. -/
structure WrittenAs (n m : Nat) : Prop where
  rounds : nearest m 1 = n
  eq_iff : m = n ↔ IsRoundest n

theorem text_eq_natText {n : Nat} (hn : nearest n 1 = n) (hsmall : n < 10 ^ 18) :
    ∃ m, (ofNat n).text = natText m ∧ WrittenAs n m := by
  have hsign : ¬ ((n : Int) < 0) := Int.not_lt.2 (Int.natCast_nonneg n)
  by_cases hsafe : n < safeLimit
  · refine ⟨n, ?_, hn, iff_of_true rfl (isRoundest_of_lt (by omega))⟩
    simp [ofNat, text, intText, hsafe, hsign]
  · have hpos : 0 < n := Nat.lt_of_lt_of_le (by decide) (Nat.le_of_not_lt hsafe)
    obtain ⟨s, m, hshortest, hm⟩ := shortest_spec hpos hn hsmall
    refine ⟨m * 10 ^ s, ?_, hm.rounds, hm.eq_iff⟩
    simp only [ofNat, text, ratioText, hsign, Int.natAbs_natCast, if_neg hsafe, hshortest,
      layout_natural hm.pos hm.short, natText]
    rfl

end TapeCompiler.Number
