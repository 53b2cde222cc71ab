/-! # Runs of a machine

A machine is a step function: from a state it goes on in another state or ends with a result.
Everything but `Ending`, the result of the machines of this library, is about any such machine.

* `after`: the state that a run is in after so many steps.
* `Reachable`, `Ends`: the states that a run visits, and the result that it ends with.
* `Stretch`: a part of a run, with a condition on every state that it visits.
* `Simulation`: every step of one machine is a `Stretch` of another.  Such machines end with the
  same results (`Simulation.ends_iff`), and the condition on the stretches holds in every state that
  the second machine reaches (`Simulation.holds`).

That the second machine ends only when the first does is the less obvious half.  It goes by
strong induction on the length of the second run (`Simulation.visits`), and needs that a stretch has
at least one step.
-/

namespace TapeCompiler

/-- What a step of a machine leads to. -/
inductive Progress (σ ρ : Type) where
  | next (state : σ)
  | done (result : ρ)

abbrev Byte := BitVec 8

/-- How a run of a tape program ends: with a status, having written `output` and left `unread`, or
in a state that has no meaning. -/
inductive Ending where
  | returned (status : BitVec 32) (output unread : List Byte)
  | fault
deriving DecidableEq

variable {σ σ₁ σ₂ ρ : Type}

/-! ## Reachable states and results -/

/-- The state after `n` steps, if the run lasts that long. -/
def after (step : σ → Progress σ ρ) : Nat → σ → Option σ
  | 0, a => some a
  | n + 1, a =>
    match step a with
    | .next b => after step n b
    | .done _ => none

def Reachable (step : σ → Progress σ ρ) (a b : σ) : Prop := ∃ n, after step n a = some b

def Ends (step : σ → Progress σ ρ) (a : σ) (result : ρ) : Prop :=
  ∃ b, Reachable step a b ∧ step b = .done result

theorem after_succ {step : σ → Progress σ ρ} {a b : σ} (h : step a = .next b) (n : Nat) :
    after step (n + 1) a = after step n b := by
  rw [after, h]

theorem after_succ_done {step : σ → Progress σ ρ} {a : σ} {r : ρ} (h : step a = .done r)
    (n : Nat) : after step (n + 1) a = none := by
  rw [after, h]

theorem after_add {step : σ → Progress σ ρ} {a b : σ} {n : Nat} (h : after step n a = some b)
    (m : Nat) : after step (n + m) a = after step m b := by
  induction n generalizing a with
  | zero =>
    cases h
    rw [Nat.zero_add]
  | succ n ih =>
    cases hs : step a with
    | done e => rw [after_succ_done hs] at h; cases h
    | next c =>
      rw [after_succ hs] at h
      rw [Nat.succ_add, after_succ hs, ih h]

theorem step_of_after_succ {step : σ → Progress σ ρ} {a b c : σ} {n : Nat}
    (hb : after step n a = some b) (hc : after step (n + 1) a = some c) : step b = .next c := by
  rw [after_add hb] at hc
  cases hs : step b with
  | done e => rw [after_succ_done hs] at hc; cases hc
  | next d =>
    rw [after_succ hs] at hc
    cases hc
    rfl

theorem Reachable.refl (step : σ → Progress σ ρ) (a : σ) : Reachable step a a := ⟨0, rfl⟩

theorem Reachable.head {step : σ → Progress σ ρ} {a b c : σ} (h : step a = .next b)
    (hc : Reachable step b c) : Reachable step a c := by
  obtain ⟨n, hn⟩ := hc
  exact ⟨n + 1, by rw [after_succ h, hn]⟩

theorem Reachable.trans {step : σ → Progress σ ρ} {a b c : σ} (hb : Reachable step a b)
    (hc : Reachable step b c) : Reachable step a c := by
  obtain ⟨n, hn⟩ := hb
  obtain ⟨m, hm⟩ := hc
  exact ⟨n + m, by rw [after_add hn, hm]⟩

theorem Reachable.preserves {step : σ → Progress σ ρ} {P : σ → Prop} {a b : σ}
    (hstep : ∀ {a b}, P a → step a = .next b → P b) (ha : P a) (hb : Reachable step a b) :
    P b := by
  obtain ⟨n, hn⟩ := hb
  induction n generalizing a with
  | zero =>
    cases hn
    exact ha
  | succ n ih =>
    cases hs : step a with
    | done e => rw [after_succ_done hs] at hn; cases hn
    | next c =>
      rw [after_succ hs] at hn
      exact ih (hstep ha hs) hn

/-- The run from `a` is over within `n` steps, and all states that it visits pass `check`. -/
def passes (step : σ → Progress σ ρ) (check : σ → Bool) : Nat → σ → Bool
  | 0, _ => false
  | n + 1, a =>
    check a && match step a with
      | .next b => passes step check n b
      | .done _ => true

theorem check_of_passes {step : σ → Progress σ ρ} {check : σ → Bool} {n : Nat} {a b : σ}
    (h : passes step check n a) (hb : Reachable step a b) : check b := by
  obtain ⟨m, hm⟩ := hb
  induction n generalizing a m with
  | zero => cases h
  | succ n ih =>
    simp only [passes, Bool.and_eq_true] at h
    cases m with
    | zero =>
      cases hm
      exact h.1
    | succ m =>
      cases hs : step a with
      | done e => rw [after_succ_done hs] at hm; cases hm
      | next c =>
        rw [hs] at h
        rw [after_succ hs] at hm
        exact ih h.2 m hm

/-! ## Stretches -/

/-- One or more steps from `a`, through states that satisfy `Q`, lead to `r`. -/
inductive Stretch (step : σ → Progress σ ρ) (Q : σ → Prop) : σ → Progress σ ρ → Prop where
  | last {a : σ} {r : Progress σ ρ} : Q a → step a = r → Stretch step Q a r
  | cons {a b : σ} {r : Progress σ ρ} :
      Q a → step a = .next b → Stretch step Q b r → Stretch step Q a r

namespace Stretch

variable {step : σ → Progress σ ρ} {Q : σ → Prop}

theorem trans {a b : σ} {r : Progress σ ρ} (h : Stretch step Q a (.next b))
    (h' : Stretch step Q b r) : Stretch step Q a r := by
  generalize hb : Progress.next b = p at h
  induction h with
  | last hQ hs => exact .cons hQ (by rw [hs, hb]) h'
  | cons hQ hs _ ih => exact .cons hQ hs (ih hb)

theorem reachable {a b : σ} (h : Stretch step Q a (.next b)) : Reachable step a b := by
  generalize hb : Progress.next b = p at h
  induction h with
  | last _ hs => exact .head (by rw [hs, hb]) (.refl step b)
  | cons _ hs _ ih => exact .head hs (ih hb)

/-- A state that the run visits lies on the stretch or behind its end.  One that ends the run ends
the stretch too. -/
theorem visits {a c : σ} {r : Progress σ ρ} (h : Stretch step Q a r) {n : Nat}
    (hc : after step n a = some c) :
    (Q c ∧ ∀ e, step c = .done e → r = .done e) ∨
      ∃ b m, r = .next b ∧ m < n ∧ after step m b = some c := by
  induction h generalizing n with
  | @last a r hQ hs =>
    cases n with
    | zero =>
      cases hc
      exact .inl ⟨hQ, fun e he => by rw [← hs, he]⟩
    | succ n =>
      cases r with
      | next b => exact .inr ⟨b, n, rfl, by omega, by rw [← after_succ hs, hc]⟩
      | done e => rw [after_succ_done hs] at hc; cases hc
  | @cons a b r hQ hs _ ih =>
    cases n with
    | zero =>
      cases hc
      exact .inl ⟨hQ, fun e he => by rw [hs] at he; cases he⟩
    | succ n =>
      rw [after_succ hs] at hc
      rcases ih hc with hon | ⟨b', m, hr, hm, hc'⟩
      · exact .inl hon
      · exact .inr ⟨b', m, hr, by omega, hc'⟩

/-- Going along a stretch does not change how the run ends. -/
theorem ends_iff {a b : σ} (h : Stretch step Q a (.next b)) {e : ρ} :
    Ends step a e ↔ Ends step b e := by
  constructor
  · rintro ⟨c, ⟨n, hn⟩, hc⟩
    rcases h.visits hn with ⟨_, hend⟩ | ⟨b', m, hr, _, hm⟩
    · cases hend e hc
    · cases hr
      exact ⟨c, ⟨m, hm⟩, hc⟩
  · rintro ⟨c, ⟨m, hm⟩, hc⟩
    obtain ⟨n, hn⟩ := h.reachable
    exact ⟨c, ⟨n + m, by rw [after_add hn, hm]⟩, hc⟩

theorem ends {a : σ} {e : ρ} (h : Stretch step Q a (.done e)) : Ends step a e := by
  generalize hb : Progress.done e = p at h
  induction h with
  | @last a _ _ hs => exact ⟨a, .refl step a, by rw [hs, hb]⟩
  | cons _ hs _ ih =>
    obtain ⟨c, hreach, hc⟩ := ih hb
    exact ⟨c, hreach.head hs, hc⟩

end Stretch

/-! ## Simulation -/

/-- What two steps lead to agrees: related states or the same result. -/
inductive Progress.Agree (R : σ₁ → σ₂ → Prop) : Progress σ₁ ρ → Progress σ₂ ρ → Prop where
  | next {a : σ₁} {b : σ₂} : R a b → Agree R (.next a) (.next b)
  | done {e : ρ} : Agree R (.done e) (.done e)

/-- From related states, a step of the first machine is a stretch of the second through states that
satisfy `Q`. -/
def Simulation (step₁ : σ₁ → Progress σ₁ ρ) (step₂ : σ₂ → Progress σ₂ ρ) (Q : σ₂ → Prop)
    (R : σ₁ → σ₂ → Prop) : Prop :=
  ∀ a b, R a b → ∃ r, Stretch step₂ Q b r ∧ Progress.Agree R (step₁ a) r

namespace Simulation

variable {step₁ : σ₁ → Progress σ₁ ρ} {step₂ : σ₂ → Progress σ₂ ρ} {Q : σ₂ → Prop}
  {R : σ₁ → σ₂ → Prop}

/-- The second machine reaches a state that is related to what the first has reached. -/
theorem reaches (sim : Simulation step₁ step₂ Q R) {a a' : σ₁} {b : σ₂} (related : R a b)
    (h : Reachable step₁ a a') : ∃ b', Reachable step₂ b b' ∧ R a' b' := by
  obtain ⟨n, hn⟩ := h
  induction n generalizing a b with
  | zero =>
    cases hn
    exact ⟨b, .refl step₂ b, related⟩
  | succ n ih =>
    obtain ⟨r, stretch, agree⟩ := sim _ _ related
    cases hs : step₁ a with
    | done e => rw [after_succ_done hs] at hn; cases hn
    | next c =>
      rw [after_succ hs] at hn
      rw [hs] at agree
      cases agree with
      | next related' =>
        obtain ⟨b', hb', hrelated⟩ := ih related' hn
        exact ⟨b', stretch.reachable.trans hb', hrelated⟩

theorem ends_of_ends (sim : Simulation step₁ step₂ Q R) {a : σ₁} {b : σ₂} (related : R a b)
    {e : ρ} (h : Ends step₁ a e) : Ends step₂ b e := by
  obtain ⟨c, hreach, hc⟩ := h
  obtain ⟨b', hb', related'⟩ := sim.reaches related hreach
  obtain ⟨r, stretch, agree⟩ := sim _ _ related'
  rw [hc] at agree
  cases agree
  obtain ⟨d, hd, hdone⟩ := stretch.ends
  exact ⟨d, hb'.trans hd, hdone⟩

/-- The first machine keeps up with every state that the second reaches: the state is on the stretch
of a state of the first machine, and if it ends the run, so does that one. -/
theorem visits (sim : Simulation step₁ step₂ Q R) {a : σ₁} {b c : σ₂} (related : R a b) {n : Nat}
    (hn : after step₂ n b = some c) :
    Q c ∧ ∃ a', Reachable step₁ a a' ∧ ∀ e, step₂ c = .done e → step₁ a' = .done e := by
  -- On the length of the second run: what is left of it behind a stretch is shorter.
  induction n using Nat.strongRecOn generalizing a b with
  | ind n ih =>
    obtain ⟨r, stretch, agree⟩ := sim _ _ related
    rcases stretch.visits hn with ⟨hQ, hend⟩ | ⟨b', m, rfl, hm, hb'⟩
    · refine ⟨hQ, a, .refl step₁ a, fun e hc => ?_⟩
      rw [hend e hc] at agree
      cases hs : step₁ a with
      | next a' => rw [hs] at agree; cases agree
      | done e' =>
        rw [hs] at agree
        cases agree
        rfl
    · cases hs : step₁ a with
      | done e' => rw [hs] at agree; cases agree
      | next a' =>
        rw [hs] at agree
        cases agree with
        | next related' =>
          obtain ⟨hQ, d, hreach, hd⟩ := ih m hm related' hb'
          exact ⟨hQ, d, hreach.head hs, hd⟩

/-- Related states lead to the same results. -/
theorem ends_iff (sim : Simulation step₁ step₂ Q R) {a : σ₁} {b : σ₂} (related : R a b) {e : ρ} :
    Ends step₁ a e ↔ Ends step₂ b e := by
  constructor
  · exact sim.ends_of_ends related
  · rintro ⟨c, ⟨n, hn⟩, hc⟩
    obtain ⟨_, d, hreach, hd⟩ := sim.visits related hn
    exact ⟨d, hreach, hd e hc⟩

theorem holds (sim : Simulation step₁ step₂ Q R) {a : σ₁} {b c : σ₂} (related : R a b)
    (hc : Reachable step₂ b c) : Q c := by
  obtain ⟨n, hn⟩ := hc
  exact (sim.visits related hn).1

end Simulation

end TapeCompiler
