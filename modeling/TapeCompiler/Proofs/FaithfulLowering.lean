import TapeCompiler.Proofs.Notes
import TapeCompiler.Proofs.PrintedModules

/-! # Trees from their modules

Lowering loses nothing but the notes of a tree.  The items of a statement tell the statement, whatever
comes behind them: the first two items tell its kind.  A list of statements is over where items come
that begin no statement with labels as high as those of the list.  That is so at the end of the
program, and at the second test of a loop, which looks like the first test of an earlier one.

* `Lowering.Closes`: items that end a list of statements.
* `Lowering.statement_cancel`, `Lowering.statements_cancel`: items tell statements.
* `Lowering.text_lower_eq_iff`: so do the texts of whole modules.
-/

namespace TapeCompiler

open Statement (erase eraseAll countsSafe countsSafeAll)

/-- Multiples of counts by a stride are exact, so they tell the counts. -/
theorem Number.scale_bytes_injective {m n : Number} (hm : m.isCount) (hn : n.isCount) {s : Stride}
    (h : m.scale s.bytes = n.scale s.bytes) : m = n := by
  obtain ⟨i, rfl, _, hi⟩ := isCount_iff.1 hm
  obtain ⟨j, rfl, _, hj⟩ := isCount_iff.1 hn
  rw [scale_bytes hi, scale_bytes hj] at h
  have hbytes : 0 < s.bytes := by cases s <;> decide
  simp only [ofNat, integer.injEq, Int.natCast_inj] at h
  rw [Nat.eq_of_mul_eq_mul_right hbytes h]

namespace Lowering

open Qbe (Item)

variable {α β : Type} {layout : Tape} {t l : Nat} {xs ys : List Item}

/-! ## Statements -/

/-- Items that begin no statement with labels from `l` on. -/
def Closes (layout : Tape) (l : Nat) (xs : List Item) : Prop :=
  ∀ t k, l ≤ k → ∀ (s : Statement Unit) rest, xs ≠ statement layout t k s ++ rest

theorem Closes.mono {l' : Nat} (h : Closes layout l xs) (hl : l ≤ l') : Closes layout l' xs :=
  fun t k hk => h t k (Nat.le_trans hl hk)

theorem Closes.ne (h : Closes layout l xs) (s : Statement α) (rest : List Item) :
    xs ≠ statement layout t l s ++ rest := by
  rw [← statement_erase]
  exact h t l (Nat.le_refl l) s.erase rest

theorem closes_return (value : Option Qbe.Value) : Closes layout l [.jump (.ret value)] := by
  intro t k _ s rest h
  cases s with
  | counted command count note =>
    cases command <;> simp [statement, move, change, loadCell] at h
  | read note => simp [statement, transfer] at h
  | write note => simp [statement, transfer] at h
  | loop body note => simp [statement, test, loadCell] at h

theorem closes_test : Closes layout (l + 1) (test layout.stride t l ++ xs) := by
  intro u k hk s rest h
  cases s with
  | counted command count note =>
    cases command <;> simp [statement, test, move, change, loadCell, temp, ptr] at h
  | read note => simp [statement, test, loadCell, transfer] at h
  | write note => simp [statement, test, loadCell, transfer] at h
  | loop body note =>
    -- Both begin with a test, and the tests of two loops go to different labels.
    simp only [statement, test, List.cons_append, List.cons.injEq, Item.jump.injEq,
      Qbe.Jump.jnz.injEq] at h
    have hlabel := (label_injective (by decide) (by decide) h.2.1.2.1).2
    omega

section Counted

variable {operation operation' : Qbe.Value → Qbe.Value → Qbe.Operation} {count count' : Number}

theorem move_cancel
    (h : move operation layout count t l ++ xs = move operation' layout count' t l ++ ys) :
    operation ptr (.const (count.scale layout.stride.bytes)) =
      operation' ptr (.const (count'.scale layout.stride.bytes)) ∧ xs = ys := by
  simpa [move] using h

theorem change_cancel
    (h : change operation layout count t ++ xs = change operation' layout count' t ++ ys) :
    operation (temp t) (.const count) = operation' (temp t) (.const count') ∧ xs = ys := by
  simpa [change] using h

theorem move_ne_change :
    move operation layout count t l ++ xs ≠ change operation' layout count' t ++ ys := by
  simp [move, change, loadCell, temp, ptr]

theorem counted_cancel {command command' : Counted} {note : α} {note' : β}
    (hcount : count.isCount) (hcount' : count'.isCount)
    (h : statement layout t l (.counted command count note) ++ xs =
      statement layout t l (.counted command' count' note') ++ ys) :
    command = command' ∧ count = count' ∧ xs = ys := by
  -- A move has a multiple of its count in it, and a change the count itself.
  have hmultiple := Number.scale_bytes_injective hcount hcount' (s := layout.stride)
  cases command with
  | moveLeft =>
    cases command' with
    | moveLeft =>
      obtain ⟨hdistance, hrest⟩ := move_cancel h
      exact ⟨rfl, hmultiple (Qbe.Value.const.inj (Qbe.Operation.sub.inj hdistance).2), hrest⟩
    | moveRight => cases (move_cancel h).1
    | increment => exact absurd h move_ne_change
    | decrement => exact absurd h move_ne_change
  | moveRight =>
    cases command' with
    | moveLeft => cases (move_cancel h).1
    | moveRight =>
      obtain ⟨hdistance, hrest⟩ := move_cancel h
      exact ⟨rfl, hmultiple (Qbe.Value.const.inj (Qbe.Operation.add.inj hdistance).2), hrest⟩
    | increment => exact absurd h move_ne_change
    | decrement => exact absurd h move_ne_change
  | increment =>
    cases command' with
    | moveLeft => exact absurd h.symm move_ne_change
    | moveRight => exact absurd h.symm move_ne_change
    | increment =>
      obtain ⟨hamount, hrest⟩ := change_cancel h
      exact ⟨rfl, Qbe.Value.const.inj (Qbe.Operation.add.inj hamount).2, hrest⟩
    | decrement => cases (change_cancel h).1
  | decrement =>
    cases command' with
    | moveLeft => exact absurd h.symm move_ne_change
    | moveRight => exact absurd h.symm move_ne_change
    | increment => cases (change_cancel h).1
    | decrement =>
      obtain ⟨hamount, hrest⟩ := change_cancel h
      exact ⟨rfl, Qbe.Value.const.inj (Qbe.Operation.sub.inj hamount).2, hrest⟩

end Counted

mutual

theorem statement_cancel {t l : Nat} {xs ys : List Item} {s : Statement α} {s' : Statement β}
    (hs : s.countsSafe) (hs' : s'.countsSafe)
    (h : statement layout t l s ++ xs = statement layout t l s' ++ ys) :
    s.erase = s'.erase ∧ xs = ys := by
  cases s with
  | counted command count note =>
    cases s' with
    | counted command' count' note' =>
      obtain ⟨rfl, rfl, hrest⟩ := counted_cancel hs hs' h
      exact ⟨rfl, hrest⟩
    | read note' => cases command <;> simp [statement, move, change, loadCell, transfer] at h
    | write note' => cases command <;> simp [statement, move, change, loadCell, transfer] at h
    | loop body' note' =>
      cases command <;> simp [statement, move, change, test, loadCell, ptr, temp] at h
  | read note =>
    cases s' with
    | counted command' count' note' =>
      cases command' <;> simp [statement, move, change, loadCell, transfer] at h
    | read note' => exact ⟨rfl, (List.cons.inj h).2⟩
    | write note' => simp [statement, transfer] at h
    | loop body' note' => simp [statement, transfer, test, loadCell] at h
  | write note =>
    cases s' with
    | counted command' count' note' =>
      cases command' <;> simp [statement, move, change, loadCell, transfer] at h
    | read note' => simp [statement, transfer] at h
    | write note' => exact ⟨rfl, (List.cons.inj h).2⟩
    | loop body' note' => simp [statement, transfer, test, loadCell] at h
  | loop body note =>
    cases s' with
    | counted command' count' note' =>
      cases command' <;> simp [statement, move, change, test, loadCell, ptr, temp] at h
    | read note' => simp [statement, transfer, test, loadCell] at h
    | write note' => simp [statement, transfer, test, loadCell] at h
    | loop body' note' =>
      simp only [statement, List.append_assoc, List.cons_append, List.append_cancel_left_eq,
        List.cons.injEq, true_and] at h
      obtain ⟨hbody, hrest⟩ := statements_cancel hs hs' closes_test closes_test h
      have htemps : tempsAll body = tempsAll body' := by
        rw [← tempsAll_eraseAll, hbody, tempsAll_eraseAll]
      rw [htemps, List.append_cancel_left_eq] at hrest
      exact ⟨by rw [erase, erase, hbody], (List.cons.inj hrest).2⟩

theorem statements_cancel {t l : Nat} {xs ys : List Item} {ss : List (Statement α)}
    {ss' : List (Statement β)} (hs : countsSafeAll ss) (hs' : countsSafeAll ss')
    (hxs : Closes layout l xs) (hys : Closes layout l ys)
    (h : statements layout t l ss ++ xs = statements layout t l ss' ++ ys) :
    eraseAll ss = eraseAll ss' ∧ xs = ys := by
  cases ss with
  | nil =>
    cases ss' with
    | nil => exact ⟨rfl, h⟩
    | cons s' rest' =>
      rw [statements, statements, List.append_assoc] at h
      exact absurd h (hxs.ne s' _)
  | cons s rest =>
    cases ss' with
    | nil =>
      rw [statements, statements, List.append_assoc] at h
      exact absurd h.symm (hys.ne s _)
    | cons s' rest' =>
      rw [countsSafeAll, Bool.and_eq_true] at hs hs'
      simp only [statements, List.append_assoc] at h
      obtain ⟨hfirst, hlater⟩ := statement_cancel hs.1 hs'.1 h
      have htemps : temps s = temps s' := by rw [← temps_erase, hfirst, temps_erase]
      have hlabels : labels s = labels s' := by rw [← labels_erase, hfirst, labels_erase]
      rw [← htemps, ← hlabels] at hlater
      have hle : l ≤ l + labels s := Nat.le_add_right l (labels s)
      obtain ⟨hrest, hends⟩ := statements_cancel hs.2 hs'.2 (hxs.mono hle) (hys.mono hle) hlater
      exact ⟨by rw [eraseAll, eraseAll, hfirst, hrest], hends⟩

end

/-! ## Programs -/

theorem eraseAll_eq_of_mainFunction {p : List (Statement α)} {q : List (Statement β)}
    (hp : countsSafeAll p) (hq : countsSafeAll q)
    (h : mainFunction layout p = mainFunction layout q) : eraseAll p = eraseAll q := by
  have hitems : body layout p = body layout q := by
    rw [← items_mainFunction, ← items_mainFunction, h]
  rw [body, body, List.append_cancel_left_eq] at hitems
  exact (statements_cancel hp hq (closes_return _) (closes_return _) hitems).1

/-- For any accepted choice of tape, two trees with positive safe counts become modules, and the
modules have the same text exactly if the trees are the same up to their notes. -/
theorem text_lower_eq_iff {options : TapeOptions} (hresolve : options.resolve = .ok layout)
    {p : List (Statement α)} {q : List (Statement β)} (hp : countsSafeAll p) (hq : countsSafeAll q) :
    ∃ m n, lower options p = .ok m ∧ lower options q = .ok n ∧
      (m.text = n.text ↔ eraseAll p = eraseAll q) := by
  refine ⟨_, _, lower_eq_ok hresolve p, lower_eq_ok hresolve q, ?_⟩
  have haccepted := options.resolve_accepted hresolve
  constructor
  · intro h
    have hmodules := Qbe.Module.text_injective Qbe.distinct_legible
      (List.forall_mem_singleton.2 (legible_mainFunction haccepted hp))
      (List.forall_mem_singleton.2 (legible_mainFunction haccepted hq)) h
    have hmain : mainFunction layout p = mainFunction layout q := by simpa using hmodules
    exact eraseAll_eq_of_mainFunction hp hq hmain
  · intro h
    rw [mainFunction_congr h layout]

/-- Whether the last statement stands in the loop or behind it can be told, for the largest count. -/
theorem text_lower_eq_iff_nesting :
    ∃ m n,
      lower ⟨none, some (.integer 8)⟩
        [.loop [.counted .moveRight (.integer 9007199254740991) ()] (), .write ()] = .ok m ∧
      lower ⟨none, some (.integer 8)⟩
        [.loop [.counted .moveRight (.integer 9007199254740991) (), .write ()] ()] = .ok n ∧
      m.text ≠ n.text := by
  obtain ⟨m, n, hm, hn, htext⟩ := text_lower_eq_iff
    (rfl : (⟨none, some (.integer 8)⟩ : TapeOptions).resolve = .ok ⟨.integer 30000, .eight⟩)
    (p := [.loop [.counted .moveRight (.integer 9007199254740991) ()] (), .write ()])
    (q := [.loop [.counted .moveRight (.integer 9007199254740991) (), .write ()] ()])
    (by decide) (by decide)
  refine ⟨m, n, hm, hn, ?_⟩
  rw [Ne, htext]
  simp [eraseAll, erase]

end Lowering

end TapeCompiler
