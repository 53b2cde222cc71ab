import Mathlib.Data.List.Basic
import TapeCompiler.Lowering
import TapeCompiler.Proofs.Execution

/-! # Labels and jumps

A jump goes to the first block with its label, so it goes where it should only if no label is
used twice.

* `Qbe.labelsOf`: the labels that a list of items opens.
* `Qbe.enter_of_suffix`: when labels are used once, jumping to one leads to the items behind it.
* `Lowering.Numbered`: the labels that a statement may use: one of four stems with a number from its
  own range.  The ranges of two statements do not meet, and hence `Lowering.nodup_body`.
-/

namespace TapeCompiler

theorem Number.natText_injective {m n : Nat} (h : natText m = natText n) : m = n := by
  have hdigits : Nat.toDigits 10 m = Nat.toDigits 10 n := String.ofList_injective h
  rw [← Nat.ofDigitChars_ten_toDigits (n := m), hdigits, Nat.ofDigitChars_ten_toDigits]

/-! ## Jump targets -/

namespace Qbe

def labelsOf : List Item → List String
  | [] => []
  | .label name :: rest => name :: labelsOf rest
  | .instr _ :: rest => labelsOf rest
  | .jump _ :: rest => labelsOf rest

@[simp] theorem labelsOf_append (xs ys : List Item) :
    labelsOf (xs ++ ys) = labelsOf xs ++ labelsOf ys := by
  induction xs with
  | nil => rfl
  | cons item rest ih => cases item <;> simp [labelsOf, ih]

theorem enter_of_append {label : String} {before behind : List Item}
    (h : label ∉ labelsOf before) :
    enter label (blocksOf (before ++ .label label :: behind)) = some (listingOf behind) := by
  induction before with
  | nil => simp [blocksOf, listingOf, enter]
  | cons item rest ih =>
    cases item with
    | label name =>
      -- A block before the target is passed over, as its label is another one.
      simp only [labelsOf, List.mem_cons, not_or] at h
      simp only [List.cons_append, blocksOf, listingOf, enter, if_neg (Ne.symm h.1)]
      exact ih h.2
    | instr i => exact ih h
    | jump j => exact ih h

theorem enter_of_suffix {label : String} {items behind : List Item}
    (unique : (labelsOf items).Nodup) (h : .label label :: behind <:+ items) :
    enter label (blocksOf items) = some (listingOf behind) := by
  obtain ⟨before, rfl⟩ := h
  apply enter_of_append
  intro hmem
  rw [labelsOf_append] at unique
  exact (List.nodup_append.1 unique).2.2 label hmem label (List.mem_cons_self ..) rfl

end Qbe

/-! ## Names -/

namespace Lowering

open Qbe (labelsOf)

variable {α : Type}

theorem temp_ne_tape (n : Nat) : "v" ++ Number.natText n ≠ "tape" := by
  intro h
  have hlist := congrArg String.toList h
  simp at hlist

theorem temp_ne_ptr (n : Nat) : "v" ++ Number.natText n ≠ "ptr" := by
  intro h
  have hlist := congrArg String.toList h
  simp at hlist

def stems : List String := ["loop", "end", "cont", "halt"]

/-- A stem and a number can be read off a label, as no two stems begin alike. -/
theorem label_injective {a b : String} {m n : Nat} (ha : a ∈ stems) (hb : b ∈ stems)
    (h : label a m = label b n) : a = b ∧ m = n := by
  have hstem : a = b := by
    have hlist := congrArg String.toList h
    simp only [label, String.toList_append] at hlist
    simp only [stems, List.mem_cons, List.not_mem_nil, or_false] at ha hb
    rcases ha with rfl | rfl | rfl | rfl <;> rcases hb with rfl | rfl | rfl | rfl <;>
      simp at hlist ⊢
  subst hstem
  exact ⟨rfl, Number.natText_injective ((String.append_right_inj a).1 h)⟩

/-- A label with a number from `l` up to `l'`. -/
def Numbered (l l' : Nat) (name : String) : Prop :=
  ∃ stem ∈ stems, ∃ n, l ≤ n ∧ n < l' ∧ name = label stem n

theorem Numbered.mono {l l' k k' : Nat} {name : String} (h : Numbered l l' name) (hl : k ≤ l)
    (hl' : l' ≤ k') : Numbered k k' name := by
  obtain ⟨stem, hstem, n, hlow, hhigh, rfl⟩ := h
  exact ⟨stem, hstem, n, by omega, by omega, rfl⟩

theorem Numbered.ne {l l' k k' : Nat} {a b : String} (ha : Numbered l l' a)
    (hb : Numbered k k' b) (h : l' ≤ k) : a ≠ b := by
  obtain ⟨stem, hstem, m, _, hm, rfl⟩ := ha
  obtain ⟨stem', hstem', n, hn, _, rfl⟩ := hb
  intro heq
  have hmn := (label_injective hstem hstem' heq).2
  omega

/-- Every numbered label begins with the first letter of its stem, and so it is neither of the two
names without a number. -/
theorem Numbered.ne_fixed {l l' : Nat} {name : String} (h : Numbered l l' name) :
    name ≠ "runtime" ∧ name ≠ "start" := by
  obtain ⟨stem, hstem, n, _, _, rfl⟩ := h
  simp only [stems, List.mem_cons, List.not_mem_nil, or_false] at hstem
  constructor <;> intro heq <;> have hlist := congrArg String.toList heq <;>
    rcases hstem with rfl | rfl | rfl | rfl <;> simp [label] at hlist

/-! ## The labels of a statement -/

/-- Labels that are used once each, with numbers from `l` up to `l'`. -/
structure Fresh (l l' : Nat) (names : List String) : Prop where
  nodup : names.Nodup
  numbered : ∀ name ∈ names, Numbered l l' name

namespace Fresh

theorem nil (l l' : Nat) : Fresh l l' [] := ⟨List.nodup_nil, by simp⟩

theorem append {l m l' : Nat} {xs ys : List String} (hlow : l ≤ m) (hhigh : m ≤ l')
    (hx : Fresh l m xs) (hy : Fresh m l' ys) : Fresh l l' (xs ++ ys) := by
  constructor
  · apply List.nodup_append.2 ⟨hx.nodup, hy.nodup, ?_⟩
    intro x hxs y hys
    exact (hx.numbered x hxs).ne (hy.numbered y hys) (Nat.le_refl m)
  · intro name hmem
    rcases List.mem_append.1 hmem with h | h
    · exact (hx.numbered name h).mono (Nat.le_refl l) hhigh
    · exact (hy.numbered name h).mono hlow (Nat.le_refl l')

theorem loop {l l' : Nat} {names : List String} (h : Fresh (l + 1) l' names) (hl : l < l') :
    Fresh l l' (label "loop" l :: (names ++ [label "end" l])) := by
  -- The loop's own labels have the number `l`, those of the body later ones.
  have hown : ∀ stem ∈ stems, Numbered l (l + 1) (label stem l) :=
    fun stem hstem => ⟨stem, hstem, l, Nat.le_refl l, Nat.lt_succ_self l, rfl⟩
  have hbegin := hown "loop" (by decide)
  have hend := hown "end" (by decide)
  have hbegin_end : label "loop" l ≠ label "end" l := by
    intro heq
    exact absurd (label_injective (by decide) (by decide) heq).1 (by decide)
  constructor
  · simp only [List.nodup_cons, List.mem_append, List.mem_singleton, not_or, List.nodup_append,
      List.nodup_nil, List.not_mem_nil, not_false_eq_true, and_true, true_and]
    refine ⟨⟨fun hmem => ?_, hbegin_end⟩, h.nodup, ?_⟩
    · exact hbegin.ne (h.numbered _ hmem) (Nat.le_refl _) rfl
    · rintro x hx y rfl
      exact (hend.ne (h.numbered x hx) (Nat.le_refl _)).symm
  · intro name hmem
    simp only [List.mem_cons, List.mem_append, List.not_mem_nil, or_false] at hmem
    rcases hmem with rfl | hmem | rfl
    · exact hbegin.mono (Nat.le_refl l) hl
    · exact (h.numbered name hmem).mono (by omega) (Nat.le_refl l')
    · exact hend.mono (Nat.le_refl l) hl

end Fresh

theorem fresh_move (operation : Qbe.Value → Qbe.Value → Qbe.Operation) (layout : Tape)
    (count : Number) (t l : Nat) :
    Fresh l (l + 2) (labelsOf (move operation layout count t l)) := by
  have hnames : labelsOf (move operation layout count t l) =
      [label "halt" (l + 1), label "cont" l] := rfl
  rw [hnames]
  constructor
  · simp only [List.nodup_cons, List.mem_singleton, List.not_mem_nil, not_false_eq_true,
      List.nodup_nil, and_true]
    intro heq
    have hl := (label_injective (by decide) (by decide) heq).2
    omega
  · intro name hmem
    simp only [List.mem_cons, List.not_mem_nil, or_false] at hmem
    rcases hmem with rfl | rfl
    · exact ⟨"halt", by decide, l + 1, by omega, by omega, rfl⟩
    · exact ⟨"cont", by decide, l, by omega, by omega, rfl⟩

mutual

theorem fresh_statement (layout : Tape) (t l : Nat) :
    ∀ s : Statement α, Fresh l (l + labels s) (labelsOf (statement layout t l s))
  | .counted .moveLeft count _ => fresh_move .sub layout count t l
  | .counted .moveRight count _ => fresh_move .add layout count t l
  | .counted .increment _ _ => .nil l l
  | .counted .decrement _ _ => .nil l l
  | .read _ => .nil l l
  | .write _ => .nil l l
  | .loop body _ => by
    have hbody := fresh_statements layout (t + 1) (l + 1) body
    have hlabels : l + 1 + labelsAll body = l + (1 + labelsAll body) := by omega
    simp only [statement, labels, Qbe.labelsOf_append, test, loadCell, labelsOf, List.nil_append]
    rw [hlabels] at hbody
    exact hbody.loop (by omega)

theorem fresh_statements (layout : Tape) (t l : Nat) :
    ∀ ss : List (Statement α), Fresh l (l + labelsAll ss) (labelsOf (statements layout t l ss))
  | [] => .nil l l
  | s :: rest => by
    have hrest := fresh_statements layout (t + temps s) (l + labels s) rest
    simp only [statements, labelsAll, Qbe.labelsOf_append]
    rw [Nat.add_assoc] at hrest
    exact (fresh_statement layout t l s).append (by omega) (by omega) hrest

end

theorem labelsOf_body (layout : Tape) (program : List (Statement α)) :
    labelsOf (body layout program) =
      "runtime" :: "start" :: labelsOf (statements layout firstTemp firstLabel program) := by
  simp [body, prologue, labelsOf]

/-- No label of a program is used twice. -/
theorem nodup_body (layout : Tape) (program : List (Statement α)) :
    (labelsOf (body layout program)).Nodup := by
  have hfresh := fresh_statements layout firstTemp firstLabel program
  rw [labelsOf_body]
  simp only [List.nodup_cons, List.mem_cons, not_or]
  refine ⟨⟨by decide, fun hmem => ?_⟩, fun hmem => ?_, hfresh.nodup⟩
  · exact (hfresh.numbered _ hmem).ne_fixed.1 rfl
  · exact (hfresh.numbered _ hmem).ne_fixed.2 rfl

end Lowering

end TapeCompiler
