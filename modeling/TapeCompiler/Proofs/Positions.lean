import Mathlib.Data.List.Induction
import TapeCompiler.Source.Cursor

/-! # Positions from scratch

A cursor is moved along character by character.  Where it then stands can also be told by looking
back at the code units that it has passed: how many line feeds they hold, and how many units come
behind the last one.

* `Text.line`, `Text.column`: the line and the column behind some code units.
* `Cursor.past`: a cursor moved over a text.
* `Cursor.endOf_eq`: the two ways agree.
-/

namespace TapeCompiler

namespace Text

/-- The line on which a unit stands that has these units before it. -/
def line (units : List Char) : Nat := 1 + units.count '\n'

/-- The column in which a unit stands that has these units before it. -/
def column (units : List Char) : Nat := 1 + (units.reverse.takeWhile (· ≠ '\n')).length

@[simp] theorem units_nil : units [] = [] := rfl

@[simp] theorem units_cons (c : Char) (text : List Char) :
    units (c :: text) = List.replicate (width c) c ++ units text := rfl

@[simp] theorem units_append (xs ys : List Char) : units (xs ++ ys) = units xs ++ units ys :=
  List.flatMap_append

theorem units_eq_self {text : List Char} (h : ∀ c ∈ text, width c = 1) : units text = text := by
  induction text with
  | nil => rfl
  | cons c rest ih =>
    obtain ⟨hc, hrest⟩ := List.forall_mem_cons.1 h
    rw [units_cons, hc, ih hrest]
    rfl

theorem length_units_pos (c : Char) (text : List Char) : 0 < (units (c :: text)).length := by
  have hwidth := width_pos c
  rw [units_cons, List.length_append, List.length_replicate]
  omega

end Text

namespace Cursor

/-- The cursor behind a text that begins at `p`. -/
def past (p : Cursor) (text : List Char) : Cursor := text.foldl step p

@[simp] theorem past_nil (p : Cursor) : p.past [] = p := rfl

@[simp] theorem past_cons (p : Cursor) (c : Char) (text : List Char) :
    p.past (c :: text) = (p.step c).past text := rfl

theorem past_append (p : Cursor) (xs ys : List Char) : p.past (xs ++ ys) = (p.past xs).past ys :=
  List.foldl_append

theorem offset_step (p : Cursor) (c : Char) : (p.step c).offset = p.offset + Text.width c := by
  unfold step
  split
  · rename_i hc
    subst hc
    rfl
  · rfl

@[simp] theorem offset_past (p : Cursor) (text : List Char) :
    (p.past text).offset = p.offset + (Text.units text).length := by
  induction text generalizing p with
  | nil => rfl
  | cons c rest ih => simp [ih, offset_step, Nat.add_assoc]

theorem endOf_eq (text : List Char) :
    endOf text = ⟨Text.line (Text.units text), Text.column (Text.units text),
      (Text.units text).length⟩ := by
  -- From the end of the text, since the last character decides what the column counts from.
  induction text using List.reverseRecOn with
  | nil => rfl
  | append_singleton text c ih =>
    have hstep : endOf (text ++ [c]) = (endOf text).step c := past_append start text [c]
    rw [hstep, ih, step]
    split
    · rename_i hc
      subst hc
      have hunits : Text.units ['\n'] = ['\n'] := rfl
      simp [hunits, Text.line, Text.column, Nat.add_assoc]
    · rename_i hc
      have hcount : (List.replicate (Text.width c) c).count '\n' = 0 := by
        rw [List.count_replicate, if_neg (by simpa using hc)]
      have hwhile : (List.replicate (Text.width c) c ++ (Text.units text).reverse).takeWhile
            (· ≠ '\n') =
          List.replicate (Text.width c) c ++ (Text.units text).reverse.takeWhile (· ≠ '\n') := by
        apply List.takeWhile_append_of_pos
        intro d hd
        rw [List.eq_of_mem_replicate hd]
        exact decide_eq_true hc
      simp only [Text.units_append, Text.units_cons, Text.units_nil, List.append_nil, Text.line,
        Text.column, List.count_append, hcount, List.reverse_append, List.reverse_replicate, hwhile,
        List.length_append, List.length_replicate, Cursor.mk.injEq, and_true]
      omega

end Cursor

end TapeCompiler
