import TapeCompiler.Artifact

/-! # Trees without their notes

The notes of a tree say where its statements were read.  Nothing that is made of a tree looks at
them, so trees that are the same up to their notes have the same outline and the same function.

Each function on trees has a lemma that it may as well be applied to the erased tree.  It is proved
for statements and lists of statements at once, following the recursion of the function.
-/

namespace TapeCompiler

open Statement (erase eraseAll)

variable {α β : Type}

namespace Outline

mutual

theorem statement_erase (depth : Nat) (s : Statement α) :
    statement depth s.erase = statement depth s := by
  cases s with
  | counted command count note => rfl
  | read note => rfl
  | write note => rfl
  | loop body note => simp only [erase, statement, statements_eraseAll (depth + 2) body]

theorem statements_eraseAll (depth : Nat) (ss : List (Statement α)) :
    statements depth (eraseAll ss) = statements depth ss := by
  cases ss with
  | nil => rfl
  | cons s rest =>
    simp only [eraseAll, statements, statement_erase depth s, statements_eraseAll depth rest]

end

theorem text_congr {ss : List (Statement α)} {ts : List (Statement β)}
    (h : eraseAll ss = eraseAll ts) : text ss = text ts := by
  rw [text, text, ← statements_eraseAll 1 ss, ← statements_eraseAll 1 ts, h]

end Outline

namespace Lowering

mutual

theorem temps_erase (s : Statement α) : temps s.erase = temps s := by
  cases s with
  | counted command count note => rfl
  | read note => rfl
  | write note => rfl
  | loop body note => simp only [erase, temps, tempsAll_eraseAll body]

theorem tempsAll_eraseAll (ss : List (Statement α)) : tempsAll (eraseAll ss) = tempsAll ss := by
  cases ss with
  | nil => rfl
  | cons s rest => simp only [eraseAll, tempsAll, temps_erase s, tempsAll_eraseAll rest]

end

mutual

theorem labels_erase (s : Statement α) : labels s.erase = labels s := by
  cases s with
  | counted command count note => cases command <;> rfl
  | read note => rfl
  | write note => rfl
  | loop body note => simp only [erase, labels, labelsAll_eraseAll body]

theorem labelsAll_eraseAll (ss : List (Statement α)) :
    labelsAll (eraseAll ss) = labelsAll ss := by
  cases ss with
  | nil => rfl
  | cons s rest => simp only [eraseAll, labelsAll, labels_erase s, labelsAll_eraseAll rest]

end

mutual

theorem statement_erase (layout : Tape) (t l : Nat) (s : Statement α) :
    statement layout t l s.erase = statement layout t l s := by
  cases s with
  | counted command count note => cases command <;> rfl
  | read note => rfl
  | write note => rfl
  | loop body note =>
    simp only [erase, statement, tempsAll_eraseAll, statements_eraseAll layout (t + 1) (l + 1) body]

theorem statements_eraseAll (layout : Tape) (t l : Nat) (ss : List (Statement α)) :
    statements layout t l (eraseAll ss) = statements layout t l ss := by
  cases ss with
  | nil => rfl
  | cons s rest =>
    simp only [eraseAll, statements, temps_erase, labels_erase, statement_erase layout t l s,
      statements_eraseAll layout (t + temps s) (l + labels s) rest]

end

theorem mainFunction_congr {ss : List (Statement α)} {ts : List (Statement β)}
    (h : eraseAll ss = eraseAll ts) (layout : Tape) :
    mainFunction layout ss = mainFunction layout ts := by
  rw [mainFunction, mainFunction, body, body, ← statements_eraseAll layout firstTemp firstLabel ss,
    ← statements_eraseAll layout firstTemp firstLabel ts, h]

end Lowering

end TapeCompiler
