import TapeCompiler.Proofs.Notes
import TapeCompiler.Proofs.PrintedModules
import TapeCompiler.Proofs.Reading

/-! # Trees from their outlines

The lines of an outline are a flat list, and how its nodes are nested is told by nothing but the
blanks in front of them.  That is enough.  The body of a loop stands two levels below the loop, so it
goes on until a line is less deep than the body (`Shallow`), and no name begins with a blank that
could be taken for one of the indentation.

* `Text.join_injective`: a text can be cut into its lines in one way.
* `Outline.line_inj`: the level and the name of a line can be read off it.
* `Outline.statements_unique`: the lines of two lists of statements, whatever stands behind them.
* `Outline.outline_determines_tree`: whole outlines.
-/

namespace TapeCompiler

/-! ## Lines -/

namespace Text

/-- A text whose only line feed is at its end. -/
def Terminated (line : String) : Prop := ∃ body : String, '\n' ∉ body.toList ∧ line = body ++ "\n"

theorem append_lineFeed_unique {a b xs ys : List Char} (ha : '\n' ∉ a) (hb : '\n' ∉ b)
    (h : a ++ '\n' :: xs = b ++ '\n' :: ys) : a = b ∧ xs = ys := by
  induction a generalizing b with
  | nil =>
    cases b with
    | nil => exact ⟨rfl, (List.cons.inj h).2⟩
    | cons d b => exact absurd (List.cons.inj h).1 (List.ne_of_not_mem_cons hb)
  | cons c a ih =>
    cases b with
    | nil => exact absurd (List.cons.inj h).1.symm (List.ne_of_not_mem_cons ha)
    | cons d b =>
      obtain ⟨rfl, hrest⟩ := List.cons.inj h
      obtain ⟨rfl, hxs⟩ :=
        ih (List.not_mem_of_not_mem_cons ha) (List.not_mem_of_not_mem_cons hb) hrest
      exact ⟨rfl, hxs⟩

theorem join_injective {xs ys : List String} (hxs : ∀ line ∈ xs, Terminated line)
    (hys : ∀ line ∈ ys, Terminated line) (h : String.join xs = String.join ys) : xs = ys := by
  have hempty : ∀ {line : String} {rest : List String}, Terminated line →
      String.join (line :: rest) ≠ "" := by
    rintro _ rest ⟨body, _, rfl⟩ hnil
    have hchars := congrArg String.toList hnil
    simp at hchars
  induction xs generalizing ys with
  | nil =>
    cases ys with
    | nil => rfl
    | cons y ys => exact absurd h.symm (hempty (hys y List.mem_cons_self))
  | cons x xs ih =>
    cases ys with
    | nil => exact absurd h (hempty (hxs x List.mem_cons_self))
    | cons y ys =>
      obtain ⟨⟨a, ha, rfl⟩, hlater⟩ := List.forall_mem_cons.1 hxs
      obtain ⟨⟨b, hb, rfl⟩, hlater'⟩ := List.forall_mem_cons.1 hys
      have hchars := congrArg String.toList h
      simp only [String.join_cons, String.toList_append, List.append_assoc] at hchars
      obtain ⟨hbody, hrest⟩ := append_lineFeed_unique ha hb hchars
      rw [String.toList_injective hbody, ih hlater hlater' (String.toList_injective hrest)]

end Text

/-! ## Trees -/

namespace Statement

variable {α : Type}

/-- Whether the count of a statement, if it has one, passes a test. -/
def countPasses (test : Number → Bool) : Statement α → Bool
  | .counted _ count _ => test count
  | .read _ => true
  | .write _ => true
  | .loop _ _ => true

/-- Whether all counts of some statements, at any depth, pass a test. -/
def allCounts (test : Number → Bool) (ss : List (Statement α)) : Bool :=
  (partsAll ss).all (countPasses test)

/-- The statements that are directly inside a statement. -/
def body : Statement α → List (Statement α)
  | .loop body _ => body
  | .counted _ _ _ | .read _ | .write _ => []

theorem parts_eq (s : Statement α) : s.parts = s :: partsAll s.body := by
  cases s <;> rfl

theorem allCounts_cons {test : Number → Bool} {s : Statement α} {rest : List (Statement α)} :
    allCounts test (s :: rest) ↔
      countPasses test s ∧ allCounts test s.body ∧ allCounts test rest := by
  simp only [allCounts, partsAll, parts_eq, List.cons_append, List.all_cons, List.all_append,
    Bool.and_eq_true]

end Statement

open Qbe (Distinct)
open Statement (erase eraseAll parts partsAll allCounts countPasses)

namespace Outline

variable {α β : Type}

/-- What the line of a statement says. -/
def heading : Statement α → String
  | .counted command count _ => command.statementName ++ "(" ++ count.text ++ ")"
  | .read _ => "Read"
  | .write _ => "Write"
  | .loop _ _ => "Loop"

/-- The lines below the line of a statement. -/
def below (depth : Nat) : Statement α → List String
  | .loop body _ => line (depth + 1) "Block" :: statements (depth + 2) body
  | .counted _ _ _ | .read _ | .write _ => []

theorem statement_eq (depth : Nat) (s : Statement α) :
    statement depth s = line depth (heading s) :: below depth s := by
  cases s <;> rfl

/-- A name that can be told from the blanks in front of it and the line feed behind it. -/
structure IsHeading (name : String) : Prop where
  head?_ne : name.toList.head? ≠ some ' '
  lineFeed_not_mem : '\n' ∉ name.toList

theorem isHeading_block : IsHeading "Block" := ⟨by simp, by simp⟩

theorem isHeading_heading (s : Statement α) : IsHeading (heading s) := by
  cases s with
  | counted command count note =>
    have hcount : '\n' ∉ count.text.toList := fun hmem => (count.unbroken_text _ hmem).2 rfl
    cases command <;> exact ⟨by simp [heading, Counted.statementName],
      by simp [heading, Counted.statementName, hcount]⟩
  | read note => exact ⟨by simp [heading], by simp [heading]⟩
  | write note => exact ⟨by simp [heading], by simp [heading]⟩
  | loop body note => exact ⟨by simp [heading], by simp [heading]⟩

theorem terminated_line {name : String} (h : IsHeading name) (depth : Nat) :
    Text.Terminated (line depth name) := by
  refine ⟨String.ofList (List.replicate (2 * depth) ' ') ++ name, ?_, rfl⟩
  simp [h.lineFeed_not_mem]

theorem line_inj {d e : Nat} {name name' : String} (h : IsHeading name) (h' : IsHeading name')
    (heq : line d name = line e name') : d = e ∧ name = name' := by
  have hchars := congrArg String.toList heq
  simp only [line, String.toList_append, String.toList_ofList, List.append_assoc] at hchars
  have hhead : ∀ {name : String}, IsHeading name →
      (name.toList ++ "\n".toList).head? ≠ some ' ' := by
    intro name hname
    cases hfirst : name.toList with
    | nil => simp
    | cons c rest => simpa [hfirst] using hname.head?_ne
  obtain ⟨hdepth, hname⟩ := replicate_append_unique (hhead h) (hhead h') hchars
  exact ⟨by omega, String.toList_injective (List.append_cancel_right hname)⟩

/-- The next line, if there is one, is above a level. -/
def Shallow (depth : Nat) (lines : List String) : Prop :=
  ∀ next ∈ lines.head?, ∃ d name, d < depth ∧ IsHeading name ∧ next = line d name

namespace Shallow

variable {depth : Nat} {lines : List String}

theorem mono {d : Nat} (h : Shallow depth lines) (hd : depth ≤ d) : Shallow d lines := by
  intro next hnext
  obtain ⟨e, name, he, hname⟩ := h next hnext
  exact ⟨e, name, Nat.lt_of_lt_of_le he hd, hname⟩

theorem ne_statement (h : Shallow depth lines) (s : Statement α) (rest : List String) :
    lines ≠ statement depth s ++ rest := by
  rintro rfl
  rw [statement_eq] at h
  obtain ⟨d, name, hd, hname, hline⟩ := h _ rfl
  exact Nat.ne_of_gt hd (line_inj (isHeading_heading s) hname hline).1

/-- What stands behind the body of a loop is less deep than the body. -/
theorem behind_body (h : Shallow depth lines) (rest : List (Statement α)) :
    Shallow (depth + 2) (statements depth rest ++ lines) := by
  cases rest with
  | nil => exact h.mono (Nat.le_add_right depth 2)
  | cons s rest =>
    rw [statements, statement_eq]
    rintro _ ⟨⟩
    exact ⟨depth, heading s, by omega, isHeading_heading s, rfl⟩

end Shallow

/-! ## Headings -/

theorem counted_ne (command : Counted) (count : Number) {name : String}
    (h : '(' ∉ name.toList) : command.statementName ++ "(" ++ count.text ++ ")" ≠ name := by
  rintro rfl
  simp at h

theorem counted_inj {a b : Counted} {m n : Number}
    (h : a.statementName ++ "(" ++ m.text ++ ")" = b.statementName ++ "(" ++ n.text ++ ")") :
    a = b ∧ m.text = n.text := by
  have hchars := congrArg String.toList h
  cases a <;> cases b <;> simp [Counted.statementName] at hchars
  all_goals exact ⟨rfl, String.toList_injective hchars⟩

section Distinct

variable {test : Number → Bool} (distinct : Distinct fun n => test n)

include distinct

/-- Two statements with the same line are both loops, or the same up to their notes. -/
theorem heading_unique {s : Statement α} {t : Statement β} (hs : countPasses test s)
    (ht : countPasses test t) (h : heading s = heading t) :
    (∃ body note body' note', s = .loop body note ∧ t = .loop body' note') ∨
      (erase s = erase t ∧ ∀ depth, below depth s = [] ∧ below depth t = []) := by
  cases s with
  | counted command count note =>
    cases t with
    | counted command' count' note' =>
      obtain ⟨rfl, htext⟩ := counted_inj h
      rw [distinct count count' hs ht htext]
      exact .inr ⟨rfl, fun depth => ⟨rfl, rfl⟩⟩
    | read | write | loop => exact absurd h (counted_ne command count (by simp [heading]))
  | read note =>
    cases t with
    | counted command count note' =>
      exact absurd h.symm (counted_ne command count (by simp [heading]))
    | read note' => exact .inr ⟨rfl, fun depth => ⟨rfl, rfl⟩⟩
    | write | loop => simp [heading] at h
  | write note =>
    cases t with
    | counted command count note' =>
      exact absurd h.symm (counted_ne command count (by simp [heading]))
    | write note' => exact .inr ⟨rfl, fun depth => ⟨rfl, rfl⟩⟩
    | read | loop => simp [heading] at h
  | loop body note =>
    cases t with
    | counted command count note' =>
      exact absurd h.symm (counted_ne command count (by simp [heading]))
    | read | write => simp [heading] at h
    | loop body' note' => exact .inl ⟨body, note, body', note', rfl, rfl⟩

/-! ## Outlines -/

theorem statements_unique {ss : List (Statement α)} {ts : List (Statement β)} {depth : Nat}
    {xs ys : List String} (hss : allCounts test ss) (hts : allCounts test ts)
    (hx : Shallow depth xs) (hy : Shallow depth ys)
    (h : statements depth ss ++ xs = statements depth ts ++ ys) :
    eraseAll ss = eraseAll ts ∧ xs = ys := by
  match ss, ts with
  | [], [] => exact ⟨rfl, h⟩
  | [], t :: ts =>
    rw [statements, statements, List.append_assoc] at h
    exact absurd h (hx.ne_statement t _)
  | s :: ss, [] =>
    rw [statements, statements, List.append_assoc] at h
    exact absurd h.symm (hy.ne_statement s _)
  | s :: ss, t :: ts =>
    obtain ⟨hs, hinner, hlater⟩ := Statement.allCounts_cons.1 hss
    obtain ⟨ht, hinner', hlater'⟩ := Statement.allCounts_cons.1 hts
    simp only [statements, statement_eq, List.append_assoc, List.cons_append, List.cons.injEq] at h
    obtain ⟨hline, hlines⟩ := h
    have hheading := (line_inj (isHeading_heading s) (isHeading_heading t) hline).2
    rcases heading_unique distinct hs ht hheading with
      ⟨body, note, body', note', rfl, rfl⟩ | ⟨herase, hbelow⟩
    · -- Both bodies end where the lines are less deep than they are.
      simp only [below, List.cons_append, List.cons.injEq, true_and] at hlines
      have hbody : eraseAll body = eraseAll body' ∧ _ :=
        statements_unique hinner hinner' (hx.behind_body ss) (hy.behind_body ts) hlines
      obtain ⟨hbody, hbehind⟩ := hbody
      obtain ⟨hrest, hxy⟩ := statements_unique hlater hlater' hx hy hbehind
      exact ⟨by simp only [eraseAll, erase, hbody, hrest], hxy⟩
    · rw [(hbelow depth).1, (hbelow depth).2] at hlines
      obtain ⟨hrest, hxy⟩ := statements_unique hlater hlater' hx hy hlines
      exact ⟨by rw [eraseAll, eraseAll, herase, hrest], hxy⟩

end Distinct

mutual

theorem forall_mem_statement {P : String → Prop} (hblock : ∀ depth, P (line depth "Block"))
    (hheading : ∀ depth (s : Statement α), P (line depth (heading s))) (depth : Nat)
    (s : Statement α) : ∀ l ∈ statement depth s, P l := by
  rw [statement_eq]
  refine List.forall_mem_cons.2 ⟨hheading depth s, ?_⟩
  cases s with
  | counted | read | write => exact List.forall_mem_nil _
  | loop body note =>
    exact List.forall_mem_cons.2
      ⟨hblock (depth + 1), forall_mem_statements hblock hheading (depth + 2) body⟩

theorem forall_mem_statements {P : String → Prop} (hblock : ∀ depth, P (line depth "Block"))
    (hheading : ∀ depth (s : Statement α), P (line depth (heading s))) (depth : Nat)
    (ss : List (Statement α)) : ∀ l ∈ statements depth ss, P l := by
  cases ss with
  | nil => exact List.forall_mem_nil _
  | cons s rest =>
    exact List.forall_mem_append.2 ⟨forall_mem_statement hblock hheading depth s,
      forall_mem_statements hblock hheading depth rest⟩

end

/-- What holds of the line of every node holds of all lines of an outline. -/
theorem forall_mem_lines {P : String → Prop} (hblock : ∀ depth, P (line depth "Block"))
    (hheading : ∀ depth (s : Statement α), P (line depth (heading s)))
    (program : List (Statement α)) : ∀ l ∈ line 0 "Block" :: statements 1 program, P l :=
  List.forall_mem_cons.2 ⟨hblock 0, forall_mem_statements hblock hheading 1 program⟩

theorem terminated_lines (program : List (Statement α)) :
    ∀ l ∈ line 0 "Block" :: statements 1 program, Text.Terminated l :=
  forall_mem_lines (terminated_line isHeading_block)
    (fun depth s => terminated_line (isHeading_heading s) depth) program

/-- The outline determines the tree.  Two trees whose counts are safe integers have the same outline
exactly if they are the same up to their notes. -/
theorem outline_determines_tree (p : List (Statement α)) (q : List (Statement β))
    (hp : allCounts Number.isSafeInteger p) (hq : allCounts Number.isSafeInteger q) :
    text p = text q ↔ eraseAll p = eraseAll q := by
  refine ⟨fun h => ?_, text_congr⟩
  have hlines := Text.join_injective (terminated_lines p) (terminated_lines q) h
  have hnothing : Shallow 1 [] := fun next hnext => by cases hnext
  have hrows : statements 1 p ++ [] = statements 1 q ++ [] := by
    rw [(List.cons.inj hlines).2]
  exact (statements_unique Qbe.distinct_safe hp hq hnothing hnothing hrows).1

/-- An empty loop beside a statement, and the statement inside the loop. -/
theorem outline_determines_tree_nesting :
    allCounts Number.isSafeInteger [Statement.loop [] (), .counted .decrement (.integer (-3)) ()] ∧
      allCounts Number.isSafeInteger [Statement.loop [.counted .decrement (.integer (-3)) ()] ()] ∧
      text [Statement.loop [] (), .counted .decrement (.integer (-3)) ()] ≠
        text [Statement.loop [.counted .decrement (.integer (-3)) ()] ()] := by
  refine ⟨by decide, by decide, fun h => ?_⟩
  have herase := (outline_determines_tree _ _ (by decide) (by decide)).1 h
  cases herase

end Outline

end TapeCompiler
