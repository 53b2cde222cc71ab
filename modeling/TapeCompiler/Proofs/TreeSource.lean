import TapeCompiler.Proofs.Reading
import TapeCompiler.Proofs.SameLexemes

/-! # Every tree has a source

A tree is written as text: a counted statement as a run, a loop between its brackets, and a gap
between the statements of a block.  The text is read back as the tree.

A gap of commentary keeps neighbours apart.  Without a gap, two neighbouring runs of one command
would be read as one, and that is all that can go wrong: a bracket separates what it stands between,
so statements of different blocks never run together.

* `Statement.sourceAll`: the text of a list of statements.
* `Statement.countsPositiveAll`, `Statement.mergedAll`: what is asked of the tree.
* `reads_source`, `reads_sourceAll`: the lexemes of the text are those of the tree.
* `every_tree_has_source`: the text, with blanks or without, is parsed as the tree.
-/

namespace TapeCompiler

open Statement (lexemes lexemesAll eraseAll)

/-- Whether a number is an integer from one on. -/
def Number.isPositiveInteger : Number → Bool
  | .integer n => 1 ≤ n
  | _ => false

theorem Number.exists_of_isPositiveInteger {n : Number} (h : n.isPositiveInteger) :
    ∃ k, n = .ofNat (k + 1) := by
  cases n with
  | integer i =>
    have hi : 1 ≤ i := by simpa [isPositiveInteger] using h
    obtain ⟨k, hk⟩ := Int.eq_ofNat_of_zero_le (by omega : 0 ≤ i - 1)
    exact ⟨k, congrArg Number.integer (by omega)⟩
  | fraction i halvings => cases h
  | infinity negative => cases h

namespace Statement

variable {α : Type}

mutual

/-- The text of a statement, `gap` standing between the statements of a block. -/
def source (gap : List Char) : Statement α → List Char
  | .counted command count _ => List.replicate (count.index?.getD 0) command.char
  | .read _ => [',']
  | .write _ => ['.']
  | .loop body _ => '[' :: (gap.intercalate (sources gap body) ++ [']'])

def sources (gap : List Char) : List (Statement α) → List (List Char)
  | [] => []
  | s :: rest => s.source gap :: sources gap rest

end

/-- The text of a list of statements. -/
def sourceAll (gap : List Char) (ss : List (Statement α)) : List Char :=
  gap.intercalate (sources gap ss)

mutual

/-- Whether every count of a statement is an integer from one on. -/
def countsPositive : Statement α → Bool
  | .counted _ count _ => count.isPositiveInteger
  | .read _ => true
  | .write _ => true
  | .loop body _ => countsPositiveAll body

def countsPositiveAll : List (Statement α) → Bool
  | [] => true
  | s :: rest => s.countsPositive && countsPositiveAll rest

end

/-- The command of a counted statement. -/
def command? : Statement α → Option Counted
  | .counted command _ _ => some command
  | .read _ => none
  | .write _ => none
  | .loop _ _ => none

/-- Whether two statements are counted and of the same command. -/
def sameCommand (s t : Statement α) : Bool := s.command?.isSome && s.command? = t.command?

mutual

/-- Whether no block of a statement has neighbours that could be one statement. -/
def merged : Statement α → Bool
  | .counted _ _ _ => true
  | .read _ => true
  | .write _ => true
  | .loop body _ => mergedAll body

def mergedAll : List (Statement α) → Bool
  | [] => true
  | s :: rest => s.merged && !rest.head?.any s.sameCommand && mergedAll rest

end

/-! ## Borders -/

variable {gap : List Char} {command : Counted}

theorem command?_of_last {s : Statement α} (h : (s.source gap).getLast? = some command.char) :
    s.command? = some command := by
  cases s with
  | counted other count note =>
    have hmem := List.mem_of_getLast? h
    rw [Counted.char_injective (List.eq_of_mem_replicate hmem)]
    rfl
  | read note => exact absurd (Option.some.inj h).symm (command.char_ne .read)
  | write note => exact absurd (Option.some.inj h).symm (command.char_ne .write)
  | loop body note =>
    rw [source, ← List.cons_append, List.getLast?_concat] at h
    exact absurd (Option.some.inj h).symm (command.char_ne .loopClose)

theorem command?_of_head {s : Statement α} (hcounts : s.countsPositive) {behind : List Char}
    (h : (s.source gap ++ behind).head? = some command.char) : s.command? = some command := by
  cases s with
  | counted other count note =>
    obtain ⟨k, rfl⟩ := Number.exists_of_isPositiveInteger hcounts
    exact congrArg some (Counted.char_injective (Option.some.inj h))
  | read note => exact absurd (Option.some.inj h).symm (command.char_ne .read)
  | write note => exact absurd (Option.some.inj h).symm (command.char_ne .write)
  | loop body note => exact absurd (Option.some.inj h).symm (command.char_ne .loopOpen)

theorem sourceAll_cons (gap : List Char) (s : Statement α) (rest : List (Statement α)) :
    ∃ behind, sourceAll gap (s :: rest) = s.source gap ++ behind := by
  cases rest with
  | nil => exact ⟨[], by simp [sourceAll, sources]⟩
  | cons t rest => exact ⟨_, by rw [sourceAll, sources, sources, List.intercalate_cons_cons,
      List.append_assoc]⟩

/-- Neighbours run together only if they could be one statement. -/
theorem sameCommand_of_fuses {s t : Statement α} {rest : List (Statement α)}
    (hcounts : t.countsPositive) (h : Fuses (s.source gap) (sourceAll gap (t :: rest))) :
    s.sameCommand t := by
  obtain ⟨command, hlast, hhead⟩ := h
  obtain ⟨behind, hbehind⟩ := sourceAll_cons gap t rest
  rw [hbehind] at hhead
  simp [sameCommand, command?_of_last hlast, command?_of_head hcounts hhead]

end Statement

/-! ## Reading the text -/

section Sources

variable {α : Type} {gap : List Char}

mutual

theorem reads_source (hgap : ∀ c ∈ gap, Commentary c) (s : Statement α)
    (hcounts : s.countsPositive) (hsplit : gap = [] → s.merged) :
    Reads (s.source gap) s.lexemes := by
  cases s with
  | counted command count note =>
    obtain ⟨k, rfl⟩ := Number.exists_of_isPositiveInteger hcounts
    exact .of_written (.counted command (Nat.succ_pos k))
  | read note => exact .of_written (.bare .read)
  | write note => exact .of_written (.bare .write)
  | loop body note =>
    have hbody := reads_sourceAll hgap body hcounts hsplit
    have hclose := hbody.append (.of_written (.bare .loopClose)) (Fuses.not_of_head rfl)
    exact Reads.append (.of_written (.bare .loopOpen)) hclose (Fuses.not_of_last (a := []) rfl)

theorem reads_sourceAll (hgap : ∀ c ∈ gap, Commentary c) (ss : List (Statement α))
    (hcounts : Statement.countsPositiveAll ss) (hsplit : gap = [] → Statement.mergedAll ss) :
    Reads (Statement.sourceAll gap ss) (lexemesAll ss) := by
  cases ss with
  | nil => exact .of_commentary (List.forall_mem_nil _)
  | cons s rest =>
    simp only [Statement.countsPositiveAll, Bool.and_eq_true] at hcounts
    simp only [Statement.mergedAll, Bool.and_eq_true, Bool.not_eq_true'] at hsplit
    have hs := reads_source hgap s hcounts.1 fun hempty => (hsplit hempty).1.1
    have hrest := reads_sourceAll hgap rest hcounts.2 fun hempty => (hsplit hempty).2
    cases rest with
    | nil => simpa [Statement.sourceAll, Statement.sources, lexemesAll] using hs
    | cons t rest =>
      have hspaced := hs.append (.of_commentary hgap) (Fuses.not_commentary hgap)
      rw [List.append_nil] at hspaced
      -- A gap is in the way of a run, and without one the neighbours are of different commands.
      have hborder : ¬Fuses (s.source gap ++ gap) (Statement.sourceAll gap (t :: rest)) := by
        intro hfuses
        obtain ⟨hempty, hfuses⟩ := hfuses.of_append_commentary hgap
        simp only [Statement.countsPositiveAll, Bool.and_eq_true] at hcounts
        have hsame := Statement.sameCommand_of_fuses hcounts.2.1 hfuses
        have hdiffer := (hsplit hempty).1.2
        simp [hsame] at hdiffer
      rw [Statement.sourceAll, Statement.sources, Statement.sources, List.intercalate_cons_cons]
      exact hspaced.append hrest hborder

end

theorem parse_sourceAll (hgap : ∀ c ∈ gap, Commentary c) (file : String)
    {tree : List (Statement α)} (hcounts : Statement.countsPositiveAll tree)
    (hsplit : gap = [] → Statement.mergedAll tree) :
    ∃ program, parse (lex file (Statement.sourceAll gap tree)) = .ok program ∧
      eraseAll program = eraseAll tree :=
  parse_of_lexemes ((reads_sourceAll hgap tree hcounts hsplit).lexemes_lex file)

end Sources

/-- Every tree whose counts are integers from one on has a source.  Written with a blank between the
statements of each block it is parsed as itself, up to its notes; and so it is without the blanks if no
block has neighbours of the same counted command. -/
theorem every_tree_has_source {α : Type} (file : String) (tree : List (Statement α))
    (hcounts : Statement.countsPositiveAll tree) :
    (∃ program, parse (lex file (Statement.sourceAll [' '] tree)) = .ok program ∧
        eraseAll program = eraseAll tree) ∧
      (Statement.mergedAll tree →
        ∃ program, parse (lex file (Statement.sourceAll [] tree)) = .ok program ∧
          eraseAll program = eraseAll tree) := by
  have hblank : ∀ c ∈ [' '], Commentary c := by
    intro c hc
    rw [List.mem_singleton.1 hc]
    exact ⟨rfl, rfl⟩
  refine ⟨parse_sourceAll hblank file hcounts (fun hempty => by cases hempty), fun hmerged => ?_⟩
  exact parse_sourceAll (List.forall_mem_nil _) file hcounts fun _ => hmerged

/-- A move at the end of a loop and another behind it: only the bracket keeps them apart. -/
theorem every_tree_has_source_moves :
    Statement.countsPositiveAll [.loop [.counted .decrement (.integer 1) (),
      .counted .moveRight (.integer 2) ()] (), .counted .moveRight (.integer 1) ()] ∧
      (∃ program, parse (lex "moves.b" ['[', '-', ' ', '>', '>', ']', ' ', '>']) = .ok program ∧
        eraseAll program = [.loop [.counted .decrement (.integer 1) (),
          .counted .moveRight (.integer 2) ()] (), .counted .moveRight (.integer 1) ()]) ∧
      (∃ program, parse (lex "moves.b" ['[', '-', '>', '>', ']', '>']) = .ok program ∧
        eraseAll program = [.loop [.counted .decrement (.integer 1) (),
          .counted .moveRight (.integer 2) ()] (), .counted .moveRight (.integer 1) ()]) := by
  have hsource := every_tree_has_source "moves.b" [.loop [.counted .decrement (.integer 1) (),
    .counted .moveRight (.integer 2) ()] (), .counted .moveRight (.integer 1) ()] (by decide)
  exact ⟨by decide, hsource.1, hsource.2 (by decide)⟩

end TapeCompiler
