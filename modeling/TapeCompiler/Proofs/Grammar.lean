import Mathlib.Data.List.Basic
import TapeCompiler.Parsing.Statement

/-! # The grammar of token lists

A tree is written down as a list of lexemes by `Statement.lexemesAll`, a loop between its two
brackets.  Parsing is the inverse of that, and it fails only where there is nothing to invert.

* `NeverExceeds`: no beginning of a list closes more than it opens.
* `Balanced`: brackets match.  The lexemes of a tree are balanced.
* `readBlock_spec`: what a block was read from, and what made it stop.
* `lexemesAll_unique`: a list of lexemes is written down by at most one tree.

That every written tree is read back needs no induction of its own.  Its lexemes are balanced, so
something is read, and that has the same lexemes.
-/

namespace TapeCompiler

open Lexeme (bare)

namespace Statement

variable {α β : Type}

mutual

/-- The lexemes that a statement is written with. -/
def lexemes : Statement α → List Lexeme
  | .counted command count _ => [.counted command count]
  | .read _ => [bare .read]
  | .write _ => [bare .write]
  | .loop body _ => bare .loopOpen :: (lexemesAll body ++ [bare .loopClose])

def lexemesAll : List (Statement α) → List Lexeme
  | [] => []
  | s :: rest => s.lexemes ++ lexemesAll rest

end

/-- A statement never starts with the close of a loop. -/
theorem lexemes_eq_cons (s : Statement α) :
    ∃ first rest, s.lexemes = first :: rest ∧ first ≠ bare .loopClose := by
  cases s with
  | counted command count note => exact ⟨_, _, rfl, by simp⟩
  | read note => exact ⟨_, _, rfl, by decide⟩
  | write note => exact ⟨_, _, rfl, by decide⟩
  | loop body note => exact ⟨_, _, rfl, by decide⟩

end Statement

open Statement (lexemes lexemesAll erase eraseAll)

/-! ## Balance -/

/-- No beginning of the list holds more `closing` than `opening`. -/
def NeverExceeds {α : Type} [DecidableEq α] (opening closing : α) (xs : List α) : Prop :=
  ∀ n, (xs.take n).count closing ≤ (xs.take n).count opening

namespace NeverExceeds

variable {α : Type} [DecidableEq α] {opening closing : α} {xs ys : List α}

theorem append (hx : NeverExceeds opening closing xs) (hy : NeverExceeds opening closing ys) :
    NeverExceeds opening closing (xs ++ ys) := by
  intro n
  have hfirst := hx n
  have hsecond := hy (n - xs.length)
  rw [List.take_append, List.count_append, List.count_append]
  omega

theorem cons_opening (hne : opening ≠ closing) (h : NeverExceeds opening closing xs) :
    NeverExceeds opening closing (opening :: xs) := by
  intro n
  cases n with
  | zero => simp
  | succ n =>
    have hrest := h n
    rw [List.take_succ_cons, List.count_cons_of_ne hne, List.count_cons_self]
    omega

end NeverExceeds

/-- No beginning of the list closes more loops than it opens, and the whole list closes as many as
it opens. -/
structure Balanced (ls : List Lexeme) : Prop where
  beginnings : NeverExceeds (bare .loopOpen) (bare .loopClose) ls
  total : ls.count (bare .loopClose) = ls.count (bare .loopOpen)

namespace Balanced

theorem nil : Balanced [] := ⟨by simp [NeverExceeds], rfl⟩

theorem single {l : Lexeme} (hopen : l ≠ bare .loopOpen) (hclose : l ≠ bare .loopClose) :
    Balanced [l] := by
  have hcount : ∀ n, ([l].take n).count (bare .loopClose) = 0 := by
    intro n
    rw [List.count_eq_zero]
    intro hmem
    exact hclose (List.mem_singleton.1 (List.mem_of_mem_take hmem)).symm
  exact ⟨fun n => by rw [hcount]; exact Nat.zero_le _, by simp [hopen, hclose]⟩

theorem append {xs ys : List Lexeme} (hx : Balanced xs) (hy : Balanced ys) :
    Balanced (xs ++ ys) where
  beginnings := hx.beginnings.append hy.beginnings
  total := by rw [List.count_append, List.count_append, hx.total, hy.total]

theorem enclose {ls : List Lexeme} (h : Balanced ls) :
    Balanced (bare .loopOpen :: (ls ++ [bare .loopClose])) := by
  refine ⟨fun n => ?_, by simp [h.total]⟩
  cases n with
  | zero => simp
  | succ n =>
    have hinner := h.beginnings n
    -- The close is in the beginning only if all else is, and so is the open before it.
    have hlast := List.count_le_length (a := bare .loopClose)
      (l := [bare .loopClose].take (n - ls.length))
    simp only [List.length_take, List.length_singleton] at hlast
    simp only [List.take_succ_cons, List.take_append, List.count_cons, List.count_append]
    simp
    omega

end Balanced

mutual

theorem Statement.lexemes_balanced {α : Type} (s : Statement α) : Balanced s.lexemes := by
  cases s with
  | counted command count note => exact .single (by simp) (by simp)
  | read note => exact .single (by decide) (by decide)
  | write note => exact .single (by decide) (by decide)
  | loop body note => exact (lexemesAll_balanced body).enclose

theorem Statement.lexemesAll_balanced {α : Type} (ss : List (Statement α)) :
    Balanced (lexemesAll ss) := by
  cases ss with
  | nil => exact .nil
  | cons s rest => exact s.lexemes_balanced.append (lexemesAll_balanced rest)

end

/-! ## What stops a block -/

/-- A loop that is opened and never closed, and behind its statements perhaps another. -/
inductive Unclosed : List Lexeme → Prop where
  | last (body : List (Statement Span)) : Unclosed (bare .loopOpen :: lexemesAll body)
  | outer (body : List (Statement Span)) {rest : List Lexeme} :
      Unclosed rest → Unclosed (bare .loopOpen :: (lexemesAll body ++ rest))

theorem Unclosed.count_lt {ls : List Lexeme} (h : Unclosed ls) :
    ls.count (bare .loopClose) < ls.count (bare .loopOpen) := by
  induction h with
  | last body =>
    have hbody := (Statement.lexemesAll_balanced body).total
    simp [hbody]
  | outer body _ ih =>
    have hbody := (Statement.lexemesAll_balanced body).total
    simp [hbody]
    omega

theorem Unclosed.exists_open {tokens : List Token} (h : Unclosed (tokens.map Token.lexeme)) :
    ∃ t rest, tokens = t :: rest ∧ t.lexeme = bare .loopOpen := by
  generalize hls : tokens.map Token.lexeme = ls at h
  cases h with
  | last body =>
    obtain ⟨t, rest, rfl, ht, _⟩ := List.map_eq_cons_iff.1 hls
    exact ⟨t, rest, rfl, ht⟩
  | outer body _ =>
    obtain ⟨t, rest, rfl, ht, _⟩ := List.map_eq_cons_iff.1 hls
    exact ⟨t, rest, rfl, ht⟩

/-- Why no statement starts at the head of some tokens. -/
inductive Stops : List Token → ParseError → Prop where
  | ended : Stops [] .endOfInput
  | close {t : Token} (rest : List Token) :
      t.lexeme = bare .loopClose → Stops (t :: rest) (.unexpectedToken t)
  | unclosed {tokens : List Token} : Unclosed (tokens.map Token.lexeme) → Stops tokens .endOfInput

theorem closeLoop_eq_taken {first : Token} {inner : BlockReading} {left : List Token}
    {s : Statement Span} {more : Nat} (h : closeLoop first inner left = .taken s more) :
    ∃ close behind, left = close :: behind ∧ close.lexeme = bare .loopClose ∧
      s = .loop inner.statements (first.span.join close.span) ∧ more = inner.used + 1 := by
  cases left with
  | nil => cases h
  | cons close behind =>
    rw [closeLoop] at h
    split at h
    · rename_i hclose
      cases h
      exact ⟨close, behind, rfl, hclose, rfl, rfl⟩
    · cases h

/-- A block that is read from the beginning of `tokens`. -/
structure BlockReading.ReadFrom (b : BlockReading) (tokens : List Token) : Prop where
  used_le : b.used ≤ tokens.length
  lexemes_eq : lexemesAll b.statements = (tokens.take b.used).map Token.lexeme
  stops : Stops (tokens.drop b.used) b.stop.error

namespace BlockReading.ReadFrom

theorem stopped {tokens : List Token} {reason : ParseFailure} (h : Stops tokens reason.error) :
    (stopped reason).ReadFrom tokens :=
  ⟨Nat.zero_le _, rfl, h⟩

theorem push {b : BlockReading} {first : Token} {rest : List Token} {s : Statement Span} {n : Nat}
    (hn : n ≤ rest.length) (hs : s.lexemes = (first :: rest.take n).map Token.lexeme)
    (h : b.ReadFrom (rest.drop n)) : (b.push s (n + 1)).ReadFrom (first :: rest) := by
  have hused := h.used_le
  rw [List.length_drop] at hused
  have hsum : n + 1 + b.used = n + b.used + 1 := by omega
  refine ⟨?_, ?_, ?_⟩
  · simp only [BlockReading.push, List.length_cons]
    omega
  · simp only [BlockReading.push, lexemesAll, hs, h.lexemes_eq, hsum, List.take_succ_cons,
      List.take_add, List.map_cons, List.map_append, List.cons_append]
  · have hstops := h.stops
    rw [List.drop_drop] at hstops
    simpa only [BlockReading.push, hsum, List.drop_succ_cons] using hstops

theorem refused {inner : BlockReading} {first : Token} {rest : List Token} {reason : ParseFailure}
    (hfirst : first.lexeme = bare .loopOpen) (h : inner.ReadFrom rest)
    (hclose : closeLoop first inner (rest.drop inner.used) = .refused reason) :
    Stops (first :: rest) reason.error := by
  have hsplit := congrArg (List.map Token.lexeme) (List.take_append_drop inner.used rest)
  rw [List.map_append, ← h.lexemes_eq] at hsplit
  have hstops := h.stops
  generalize rest.drop inner.used = left at hsplit hclose hstops
  generalize herror : inner.stop.error = error at hstops
  -- A body that stops at a close has its loop taken, so one of the other two stopped it.
  cases hstops with
  | ended =>
    cases hclose
    apply Stops.unclosed
    rw [List.map_cons, hfirst, ← hsplit, List.map_nil, List.append_nil]
    exact .last _
  | close behind ht =>
    rw [closeLoop, if_pos ht] at hclose
    cases hclose
  | unclosed hopen =>
    obtain ⟨t, behind, rfl, ht⟩ := hopen.exists_open
    rw [closeLoop, if_neg (by rw [ht]; decide)] at hclose
    cases hclose
    rw [herror]
    apply Stops.unclosed
    rw [List.map_cons, hfirst, ← hsplit]
    exact .outer _ hopen

theorem taken {inner : BlockReading} {first : Token} {rest : List Token} {s : Statement Span}
    {n : Nat} (hfirst : first.lexeme = bare .loopOpen) (h : inner.ReadFrom rest)
    (hclose : closeLoop first inner (rest.drop inner.used) = .taken s n) :
    n ≤ rest.length ∧ s.lexemes = (first :: rest.take n).map Token.lexeme := by
  obtain ⟨t, behind, hleft, ht, rfl, rfl⟩ := closeLoop_eq_taken hclose
  have hlt : inner.used < rest.length := by
    rw [← List.drop_eq_nil_iff.not.trans Nat.not_le, hleft]
    simp
  have htake : rest.take (inner.used + 1) = rest.take inner.used ++ [t] := by
    rw [List.take_add, hleft]
    rfl
  refine ⟨hlt, ?_⟩
  simp only [lexemes, h.lexemes_eq, htake, List.map_cons, List.map_append, List.map_nil, hfirst, ht]

end BlockReading.ReadFrom

theorem Token.opening_spec (t : Token) :
    match t.opening with
    | .simple s => s.lexemes = [t.lexeme]
    | .loop => t.lexeme = bare .loopOpen
    | .nothing => t.lexeme = bare .loopClose := by
  obtain ⟨lexeme, span⟩ := t
  cases lexeme with
  | counted command count => rfl
  | bare command => cases command <;> rfl

theorem readBlock_spec (tokens : List Token) : (readBlock tokens).ReadFrom tokens := by
  fun_induction readBlock tokens with
  | case1 => exact .stopped .ended
  | case2 first rest s hopening ih =>
    have hs := first.opening_spec
    rw [hopening] at hs
    exact .push (Nat.zero_le _) hs ih
  | case3 first rest hopening =>
    have hfirst := first.opening_spec
    rw [hopening] at hfirst
    exact .stopped (.close rest hfirst)
  | case4 first rest hopening inner reason hclose ih =>
    have hfirst := first.opening_spec
    rw [hopening] at hfirst
    exact .stopped (ih.refused hfirst hclose)
  | case5 first rest hopening inner s more hclose ih ih' =>
    have hfirst := first.opening_spec
    rw [hopening] at hfirst
    obtain ⟨hmore, hs⟩ := ih.taken hfirst hclose
    exact .push hmore hs ih'

theorem lexemesAll_of_parse {tokens : List Token} {program : List (Statement Span)}
    (h : parse tokens = .ok program) : lexemesAll program = tokens.map Token.lexeme := by
  have hread := readBlock_spec tokens
  rw [parse] at h
  split at h
  · cases h
  · cases h
    rw [hread.lexemes_eq, List.take_of_length_le (by omega)]

/-- Behind a balanced beginning there is no balanced way to go on from where a block stops. -/
theorem Stops.not_balanced {tokens : List Token} {error : ParseError} {ls : List Lexeme}
    (h : Stops tokens error) (hne : tokens ≠ []) (hls : Balanced ls) :
    ¬Balanced (ls ++ tokens.map Token.lexeme) := by
  intro hall
  cases h with
  | ended => exact hne rfl
  | @close t rest ht =>
    have htake : (ls ++ (t :: rest).map Token.lexeme).take (ls.length + 1) =
        ls ++ [bare .loopClose] := by
      rw [List.take_append, List.take_of_length_le (Nat.le_succ _), Nat.add_sub_cancel_left,
        List.map_cons, ht]
      rfl
    have hmore := hall.beginnings (ls.length + 1)
    have hclose : [bare .loopClose].count (bare .loopClose) = 1 := by decide
    have hopen : [bare .loopClose].count (bare .loopOpen) = 0 := by decide
    rw [htake, List.count_append, List.count_append, hls.total, hclose, hopen] at hmore
    omega
  | unclosed hopen =>
    have hlt := hopen.count_lt
    have htotal := hall.total
    rw [List.count_append, List.count_append, hls.total] at htotal
    omega

theorem parse_isOk_iff (tokens : List Token) :
    (∃ program, parse tokens = .ok program) ↔ Balanced (tokens.map Token.lexeme) := by
  constructor
  · rintro ⟨program, h⟩
    rw [← lexemesAll_of_parse h]
    exact Statement.lexemesAll_balanced program
  · intro hbalanced
    have hread := readBlock_spec tokens
    by_cases hused : (readBlock tokens).used < tokens.length
    · -- The block stopped early, and from there on nothing makes the list balanced.
      have hleft : tokens.drop (readBlock tokens).used ≠ [] := by
        rw [Ne, List.drop_eq_nil_iff]
        omega
      have hsplit := congrArg (List.map Token.lexeme)
        (List.take_append_drop (readBlock tokens).used tokens)
      rw [List.map_append, ← hread.lexemes_eq] at hsplit
      rw [← hsplit] at hbalanced
      exact absurd hbalanced
        (hread.stops.not_balanced hleft (Statement.lexemesAll_balanced _))
    · exact ⟨_, by rw [parse, if_neg hused]⟩

/-! ## Unambiguity -/

/-- What can stand behind the statements of a block. -/
def Ended (ls : List Lexeme) : Prop := ls = [] ∨ ∃ rest, ls = bare .loopClose :: rest

theorem Ended.close (ls : List Lexeme) : Ended (bare .loopClose :: ls) := .inr ⟨ls, rfl⟩

theorem Ended.ne_lexemes {ls : List Lexeme} (h : Ended ls) {α : Type} (s : Statement α)
    (rest : List Lexeme) : ls ≠ s.lexemes ++ rest := by
  obtain ⟨first, more, hs, hfirst⟩ := s.lexemes_eq_cons
  rw [hs]
  rintro rfl
  rcases h with h | ⟨_, h⟩
  · cases h
  · exact hfirst (List.cons.inj h).1

/-- Two lists of statements that are written alike are the same up to their notes, and so is what
is behind them. -/
theorem Statement.lexemesAll_unique {α β : Type} {ss : List (Statement α)}
    {ts : List (Statement β)} {xs ys : List Lexeme} (hx : Ended xs) (hy : Ended ys)
    (h : lexemesAll ss ++ xs = lexemesAll ts ++ ys) : eraseAll ss = eraseAll ts ∧ xs = ys := by
  match ss, ts with
  | [], [] => exact ⟨rfl, h⟩
  | [], t :: ts =>
    rw [lexemesAll, lexemesAll, List.append_assoc] at h
    exact absurd h (hx.ne_lexemes t _)
  | s :: ss, [] =>
    rw [lexemesAll, lexemesAll, List.append_assoc] at h
    exact absurd h.symm (hy.ne_lexemes s _)
  | s :: ss, t :: ts =>
    -- The first lexeme tells the statements apart, so both begin with the same one.
    simp only [lexemesAll, List.append_assoc] at h
    cases s with
    | counted command count note =>
      cases t <;> simp [lexemes] at h
      obtain ⟨⟨rfl, rfl⟩, h⟩ := h
      obtain ⟨hrest, hxy⟩ := lexemesAll_unique hx hy h
      exact ⟨by simp [eraseAll, erase, hrest], hxy⟩
    | read note =>
      cases t <;> simp [lexemes] at h
      obtain ⟨hrest, hxy⟩ := lexemesAll_unique hx hy h
      exact ⟨by simp [eraseAll, erase, hrest], hxy⟩
    | write note =>
      cases t <;> simp [lexemes] at h
      obtain ⟨hrest, hxy⟩ := lexemesAll_unique hx hy h
      exact ⟨by simp [eraseAll, erase, hrest], hxy⟩
    | loop body note =>
      cases t <;> simp [lexemes] at h
      -- Both bodies end at a close, so they end at the same one.
      obtain ⟨hbody, h⟩ := lexemesAll_unique (.close _) (.close _) h
      obtain ⟨hrest, hxy⟩ := lexemesAll_unique hx hy (List.cons.inj h).2
      exact ⟨by simp [eraseAll, erase, hbody, hrest], hxy⟩

/-- Parsing is the inverse of writing down: it succeeds exactly on balanced token lists, what it
returns is written with the lexemes of the tokens, and every tree is returned, up to its notes,
for all tokens with its lexemes. -/
theorem parse_inverts_lexemes (tokens : List Token) :
    ((∃ program, parse tokens = .ok program) ↔ Balanced (tokens.map Token.lexeme)) ∧
      (∀ program, parse tokens = .ok program → lexemesAll program = tokens.map Token.lexeme) ∧
      ∀ (α : Type) (tree : List (Statement α)), tokens.map Token.lexeme = lexemesAll tree →
        ∃ program, parse tokens = .ok program ∧ eraseAll program = eraseAll tree := by
  refine ⟨parse_isOk_iff tokens, fun program => lexemesAll_of_parse, fun α tree htree => ?_⟩
  -- Something is parsed, and it is written like the tree.
  have hbalanced := Statement.lexemesAll_balanced tree
  rw [← htree] at hbalanced
  obtain ⟨program, hprogram⟩ := (parse_isOk_iff tokens).2 hbalanced
  have hlexemes := lexemesAll_of_parse hprogram
  rw [htree, ← List.append_nil (lexemesAll program), ← List.append_nil (lexemesAll tree)]
    at hlexemes
  exact ⟨program, hprogram, (Statement.lexemesAll_unique (.inl rfl) (.inl rfl) hlexemes).1⟩

end TapeCompiler
