import TapeCompiler.Parsing.Basic

/-! # Alternatives of alternatives

An alternative may itself be a choice between alternatives, to any depth.  It makes no difference how
they are grouped, as trying one result after another is associative.  An empty group does make a
difference, since it fails as if the input had ended.

* `ParseResult.orElse`: the first of two results, unless it lets another alternative be tried.
* `Parser.alt_eq_foldl`: `alt` tries the results of its parsers in turn.
* `ChoiceTree`: choices between choices, with parsers at the leaves.
* `alternatives_flatten`: a tree of choices is one choice between its leaves.
-/

namespace TapeCompiler

variable {α : Type}

/-! ## One result after another -/

namespace ParseResult

/-- After a success or a fatal failure no alternative is tried. -/
def decides : ParseResult α → Bool
  | .success _ _ => true
  | .failure reason => reason.fatal

/-- The first result if it decides, and else the second. -/
def orElse (x y : ParseResult α) : ParseResult α := if x.decides then x else y

theorem orElse_of_not_decides {x : ParseResult α} (h : x.decides = false) (y : ParseResult α) :
    x.orElse y = y := by
  simp [orElse, h]

theorem orElse_assoc (x y z : ParseResult α) : (x.orElse y).orElse z = x.orElse (y.orElse z) := by
  cases hx : x.decides <;> simp [orElse, hx]

instance : Std.Associative (α := ParseResult α) orElse := ⟨orElse_assoc⟩

/-- The result of trying alternatives with these results: the first that decides, or else the last.
Without any, the input counts as ended. -/
def firstDecision (results : List (ParseResult α)) : ParseResult α :=
  match results.find? decides with
  | some result => result
  | none => results.getLast?.getD (.failure (.recoverable .endOfInput))

theorem foldl_orElse_of_decides {x : ParseResult α} (h : x.decides) (results : List (ParseResult α)) :
    results.foldl orElse x = x := by
  induction results with
  | nil => rfl
  | cons y rest ih => rw [List.foldl_cons, orElse, if_pos h, ih]

theorem foldl_orElse_eq {x : ParseResult α} (h : x.decides = false)
    (results : List (ParseResult α)) :
    results.foldl orElse x = (results.find? decides).getD (results.getLast?.getD x) := by
  induction results generalizing x with
  | nil => rfl
  | cons y rest ih =>
    rw [List.foldl_cons, orElse_of_not_decides h]
    -- `y` is the result, or it takes the place of `x` as the last failure.
    cases hy : y.decides with
    | true => rw [foldl_orElse_of_decides hy, List.find?_cons_of_pos hy, Option.getD_some]
    | false => rw [ih hy, List.find?_cons_of_neg (by simp [hy]), List.getLast?_cons, Option.getD_some]

end ParseResult

open ParseResult (orElse firstDecision)

namespace Parser

/-- What parsers return at one position. -/
def results (tokens : List Token) (pos : Number) (ps : List (Parser α)) : List (ParseResult α) :=
  ps.map fun p => p tokens pos

theorem altAfter_cons (last : ParseFailure) (p : Parser α) (rest : List (Parser α))
    (tokens : List Token) (pos : Number) :
    altAfter last (p :: rest) tokens pos =
      match p tokens pos with
      | .success value next => .success value next
      | .failure reason =>
        if reason.fatal then .failure reason else altAfter reason rest tokens pos := rfl

theorem altAfter_eq_foldl {last : ParseFailure} (h : last.fatal = false) (ps : List (Parser α))
    (tokens : List Token) (pos : Number) :
    altAfter last ps tokens pos = (results tokens pos ps).foldl orElse (.failure last) := by
  induction ps generalizing last with
  | nil => rfl
  | cons p rest ih =>
    have hlast : (ParseResult.failure last : ParseResult α).decides = false := h
    rw [altAfter_cons, results, List.map_cons, List.foldl_cons, ParseResult.orElse_of_not_decides hlast,
      ← results]
    cases p tokens pos with
    | success value next => rw [ParseResult.foldl_orElse_of_decides rfl]
    | failure reason =>
      by_cases hfatal : reason.fatal
      · have hreason : (ParseResult.failure reason : ParseResult α).decides := hfatal
        simp only [if_pos hfatal, ParseResult.foldl_orElse_of_decides hreason]
      · rw [← ih (Bool.eq_false_iff.2 hfatal)]
        simp only [if_neg hfatal]

theorem alt_eq_foldl (ps : List (Parser α)) (tokens : List Token) (pos : Number) :
    alt ps tokens pos =
      (results tokens pos ps).foldl orElse (.failure (.recoverable .endOfInput)) :=
  altAfter_eq_foldl rfl ps tokens pos

theorem alt_eq_firstDecision (ps : List (Parser α)) (tokens : List Token) (pos : Number) :
    alt ps tokens pos = firstDecision (results tokens pos ps) := by
  rw [alt_eq_foldl, ParseResult.foldl_orElse_eq rfl, firstDecision]
  cases (results tokens pos ps).find? ParseResult.decides <;> rfl

end Parser

/-! ## Trees of choices -/

/-- A choice between choices, to any depth, with parsers at the leaves. -/
inductive ChoiceTree (α : Type) where
  | leaf (p : Parser α)
  | alt (choices : List (ChoiceTree α))

namespace ChoiceTree

mutual

/-- The parser of a tree: each choice is one between the parsers of its subtrees. -/
def parser : ChoiceTree α → Parser α
  | .leaf p => p
  | .alt choices => Parser.alt (parsers choices)

def parsers : List (ChoiceTree α) → List (Parser α)
  | [] => []
  | tree :: rest => tree.parser :: parsers rest

end

mutual

/-- The parsers at the leaves, from left to right. -/
def leaves : ChoiceTree α → List (Parser α)
  | .leaf p => [p]
  | .alt choices => leavesAll choices

def leavesAll : List (ChoiceTree α) → List (Parser α)
  | [] => []
  | tree :: rest => tree.leaves ++ leavesAll rest

end

mutual

/-- Whether every choice in a tree has an alternative. -/
def filled : ChoiceTree α → Bool
  | .leaf _ => true
  | .alt choices => !choices.isEmpty && filledAll choices

def filledAll : List (ChoiceTree α) → Bool
  | [] => true
  | tree :: rest => tree.filled && filledAll rest

end

/-- Whether every choice inside a tree has an alternative.  The outermost one may be empty. -/
def filledInside : ChoiceTree α → Bool
  | .leaf _ => true
  | .alt choices => filledAll choices

variable (tokens : List Token) (pos : Number)

mutual

/-- Trying a tree after some result is trying all of its leaves after it. -/
theorem orElse_tree (x : ParseResult α) :
    ∀ tree : ChoiceTree α, tree.filled →
      x.orElse (tree.parser tokens pos) = (Parser.results tokens pos tree.leaves).foldl orElse x
  | .leaf p, _ => rfl
  | .alt [], h => by cases h
  | .alt (first :: rest), h => by
    rw [leaves, ← foldl_parsers x (first :: rest) h, parser, Parser.alt_eq_foldl]
    -- The first alternative takes the place of the failure that the choice begins with.
    have hended : (ParseResult.failure (.recoverable .endOfInput) : ParseResult α).decides = false :=
      rfl
    simp only [parsers, Parser.results, List.map_cons, List.foldl_cons,
      ParseResult.orElse_of_not_decides hended, List.foldl_assoc]

theorem foldl_parsers (x : ParseResult α) :
    ∀ trees : List (ChoiceTree α), filledAll trees →
      (Parser.results tokens pos (parsers trees)).foldl orElse x =
        (Parser.results tokens pos (leavesAll trees)).foldl orElse x
  | [], _ => rfl
  | tree :: rest, h => by
    rw [filledAll, Bool.and_eq_true] at h
    have htree := orElse_tree x tree h.1
    have hrest := foldl_parsers (x.orElse (tree.parser tokens pos)) rest h.2
    rw [Parser.results] at hrest htree
    rw [parsers, leavesAll, Parser.results, Parser.results, List.map_cons, List.foldl_cons, hrest,
      List.map_append, List.foldl_append, htree, Parser.results]

end

end ChoiceTree

/-- Choices between choices are one choice between the parsers at the leaves, from left to right, as
long as none of the inner ones is empty.  The first success or fatal failure among the results of the
leaves is the result, and if there is none, the failure of the last leaf. -/
theorem alternatives_flatten {tree : ChoiceTree α} (h : tree.filledInside) (tokens : List Token)
    (pos : Number) :
    tree.parser tokens pos = Parser.alt tree.leaves tokens pos ∧
      tree.parser tokens pos = firstDecision (Parser.results tokens pos tree.leaves) := by
  have hflat : tree.parser tokens pos = Parser.alt tree.leaves tokens pos := by
    rw [Parser.alt_eq_foldl]
    cases tree with
    | leaf p => rfl
    | alt choices =>
      rw [ChoiceTree.parser, Parser.alt_eq_foldl]
      exact ChoiceTree.foldl_parsers tokens pos _ choices h
  exact ⟨hflat, by rw [hflat, Parser.alt_eq_firstDecision]⟩

/-- Two recoverable failures, a fatal one two levels down, and an alternative that is not tried any
more. -/
theorem alternatives_flatten_fatal :
    ∃ (tree : ChoiceTree Token) (tokens : List Token),
      tree = .alt [.leaf Parser.reject,
        .alt [.alt [.leaf (Parser.expect (.bare .loopClose)), .leaf Parser.abort]],
        .leaf (Parser.expect (.bare .read))] ∧
      tokens.map Token.lexeme = [.bare .read] ∧ tree.filledInside ∧
      tree.parser tokens (.ofNat 0) = Parser.alt tree.leaves tokens (.ofNat 0) ∧
      tree.parser tokens (.ofNat 0) = .failure ⟨true, .endOfInput⟩ := by
  refine ⟨_, [⟨.bare .read, "a", ⟨.ofNat 1, .ofNat 1, .ofNat 0⟩, ⟨.ofNat 1, .ofNat 2, .ofNat 1⟩⟩],
    rfl, rfl, rfl, ?_⟩
  exact ⟨(alternatives_flatten rfl _ _).1, rfl⟩

end TapeCompiler
