import TapeCompiler.Parsing.Program
import TapeCompiler.Proofs.Grammar
import TapeCompiler.Proofs.Tiling

/-! # Which bracket a parse error names

A text can go wrong in two ways.  Some bracket closes a loop that was never opened, or all of them
close one and a loop is still open at the end.  The first is told by the shortest beginning that
holds more closing than opening brackets: it ends with the culprit.

* `FirstUnmatched`: the first way, for a list of tokens or of characters alike.
* `parse_error_cases`: the error of a token list, read off what stopped the outer block.
* `Tiles.count_take`: beginnings of a text hold as many brackets as beginnings of its tokens.
* `parse_error_names_culprit`: the error of a token list and the report on a text.
-/

namespace TapeCompiler

open Lexeme (bare)

/-! ## Brackets in a list -/

/-- The shortest beginning of the list that holds more `closing` than `opening` ends at place `i`. -/
structure FirstUnmatched {α : Type} [DecidableEq α] (opening closing : α) (xs : List α) (i : Nat) :
    Prop where
  excess : (xs.take (i + 1)).count opening < (xs.take (i + 1)).count closing
  shortest : ∀ n ≤ i, (xs.take n).count closing ≤ (xs.take n).count opening

namespace FirstUnmatched

variable {α : Type} [DecidableEq α] {opening closing : α} {xs ys : List α}

theorem not_neverExceeds {i : Nat} (h : FirstUnmatched opening closing xs i) :
    ¬NeverExceeds opening closing xs := fun hall => absurd (hall (i + 1)) (Nat.not_le.2 h.excess)

theorem unique {i j : Nat} (hi : FirstUnmatched opening closing xs i)
    (hj : FirstUnmatched opening closing xs j) : i = j := by
  have hle : ∀ {i j : Nat}, FirstUnmatched opening closing xs i →
      FirstUnmatched opening closing xs j → i ≤ j := by
    intro i j hi hj
    refine Nat.not_lt.1 fun hlt => ?_
    exact absurd (hi.shortest (j + 1) hlt) (Nat.not_le.2 hj.excess)
  exact Nat.le_antisymm (hle hi hj) (hle hj hi)

/-- A `closing` behind a list whose brackets match has nothing to close. -/
theorem of_append (hne : opening ≠ closing) (h : NeverExceeds opening closing xs)
    (htotal : xs.count closing = xs.count opening) :
    FirstUnmatched opening closing (xs ++ closing :: ys) xs.length := by
  constructor
  · rw [List.take_append, List.take_of_length_le (Nat.le_succ _), Nat.add_sub_cancel_left,
      List.take_succ_cons, List.take_zero, List.count_append, List.count_append, htotal,
      List.count_singleton_self, List.count_cons_of_ne hne.symm, List.count_nil]
    omega
  · intro n hn
    rw [List.take_append_of_le_length hn]
    exact h n

end FirstUnmatched

/-! ## Token lists -/

theorem Unclosed.neverExceeds {ls : List Lexeme} (h : Unclosed ls) :
    NeverExceeds (bare .loopOpen) (bare .loopClose) ls := by
  induction h with
  | last body =>
    exact .cons_opening (by decide) (Statement.lexemesAll_balanced body).beginnings
  | outer body _ ih =>
    exact .cons_opening (by decide)
      (.append (Statement.lexemesAll_balanced body).beginnings ih)

/-- The two errors of a token list: a close behind balanced tokens, or a loop that is still open. -/
theorem parse_error_cases {tokens : List Token} {error : ParseError}
    (h : parse tokens = .error error) :
    (∃ before t behind, tokens = before ++ t :: behind ∧ Balanced (before.map Token.lexeme) ∧
        t.lexeme = bare .loopClose ∧ error = .unexpectedToken t) ∨
      (NeverExceeds (bare .loopOpen) (bare .loopClose) (tokens.map Token.lexeme) ∧
        (tokens.map Token.lexeme).count (bare .loopClose) <
          (tokens.map Token.lexeme).count (bare .loopOpen) ∧
        error = .endOfInput) := by
  have hread := readBlock_spec tokens
  have hbalanced := Statement.lexemesAll_balanced (readBlock tokens).statements
  rw [hread.lexemes_eq] at hbalanced
  have hsplit := List.take_append_drop (readBlock tokens).used tokens
  rw [parse] at h
  split at h
  · rename_i hused
    cases h
    have hleft : tokens.drop (readBlock tokens).used ≠ [] := by
      rw [Ne, List.drop_eq_nil_iff]
      omega
    -- What stopped the outer block is at the head of the tokens that it left.
    have hstops := hread.stops
    generalize tokens.drop (readBlock tokens).used = left at hleft hstops hsplit
    generalize (readBlock tokens).stop.error = error at hstops
    cases hstops with
    | ended => exact absurd rfl hleft
    | close behind ht => exact .inl ⟨_, _, behind, hsplit.symm, hbalanced, ht, rfl⟩
    | unclosed hopen =>
      have htotal := hbalanced.total
      have hlt := hopen.count_lt
      rw [← hsplit, List.map_append]
      refine .inr ⟨.append hbalanced.beginnings hopen.neverExceeds, ?_, rfl⟩
      rw [List.count_append, List.count_append]
      omega
  · cases h

theorem firstUnmatched_of_close {before : List Token} {t : Token} (behind : List Token)
    (hbefore : Balanced (before.map Token.lexeme)) (ht : t.lexeme = bare .loopClose) :
    FirstUnmatched (bare .loopOpen) (bare .loopClose) ((before ++ t :: behind).map Token.lexeme)
      before.length := by
  rw [List.map_append, List.map_cons, ht, ← before.length_map Token.lexeme]
  exact .of_append (by decide) hbefore.beginnings hbefore.total

theorem parse_eq_error_iff (tokens : List Token) (error : ParseError) :
    parse tokens = .error error ↔
      (∃ i t, FirstUnmatched (bare .loopOpen) (bare .loopClose) (tokens.map Token.lexeme) i ∧
          tokens[i]? = some t ∧ error = .unexpectedToken t) ∨
        (NeverExceeds (bare .loopOpen) (bare .loopClose) (tokens.map Token.lexeme) ∧
          (tokens.map Token.lexeme).count (bare .loopClose) <
            (tokens.map Token.lexeme).count (bare .loopOpen) ∧
          error = .endOfInput) := by
  constructor
  · intro h
    rcases parse_error_cases h with ⟨before, t, behind, rfl, hbefore, ht, rfl⟩ | hopen
    · exact .inl ⟨before.length, t, firstUnmatched_of_close behind hbefore ht, by simp, rfl⟩
    · exact .inr hopen
  · intro h
    cases hparse : parse tokens with
    | ok program =>
      -- The brackets of what is accepted match, so neither of the two can be the case.
      have hbalanced := (parse_isOk_iff tokens).1 ⟨program, hparse⟩
      rcases h with ⟨i, t, hi, _⟩ | ⟨_, hlt, _⟩
      · exact absurd hbalanced.beginnings hi.not_neverExceeds
      · exact absurd hbalanced.total (Nat.ne_of_lt hlt)
    | error other =>
      rcases parse_error_cases hparse with ⟨before, s, behind, rfl, hbefore, hs, rfl⟩ | ⟨hnever, _, rfl⟩
      · have hfirst := firstUnmatched_of_close behind hbefore hs
        rcases h with ⟨i, t, hi, ht, rfl⟩ | ⟨hnever, _⟩
        · rw [hi.unique hfirst, List.getElem?_append_right (Nat.le_refl _), Nat.sub_self] at ht
          cases ht
          rfl
        · exact absurd hnever hfirst.not_neverExceeds
      · rcases h with ⟨i, t, hi, _⟩ | ⟨_, _, rfl⟩
        · exact absurd hnever hi.not_neverExceeds
        · rfl

/-! ## Texts -/

theorem Bare.char_injective {a b : Bare} (h : a.char = b.char) : a = b := by
  cases a <;> cases b <;> first | rfl | exact absurd h (by decide)

theorem Counted.char_ne (a : Counted) (b : Bare) : a.char ≠ b.char := by
  cases a <;> cases b <;> decide

/-- A bracket is in the characters of a lexeme as often as in the lexeme. -/
theorem Written.count_take {l : Lexeme} {front : List Char} (h : Written l front)
    {n : Nat} (hn : 0 < n) (command : Bare) :
    (front.take n).count command.char = [l].count (.bare command) := by
  obtain ⟨n, rfl⟩ := Nat.exists_eq_succ_of_ne_zero (Nat.ne_of_gt hn)
  cases h with
  | bare other =>
    by_cases hother : other = command
    · subst hother
      simp
    · have hchar : other.char ≠ command.char := fun heq => hother (Bare.char_injective heq)
      simp [hother, hchar]
  | counted other _ =>
    have hchar := Counted.char_ne other command
    simp [List.take_replicate, List.count_replicate, hchar]

namespace Tiles

variable {file : String} {p : Cursor} {text : List Char} {ts : List Token}

/-- Every beginning of a text holds the same brackets as some beginning of its tokens. -/
theorem count_take (h : Tiles file p text ts) (n : Nat) :
    ∃ m, (text.length ≤ n → ts.length ≤ m) ∧ ∀ command : Bare,
      (text.take n).count command.char = ((ts.map Token.lexeme).take m).count (.bare command) := by
  induction h generalizing n with
  | nil p => exact ⟨0, fun _ => Nat.le_refl 0, fun command => by simp⟩
  | @skip p c text ts hc _ ih =>
    cases n with
    | zero => exact ⟨0, by simp, fun command => rfl⟩
    | succ n =>
      obtain ⟨m, hall, hcount⟩ := ih n
      refine ⟨m, fun hn => hall (Nat.le_of_succ_le_succ hn), fun command => ?_⟩
      have hne : c ≠ command.char := fun heq => hc.not_mem (heq ▸ command.char_mem)
      rw [List.take_succ_cons, List.count_cons_of_ne hne, hcount]
  | @next p l front text ts hfront _ _ ih =>
    have hlength := hfront.length_pos
    cases n with
    | zero =>
      refine ⟨0, fun hn => ?_, fun command => rfl⟩
      rw [List.length_append] at hn
      omega
    | succ n =>
      obtain ⟨m, hall, hcount⟩ := ih (n + 1 - front.length)
      refine ⟨m + 1, fun hn => ?_, fun command => ?_⟩
      · rw [List.length_append] at hn
        exact Nat.succ_le_succ (hall (by omega))
      · rw [List.take_append, List.count_append, hcount, hfront.count_take (Nat.succ_pos n),
          ← List.count_append]
        rfl

theorem count_eq (h : Tiles file p text ts) (command : Bare) :
    text.count command.char = (ts.map Token.lexeme).count (.bare command) := by
  obtain ⟨m, hall, hcount⟩ := h.count_take text.length
  have hcommand := hcount command
  rwa [List.take_length, List.take_of_length_le (by rw [List.length_map]; exact hall (Nat.le_refl _))]
    at hcommand

theorem neverExceeds (h : Tiles file p text ts)
    (hts : NeverExceeds (bare .loopOpen) (bare .loopClose) (ts.map Token.lexeme)) :
    NeverExceeds '[' ']' text := by
  intro n
  obtain ⟨m, _, hcount⟩ := h.count_take n
  have hclose := hcount .loopClose
  have hopen := hcount .loopOpen
  simp only [Bare.char] at hclose hopen
  rw [hclose, hopen]
  exact hts m

/-- A closing bracket behind a text with balanced tokens has no opening one there. -/
theorem firstUnmatched (h : Tiles file p text ts) (hts : Balanced (ts.map Token.lexeme))
    (rest : List Char) : FirstUnmatched '[' ']' (text ++ ']' :: rest) text.length := by
  have htotal : text.count ']' = text.count '[' :=
    (h.count_eq .loopClose).trans (hts.total.trans (h.count_eq .loopOpen).symm)
  exact .of_append (by decide) (h.neverExceeds hts.beginnings) htotal

end Tiles

/-! ## Reports -/

/-- A report on the place that has `before` before it. -/
def reportBehind (id message file : String) (before : List Char) : Diagnostic :=
  ⟨id, .error, message, file, some (.ofNat (Text.line (Text.units before))),
    some (.ofNat (Text.column (Text.units before)))⟩

theorem ParseError.diagnostic_eq {e : ParseError} {text before : List Char}
    (h : e.position text = (Cursor.endOf before).position) (file : String) :
    e.diagnostic file text = reportBehind e.code.id e.message file before := by
  simp only [diagnostic, h, Cursor.endOf_eq, Cursor.position, Diagnostic.error, reportBehind]

/-- The first close without an open among the tokens is the first one in the text. -/
theorem exists_firstUnmatched {file : String} {text : List Char} {before behind : List Token}
    {t : Token} (hlex : lex file text = before ++ t :: behind)
    (hbefore : Balanced (before.map Token.lexeme)) (ht : t.lexeme = bare .loopClose) :
    ∃ i, FirstUnmatched '[' ']' text i ∧
      t.span.start = (Cursor.endOf (text.take i)).position := by
  have htiles := tiles_lex file text
  rw [hlex] at htiles
  obtain ⟨front, written, rest, rfl, hfront, hwritten, hspan⟩ := htiles.split
  rw [ht] at hwritten
  cases hwritten
  refine ⟨front.length, hfront.firstUnmatched hbefore rest, ?_⟩
  rw [List.take_left, hspan]
  rfl

/-- What parsing a text comes to, told by its brackets. -/
theorem parseProgram_cases (file : String) (text : List Char) :
    ((∃ program, (parseProgram file text).program = .ok program) ∧
        NeverExceeds '[' ']' text ∧ text.count ']' = text.count '[') ∨
      (∃ i, FirstUnmatched '[' ']' text i ∧ (parseProgram file text).program =
        .error (reportBehind "BFQ100" "Unexpected token LoopClose: \"]\" has no matching \"[\"" file
          (text.take i))) ∨
      (NeverExceeds '[' ']' text ∧ text.count ']' < text.count '[' ∧
        (parseProgram file text).program =
          .error (reportBehind "BFQ101"
            "Unexpected end of input: a loop opened with \"[\" is never closed" file text)) := by
  have htiles := tiles_lex file text
  have hopens : text.count '[' = _ := htiles.count_eq .loopOpen
  have hcloses : text.count ']' = _ := htiles.count_eq .loopClose
  simp only [parseProgram]
  cases hparse : parse (lex file text) with
  | ok program =>
    have hbalanced := (parse_isOk_iff _).1 ⟨program, hparse⟩
    refine .inl ⟨⟨program, rfl⟩, htiles.neverExceeds hbalanced.beginnings, ?_⟩
    rw [hcloses, hopens, hbalanced.total]
  | error error =>
    rcases parse_error_cases hparse with ⟨before, t, behind, hlex, hbefore, ht, rfl⟩ | ⟨hnever, hlt, rfl⟩
    · obtain ⟨i, hi, hstart⟩ := exists_firstUnmatched hlex hbefore ht
      refine .inr (.inl ⟨i, hi, ?_⟩)
      have hplace : (ParseError.unexpectedToken t).position text =
          (Cursor.endOf (text.take i)).position := hstart
      have hmessage : (ParseError.unexpectedToken t).message =
          "Unexpected token LoopClose: \"]\" has no matching \"[\"" := by
        simp only [ParseError.message, ht, Token.describe]
        rfl
      rw [Except.mapError, ParseError.diagnostic_eq hplace file, hmessage]
      rfl
    · refine .inr (.inr ⟨htiles.neverExceeds hnever, by rwa [hcloses, hopens], ?_⟩)
      rw [Except.mapError, ParseError.diagnostic_eq rfl file]
      rfl

theorem parseProgram_isOk_iff (file : String) (text : List Char) :
    (∃ program, (parseProgram file text).program = .ok program) ↔
      NeverExceeds '[' ']' text ∧ text.count ']' = text.count '[' := by
  rcases parseProgram_cases file text with ⟨hok, hbrackets⟩ | ⟨i, hi, herror⟩ | ⟨_, hlt, herror⟩
  · exact ⟨fun _ => hbrackets, fun _ => hok⟩
  · rw [herror]
    exact ⟨fun ⟨_, h⟩ => (by cases h), fun h => absurd h.1 hi.not_neverExceeds⟩
  · rw [herror]
    exact ⟨fun ⟨_, h⟩ => (by cases h), fun h => absurd h.2 (Nat.ne_of_lt hlt)⟩

theorem parseProgram_eq_error_iff (file : String) (text : List Char) (report : Diagnostic) :
    (parseProgram file text).program = .error report ↔
      (∃ i, FirstUnmatched '[' ']' text i ∧ report =
          reportBehind "BFQ100" "Unexpected token LoopClose: \"]\" has no matching \"[\"" file
            (text.take i)) ∨
        (NeverExceeds '[' ']' text ∧ text.count ']' < text.count '[' ∧ report =
          reportBehind "BFQ101"
            "Unexpected end of input: a loop opened with \"[\" is never closed" file text) := by
  constructor
  · intro h
    rcases parseProgram_cases file text with ⟨⟨_, hok⟩, _⟩ | ⟨i, hi, herror⟩ | ⟨hnever, hlt, herror⟩
    · rw [hok] at h
      cases h
    · rw [herror] at h
      cases h
      exact .inl ⟨i, hi, rfl⟩
    · rw [herror] at h
      cases h
      exact .inr ⟨hnever, hlt, rfl⟩
  · -- No two of the three outcomes can be told by the same brackets.
    intro h
    rcases parseProgram_cases file text with ⟨_, hnever, htotal⟩ | ⟨i, hi, herror⟩ | ⟨hnever, _, herror⟩
    · rcases h with ⟨i, hi, _⟩ | ⟨_, hlt, _⟩
      · exact absurd hnever hi.not_neverExceeds
      · exact absurd htotal (Nat.ne_of_lt hlt)
    · rcases h with ⟨j, hj, rfl⟩ | ⟨hnever, _⟩
      · rw [herror, hi.unique hj]
      · exact absurd hnever hi.not_neverExceeds
    · rcases h with ⟨j, hj, _⟩ | ⟨_, _, rfl⟩
      · exact absurd hnever hj.not_neverExceeds
      · exact herror

/-- A token list is refused with the first close that has no open, or else, when a loop is never
closed, with the end of the input.  On a text there is then one report: it is at the first closing
bracket without an opening one, or else behind the last character.  A text is accepted exactly if
its brackets match. -/
theorem parse_error_names_culprit :
    (∀ (tokens : List Token) (error : ParseError),
        parse tokens = .error error ↔
          (∃ i t, FirstUnmatched (bare .loopOpen) (bare .loopClose) (tokens.map Token.lexeme) i ∧
              tokens[i]? = some t ∧ error = .unexpectedToken t) ∨
            (NeverExceeds (bare .loopOpen) (bare .loopClose) (tokens.map Token.lexeme) ∧
              (tokens.map Token.lexeme).count (bare .loopClose) <
                (tokens.map Token.lexeme).count (bare .loopOpen) ∧
              error = .endOfInput)) ∧
      ∀ (file : String) (text : List Char),
        (∀ report, (parseProgram file text).program = .error report ↔
          (∃ i, FirstUnmatched '[' ']' text i ∧ report =
              reportBehind "BFQ100" "Unexpected token LoopClose: \"]\" has no matching \"[\"" file
                (text.take i)) ∨
            (NeverExceeds '[' ']' text ∧ text.count ']' < text.count '[' ∧ report =
              reportBehind "BFQ101"
                "Unexpected end of input: a loop opened with \"[\" is never closed" file text)) ∧
        ((∃ program, (parseProgram file text).program = .ok program) ↔
          NeverExceeds '[' ']' text ∧ text.count ']' = text.count '[') := by
  refine ⟨parse_eq_error_iff, fun file text => ⟨fun report => ?_, ?_⟩⟩
  · exact parseProgram_eq_error_iff file text report
  · exact parseProgram_isOk_iff file text

/-- The second closing bracket has no opening one.  It stands on the second line behind a blank. -/
example : FirstUnmatched '[' ']' "[-]\n ]+".toList 5 ∧
    Text.line (Text.units ("[-]\n ]+".toList.take 5)) = 2 ∧
    Text.column (Text.units ("[-]\n ]+".toList.take 5)) = 2 :=
  ⟨⟨by decide, by decide⟩, by decide, by decide⟩

end TapeCompiler
