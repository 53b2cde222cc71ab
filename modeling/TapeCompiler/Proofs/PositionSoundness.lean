import TapeCompiler.Proofs.Tiling

/-! # Positions are what counting gives

A position can be told from the text and its offset alone: count the line feeds before it, and the
code units behind the last of them (`Position.counted`).  Nothing that makes positions does so.
Lexing carries a cursor from character to character, and `Position.advance` walks on from a position
unit by unit.

* `Position.walk_counted`: a walk that starts at a counted position ends at one.
* `Span.ofText`: the span of a stretch of a text.
* `positions_are_counted`: the positions of tokens, of the end of a text and of walks.

Walks count in rounded numbers, so they are right for texts of fewer than `2 ^ 53` units.
-/

namespace TapeCompiler

namespace Text

theorem line_concat (before : List Char) (c : Char) :
    line (before ++ [c]) = if c = '\n' then line before + 1 else line before := by
  by_cases hc : c = '\n'
  · simp [line, hc, Nat.add_assoc]
  · simp [line, hc]

theorem column_concat (before : List Char) (c : Char) :
    column (before ++ [c]) = if c = '\n' then 1 else column before + 1 := by
  by_cases hc : c = '\n'
  · simp [column, hc]
  · simp [column, hc, Nat.add_assoc]

theorem line_le (before : List Char) : line before ≤ before.length + 1 := by
  have hcount := List.count_le_length (a := '\n') (l := before)
  rw [line]
  omega

theorem column_le (before : List Char) : column before ≤ before.length + 1 := by
  have hlength := (List.takeWhile_prefix (· ≠ '\n') (l := before.reverse)).length_le
  rw [List.length_reverse] at hlength
  rw [column]
  omega

end Text

/-! ## Walks -/

theorem Number.next_ofNat {n : Nat} (h : n < safeLimit) : (ofNat n).next = ofNat (n + 1) := by
  have habs : ((n : Int)).natAbs < safeLimit := h
  simp only [ofNat, next, if_pos habs]
  rfl

namespace Position

variable {text : List Char} {j k : Nat}

/-- The position with the offset `k`, counted from the start of the text. -/
def counted (text : List Char) (k : Nat) : Position :=
  let before := (Text.units text).take k
  ⟨.ofNat (Text.line before), .ofNat (Text.column before), .ofNat k⟩

theorem endOf_eq_counted (before rest : List Char) :
    (Cursor.endOf before).position = counted (before ++ rest) (Text.units before).length := by
  simp only [counted, Cursor.endOf_eq, Cursor.position, Text.units_append, List.take_left]

theorem stepUnit_counted (hk : k < (Text.units text).length) (hsafe : k + 1 < Number.safeLimit) :
    (counted text k).stepUnit (Text.units text)[k]? = counted text (k + 1) := by
  have hlength : ((Text.units text).take k).length ≤ k := List.length_take_le _ _
  have hline := Text.line_le ((Text.units text).take k)
  have hcolumn := Text.column_le ((Text.units text).take k)
  have htake : (Text.units text).take (k + 1) =
      (Text.units text).take k ++ [(Text.units text)[k]] := List.take_succ_eq_append_getElem hk
  simp only [counted, stepUnit, htake, Text.line_concat, Text.column_concat,
    List.getElem?_eq_getElem hk, Option.some.injEq]
  -- No coordinate is ever greater than the number of units walked, so none is rounded.
  rw [Number.next_ofNat (by omega), Number.next_ofNat (by omega), Number.next_ofNat (by omega)]
  split <;> rfl

theorem walk_counted (hjk : j ≤ k) (hk : k ≤ (Text.units text).length)
    (hsafe : k < Number.safeLimit) {steps : Nat} (hsteps : k ≤ j + steps) :
    walk (Text.units text).toArray (.ofNat k) steps (counted text j) = counted text k := by
  induction steps generalizing j with
  | zero =>
    have hend : j = k := by omega
    rw [hend]
    rfl
  | succ steps ih =>
    have horder : (Number.ofNat j).order (.ofNat k) = compare (j : Int) k := by
      simp [Number.ofNat, Number.order, Number.numerator, Number.denominator]
    have hoffset : (counted text j).offset = .ofNat j := rfl
    rw [walk, hoffset, horder]
    by_cases hlt : j < k
    · have hstep : (counted text j).stepUnit (Text.units text)[j]? = counted text (j + 1) :=
        stepUnit_counted (by omega) (by omega)
      have hunit : (Number.ofNat j).index?.bind ((Text.units text).toArray[·]?) =
          (Text.units text)[j]? := by
        simp
      rw [if_pos (Int.compare_eq_lt.2 (by omega)), hunit, hstep]
      exact ih hlt (by omega)
    · have hend : j = k := by omega
      rw [if_neg (by rw [Int.compare_eq_lt]; omega), hend]

theorem advance_counted (hjk : j ≤ k) (hk : k ≤ (Text.units text).length)
    (hsafe : k < Number.safeLimit) :
    advance text (counted text j) (.ofNat k) = counted text k := by
  have hsteps : k ≤ j + enoughSteps (counted text j).offset (.ofNat k) := by
    simp only [enoughSteps, counted, Number.ofNat, Number.numerator, Number.denominator]
    omega
  rw [advance, walk_counted hjk hk hsafe hsteps]
  rfl

end Position

/-! ## Tokens -/

/-- The span of `own` in the text that has `before` before it and `after` behind it. -/
def Span.ofText (file : String) (before own after : List Char) : Span :=
  let text := before ++ (own ++ after)
  ⟨file, .counted text (Text.units before).length, .counted text (Text.units (before ++ own)).length⟩

theorem Span.between_eq_ofText (file : String) (before own after : List Char) :
    between file (.endOf before) (.endOf (before ++ own)) = ofText file before own after := by
  have hstop := Position.endOf_eq_counted (before ++ own) after
  rw [List.append_assoc] at hstop
  rw [between, ofText, Position.endOf_eq_counted before (own ++ after), hstop]

/-- A token lies between two counted positions. -/
theorem Tiles.span_counted {file : String} {text : List Char} {t : Token} {ts us : List Token}
    (h : Tiles file .start text (ts ++ t :: us)) :
    ∃ j k, j < k ∧ k ≤ (Text.units text).length ∧
      t.span = ⟨file, .counted text j, .counted text k⟩ := by
  obtain ⟨before, front, rest, rfl, _, hfront, hspan⟩ := h.split
  have hpos := hfront.length_pos
  rw [← Cursor.past_append] at hspan
  refine ⟨(Text.units before).length, (Text.units (before ++ front)).length, ?_, ?_, ?_⟩
  · rw [Text.units_append, List.length_append, hfront.units_eq]
    omega
  · rw [← List.append_assoc, Text.units_append (before ++ front), List.length_append]
    omega
  · exact hspan.trans (Span.between_eq_ofText file before front rest)

/-- Every position is what counting from the start of the text gives: where a token begins, where it
ends, where the text ends, and where a walk from such a position to a later offset leads. -/
theorem positions_are_counted (file : String) (text : List Char) :
    (∀ t ∈ lex file text, ∃ j k, j < k ∧ k ≤ (Text.units text).length ∧
        t.span = ⟨file, .counted text j, .counted text k⟩) ∧
      Span.endOf file text = ⟨file, .counted text (Text.units text).length,
        .counted text (Text.units text).length⟩ ∧
      ∀ j k, j ≤ k → k ≤ (Text.units text).length → k < Number.safeLimit →
        Position.advance text (.counted text j) (.ofNat k) = .counted text k := by
  refine ⟨fun t ht => ?_, ?_, fun j k => Position.advance_counted⟩
  · obtain ⟨ts, us, hsplit⟩ := List.append_of_mem ht
    have htiles := tiles_lex file text
    rw [hsplit] at htiles
    exact htiles.span_counted
  · have hend := Position.endOf_eq_counted text []
    rw [List.append_nil] at hend
    rw [Span.endOf, Span.between, hend]

/-- A character of two code units and a line feed come before the second token. -/
example : Position.counted ['+', '😀', '\n', ' ', '['] 5 = ⟨.integer 2, .integer 2, .integer 5⟩ := by
  decide

end TapeCompiler
