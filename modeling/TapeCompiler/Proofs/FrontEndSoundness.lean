import TapeCompiler.Proofs.CharacterMachine
import TapeCompiler.Proofs.Spelling

/-! # Texts do what their trees say

The interpreter of a tree that a text spells is simulated by the machine that runs the text
character by character.  A counted command is as many characters (`runs_counted`), and a step of the
interpreter passes over the commentary in front of a command as well.

The machine has no notion of a block: `Within` says which statements are pending behind the one that
it is in, from what is spelled on either side of it.

* `front_end_preserves_meaning`: lexing and parsing do not change how a program runs.
-/

namespace TapeCompiler.CharacterMachine

variable {α : Type} {size width : Nat}

/-! ## Characters -/

theorem step_commentary {c : Char} (hc : Commentary c) (behind ahead : List Char)
    (s : Store size width) :
    step ⟨behind, c :: ahead, s⟩ = .next ⟨c :: behind, ahead, s⟩ := by
  obtain ⟨hcounted, hbare⟩ := hc
  simp only [step]
  split
  case h_1 | h_2 | h_3 | h_4 => cases hcounted
  case h_5 | h_6 | h_7 | h_8 => cases hbare
  case h_9 => rfl

theorem step_counted (command : Counted) (behind ahead : List Char) (s : Store size width) :
    step ⟨behind, command.char :: ahead, s⟩ =
      match s.act command 1 with
      | some s' => .next ⟨command.char :: behind, ahead, s'⟩
      | none => .done (s.ending 1) := by
  cases command with
  | moveLeft => rfl
  | moveRight => rfl
  | increment => rfl
  | decrement => rfl

/-- A run of a command is the command done that often at once. -/
theorem runs_counted (command : Counted) (n : Nat) (behind ahead : List Char)
    (s : Store size width) :
    Stretch step (fun _ => True) ⟨behind, List.replicate (n + 1) command.char ++ ahead, s⟩
      (match s.act command (n + 1) with
      | some s' => .next ⟨List.replicate (n + 1) command.char ++ behind, ahead, s'⟩
      | none => .done (s.ending 1)) := by
  induction n generalizing behind s with
  | zero => exact .last trivial (step_counted command behind ahead s)
  | succ n ih =>
    -- The first character stops the machine, or a run that is one shorter is left.
    have hfirst := step_counted command behind (List.replicate (n + 1) command.char ++ ahead) s
    have hsum : n + 1 + 1 = 1 + (n + 1) := by omega
    have hact := s.act_add command 1 (n + 1)
    rw [← hsum] at hact
    rw [hact]
    cases hs : s.act command 1 with
    | none =>
      rw [hs] at hfirst
      exact .last trivial hfirst
    | some s' =>
      rw [hs] at hfirst
      have hbehind : List.replicate (n + 1) command.char ++ command.char :: behind =
          List.replicate (n + 1 + 1) command.char ++ behind := by
        rw [List.replicate_succ' (n := n + 1), List.append_assoc, List.singleton_append]
      have hrest := ih (command.char :: behind) s'
      rw [hbehind, Store.ending_act hs] at hrest
      exact .cons trivial hfirst hrest

theorem step_open (behind ahead : List Char) {s : Store size width} (hcell : s.cell ≠ 0) :
    step ⟨behind, '[' :: ahead, s⟩ = .next ⟨'[' :: behind, ahead, s⟩ := by
  simp only [step, if_neg hcell]

theorem step_open_zero (behind rest : List Char) {inner : List Char} {s : Store size width}
    (hcell : s.cell = 0) (hinner : Nested '[' ']' inner) :
    step ⟨behind, '[' :: (inner ++ ']' :: rest), s⟩ =
      .next ⟨']' :: (inner.reverse ++ '[' :: behind), rest, s⟩ := by
  simp only [step, if_pos hcell, seek_leave (by decide) hinner]

theorem step_close_zero (behind ahead : List Char) {s : Store size width} (hcell : s.cell = 0) :
    step ⟨behind, ']' :: ahead, s⟩ = .next ⟨']' :: behind, ahead, s⟩ := by
  simp only [step, if_pos hcell]

theorem step_close (behind ahead : List Char) {inner : List Char} {s : Store size width}
    (hcell : s.cell ≠ 0) (hinner : Nested '[' ']' inner) :
    step ⟨inner.reverse ++ '[' :: behind, ']' :: ahead, s⟩ =
      .next ⟨behind, '[' :: (inner ++ ']' :: ahead), s⟩ := by
  simp only [step, if_neg hcell, seek_leave (by decide) hinner.reverse, List.reverse_reverse]

theorem nested_replicate {enter leave c : Char} (henter : c ≠ enter) (hleave : c ≠ leave)
    (n : Nat) : Nested enter leave (List.replicate n c) := by
  induction n with
  | zero => exact .nil
  | succ n ih => exact .skip henter hleave ih

theorem nested_of_spells {text : List Char} {ss : List (Statement α)} (h : Spells text ss) :
    Nested '[' ']' text := by
  induction h with
  | nil => exact .nil
  | skip hc _ ih =>
    refine .skip ?_ ?_ ih
    · rintro rfl
      cases hc.2
    · rintro rfl
      cases hc.2
  | counted command note _ _ ih =>
    refine .append (nested_replicate ?_ ?_ _) ih
    · cases command <;> decide
    · cases command <;> decide
  | read note _ ih => exact .skip (by decide) (by decide) ih
  | write note _ ih => exact .skip (by decide) (by decide) ih
  | loop note _ _ ihInner ih => exact .loop ihInner ih

/-! ## The simulation -/

/-- A block is spelled by `text`.  Around it there are the characters `before` and `after`, the
nearest first, and behind it `pending` is to be done. -/
inductive Within : List Char → List (Statement α) → List Char → List Char → Prop where
  | outermost (text : List Char) : Within text [] [] []
  | loop (note : α) {passed inner rest before after : List Char}
      {body ss pending : List (Statement α)} :
      Within (passed ++ '[' :: (inner ++ ']' :: rest)) pending before after →
      Spells inner body → Spells rest ss →
      Within inner (.loop body note :: (ss ++ pending)) ('[' :: (passed.reverse ++ before))
        (']' :: (rest ++ after))

/-- Pending statements with a store, and a place in a text with the same store. -/
inductive Related : Interpreter.Config α size width → Config size width → Prop where
  | intro (passed : List Char) {rest before after : List Char} {ss pending : List (Statement α)}
      (s : Store size width) :
      Within (passed ++ rest) pending before after → Spells rest ss →
      Related ⟨ss ++ pending, s⟩ ⟨passed.reverse ++ before, rest ++ after, s⟩

theorem Related.past (front : List Char) {passed rest before after : List Char}
    {ss pending : List (Statement α)} (s : Store size width)
    (h : Within (passed ++ (front ++ rest)) pending before after) (hrest : Spells rest ss) :
    Related ⟨ss ++ pending, s⟩ ⟨front.reverse ++ (passed.reverse ++ before), rest ++ after, s⟩ := by
  rw [← List.append_assoc] at h
  have hrelated := Related.intro _ s h hrest
  rwa [List.reverse_append, List.append_assoc] at hrelated

/-- The end of a block: that of the text, or the closing bracket of a loop. -/
theorem simulate_end {passed before after : List Char} {pending : List (Statement α)}
    (s : Store size width) (h : Within passed pending before after) :
    ∃ r, Stretch step (fun _ => True) ⟨passed.reverse ++ before, after, s⟩ r ∧
      Progress.Agree Related (Interpreter.step ⟨pending, s⟩) r := by
  cases h with
  | outermost => exact ⟨_, .last trivial rfl, .done⟩
  | @loop note passed' _ rest before after body ss pending h hinner hrest =>
    have hnested := nested_of_spells hinner
    by_cases hcell : s.cell = 0
    · refine ⟨_, .last trivial (step_close_zero _ _ hcell), ?_⟩
      rw [Interpreter.step, if_pos hcell]
      have hpast := Related.past ('[' :: (passed ++ [']'])) s (by simpa using h) hrest
      exact .next (by simpa using hpast)
    · -- The jump back leads to the opening bracket, and from there into the body.
      refine ⟨_, .cons trivial (step_close _ _ hcell hnested)
        (.last trivial (step_open _ _ hcell)), ?_⟩
      rw [Interpreter.step, if_neg hcell]
      exact .next (.intro [] s (.loop note h hinner hrest) hinner)

theorem simulate_block (passed : List Char) {rest before after : List Char}
    {ss pending : List (Statement α)} (s : Store size width) (h : Within (passed ++ rest) pending before after)
    (hrest : Spells rest ss) :
    ∃ r, Stretch step (fun _ => True) ⟨passed.reverse ++ before, rest ++ after, s⟩ r ∧
      Progress.Agree Related (Interpreter.step ⟨ss ++ pending, s⟩) r := by
  -- On the spelling: commentary is passed over, up to a command or the end of the block.
  induction hrest generalizing passed with
  | nil => exact simulate_end s (by simpa using h)
  | @skip c rest ss hc _ ih =>
    obtain ⟨r, hstretch, hagree⟩ := ih (passed ++ [c]) (by simpa using h)
    rw [List.reverse_append, List.append_assoc] at hstretch
    exact ⟨r, .cons trivial (step_commentary hc _ _ s) hstretch, hagree⟩
  | @counted command note n rest ss hpos hrest _ =>
    obtain ⟨n, rfl⟩ := Nat.exists_eq_succ_of_ne_zero (Nat.ne_of_gt hpos)
    have hruns := runs_counted command n (passed.reverse ++ before) (rest ++ after) s
    refine ⟨_, by rw [List.append_assoc]; exact hruns, ?_⟩
    simp only [List.cons_append, Interpreter.step, Number.index?_ofNat]
    cases hs : s.act command (n + 1) with
    | none => exact .done
    | some s' =>
      have hpast := Related.past _ s' h hrest
      rw [List.reverse_replicate] at hpast
      exact .next hpast
  | read note hrest _ =>
    exact ⟨_, .last trivial rfl, .next (.past [','] s.read h hrest)⟩
  | write note hrest _ =>
    exact ⟨_, .last trivial rfl, .next (.past ['.'] s.write h hrest)⟩
  | @loop note inner rest body ss hinner hrest _ _ =>
    rw [List.cons_append, List.append_assoc, List.cons_append, List.cons_append]
    by_cases hcell : s.cell = 0
    · refine ⟨_, .last trivial (step_open_zero _ _ hcell (nested_of_spells hinner)), ?_⟩
      rw [Interpreter.step, if_pos hcell]
      have hpast := Related.past ('[' :: (inner ++ [']'])) s (by simpa using h) hrest
      exact .next (by simpa using hpast)
    · refine ⟨_, .last trivial (step_open _ _ hcell), ?_⟩
      rw [Interpreter.step, if_neg hcell]
      exact .next (.intro [] s (.loop note h hinner hrest) hinner)

theorem front_end_simulation :
    Simulation Interpreter.step step (fun _ => True)
      (Related : Interpreter.Config α size width → Config size width → Prop) := by
  intro config state related
  cases related with
  | intro passed s h hrest => exact simulate_block passed s h hrest

/-- Lexing and parsing do not change what a program does: the tree of a text ends with a status, an
output and a rest of the input exactly if the text does. -/
theorem front_end_preserves_meaning {file : String} {text : List Char}
    {program : List (Statement Span)} (h : parse (lex file text) = .ok program)
    {size : Nat} (nonempty : 0 < size) (width : Nat) (input : List Byte) (ending : Ending) :
    Ends Interpreter.step (Interpreter.start program nonempty input :
        Interpreter.Config Span size width) ending ↔
      Ends step (start text nonempty input : Config size width) ending := by
  have hrelated := Related.intro [] (.start nonempty input : Store size width)
    (.outermost text) (spells_of_parse h)
  simp only [List.append_nil, List.reverse_nil] at hrelated
  exact front_end_simulation.ends_iff hrelated

/-- Three byte cells.  The loop runs twice, and the last of the three moves leaves the tape. -/
theorem front_end_preserves_meaning_countdown :
    ∃ program, parse (lex "countdown" "++[>+ .<-]>>>".toList) = .ok program ∧ 0 < 3 ∧
      Ends Interpreter.step (Interpreter.start program (by decide) [] :
        Interpreter.Config Span 3 8) (.returned 1 [1, 2] []) := by
  have hlexemes : (lex "countdown" "++[>+ .<-]>>>".toList).map Token.lexeme =
      Statement.lexemesAll [.counted .increment (.ofNat 2) (),
        .loop [.counted .moveRight (.ofNat 1) (), .counted .increment (.ofNat 1) (), .write (),
          .counted .moveLeft (.ofNat 1) (), .counted .decrement (.ofNat 1) ()] (),
        .counted .moveRight (.ofNat 3) ()] := by
    decide
  obtain ⟨program, hprogram⟩ := (parse_isOk_iff _).2
    (by rw [hlexemes]; exact Statement.lexemesAll_balanced _)
  refine ⟨program, hprogram, by decide, ?_⟩
  exact (front_end_preserves_meaning hprogram (by decide) 8 [] _).2 ⟨_, ⟨20, rfl⟩, rfl⟩

end TapeCompiler.CharacterMachine
