import TapeCompiler.Proofs.Interpreter

/-! # Running a text character by character

A second meaning of programs, on their text: every character is a command or does nothing, and the
brackets are jumps.  Nothing is lexed, counted or nested here.

* `step`: runs the next character.
* `seek`: finds the bracket that matches, in either direction.  A jump back leads to the opening
  bracket, which then lets the machine in again.
* `seek_nested`: text in which brackets match is passed over, whatever is looked for.
-/

namespace TapeCompiler.CharacterMachine

variable {size width : Nat}

/-- The characters on either side of the machine, the nearest first, and the store. -/
structure Config (size width : Nat) where
  behind : List Char
  ahead : List Char
  store : Store size width

/-- Passes over characters up to the `leave` that matches, and over that too.  There are `depth`
other brackets to be matched before it. -/
def seek (enter leave : Char) : Nat → List Char → List Char → Option (List Char × List Char)
  | _, _, [] => none
  | depth, passed, c :: rest =>
    if c = leave then
      match depth with
      | 0 => some (c :: passed, rest)
      | depth + 1 => seek enter leave depth (c :: passed) rest
    else if c = enter then seek enter leave (depth + 1) (c :: passed) rest
    else seek enter leave depth (c :: passed) rest

/-- Runs the next character.  The run ends with status 0 behind the last character, and with status
1 when the pointer leaves the tape. -/
def step : Config size width → Progress (Config size width) Ending
  | ⟨_, [], s⟩ => .done (s.ending 0)
  | ⟨behind, c :: ahead, s⟩ =>
    match c with
    | '<' =>
      match s.shift (-1) with
      | some s' => .next ⟨c :: behind, ahead, s'⟩
      | none => .done (s.ending 1)
    | '>' =>
      match s.shift 1 with
      | some s' => .next ⟨c :: behind, ahead, s'⟩
      | none => .done (s.ending 1)
    | '+' => .next ⟨c :: behind, ahead, s.change 1⟩
    | '-' => .next ⟨c :: behind, ahead, s.change (-1)⟩
    | ',' => .next ⟨c :: behind, ahead, s.read⟩
    | '.' => .next ⟨c :: behind, ahead, s.write⟩
    | '[' =>
      if s.cell = 0 then
        match seek '[' ']' 0 (c :: behind) ahead with
        | some (behind, ahead) => .next ⟨behind, ahead, s⟩
        | none => .done .fault
      else .next ⟨c :: behind, ahead, s⟩
    | ']' =>
      if s.cell = 0 then .next ⟨c :: behind, ahead, s⟩
      else
        match seek ']' '[' 0 (c :: ahead) behind with
        | some (ahead, behind) => .next ⟨behind, ahead, s⟩
        | none => .done .fault
    | _ => .next ⟨c :: behind, ahead, s⟩

def start (text : List Char) (nonempty : 0 < size) (input : List Byte) : Config size width :=
  ⟨[], text, .start nonempty input⟩

/-! ## Matching brackets -/

/-- A text in which every `enter` is matched by a `leave`. -/
inductive Nested (enter leave : Char) : List Char → Prop where
  | nil : Nested enter leave []
  | skip {c : Char} {text : List Char} :
      c ≠ enter → c ≠ leave → Nested enter leave text → Nested enter leave (c :: text)
  | loop {inner text : List Char} :
      Nested enter leave inner → Nested enter leave text →
      Nested enter leave (enter :: (inner ++ leave :: text))

variable {enter leave : Char} {text : List Char}

theorem Nested.append {more : List Char} (h : Nested enter leave text)
    (hmore : Nested enter leave more) : Nested enter leave (text ++ more) := by
  induction h with
  | nil => exact hmore
  | skip henter hleave _ ih => exact .skip henter hleave ih
  | loop hinner _ _ ih =>
    rw [List.cons_append, List.append_assoc, List.cons_append]
    exact .loop hinner ih

/-- Backwards the brackets change their roles. -/
theorem Nested.reverse (h : Nested enter leave text) : Nested leave enter text.reverse := by
  induction h with
  | nil => exact .nil
  | skip henter hleave _ ih =>
    rw [List.reverse_cons]
    exact ih.append (.skip hleave henter .nil)
  | @loop inner text _ _ ihInner ih =>
    have hreverse : (enter :: (inner ++ leave :: text)).reverse =
        text.reverse ++ leave :: (inner.reverse ++ enter :: []) := by
      simp
    rw [hreverse]
    exact ih.append (.loop ihInner .nil)

theorem seek_skip {c : Char} (henter : c ≠ enter) (hleave : c ≠ leave) (depth : Nat)
    (passed rest : List Char) :
    seek enter leave depth passed (c :: rest) = seek enter leave depth (c :: passed) rest := by
  cases depth <;> simp [seek, henter, hleave]

theorem seek_enter (hne : enter ≠ leave) (depth : Nat) (passed rest : List Char) :
    seek enter leave depth passed (enter :: rest) =
      seek enter leave (depth + 1) (enter :: passed) rest := by
  cases depth <;> simp [seek, hne]

theorem seek_nested (hne : enter ≠ leave) (h : Nested enter leave text) (depth : Nat)
    (passed rest : List Char) :
    seek enter leave depth passed (text ++ rest) =
      seek enter leave depth (text.reverse ++ passed) rest := by
  induction h generalizing depth passed rest with
  | nil => rfl
  | skip henter hleave _ ih =>
    rw [List.cons_append, seek_skip henter hleave, ih, List.reverse_cons, List.append_assoc,
      List.singleton_append]
  | loop _ _ ihInner ih =>
    rw [List.cons_append, List.append_assoc, List.cons_append, seek_enter hne, ihInner, seek,
      if_pos rfl, ih]
    simp

/-- The bracket behind a text in which brackets match is the one that is looked for. -/
theorem seek_leave (hne : enter ≠ leave) (h : Nested enter leave text)
    (passed rest : List Char) :
    seek enter leave 0 passed (text ++ leave :: rest) =
      some (leave :: (text.reverse ++ passed), rest) := by
  rw [seek_nested hne h, seek, if_pos rfl]

end TapeCompiler.CharacterMachine
