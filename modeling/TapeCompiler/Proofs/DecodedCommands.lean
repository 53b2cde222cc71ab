import TapeCompiler.Proofs.Reading
import TapeCompiler.Proofs.Utf8RoundTrip

/-! # Commands survive decoding

Commands and line feeds are bytes below 128, and so is nothing that is part of a longer character.
A text decoded from bytes therefore differs from the bytes taken one by one only in noise: characters
that are neither commands nor line feeds.  Decoding may change how much noise stands in a place, but
it leaves no noise out, so two runs that were apart stay apart.

* `SameCommands`: two texts that differ only in how much noise they hold where.
* `Scan.Agrees`: the reader does not notice the difference.  `lex_of_sameCommands` says so for texts.
* `sameCommands_decodeFrom`: the decoder from each of its states.
* `decoding_keeps_commands`: tokens of the decoded text and of the bytes.
-/

namespace TapeCompiler

/-! ## Noise -/

/-- A character that is neither a command nor a line feed. -/
def Noise (c : Char) : Prop := Commentary c ∧ c ≠ '\n'

/-- Two texts with the same commands and line feeds.  Between two of them both have noise or neither
has any. -/
inductive SameCommands : List Char → List Char → Prop where
  | nil : SameCommands [] []
  | keep (c : Char) {a b : List Char} : SameCommands a b → SameCommands (c :: a) (c :: b)
  | noise (xs ys : List Char) {a b : List Char} :
      xs ≠ [] → ys ≠ [] → (∀ x ∈ xs, Noise x) → (∀ y ∈ ys, Noise y) → SameCommands a b →
      SameCommands (xs ++ a) (ys ++ b)

theorem Cursor.line_step (p : Cursor) (c : Char) :
    (p.step c).line = if c = '\n' then p.line + 1 else p.line := by
  unfold step
  split <;> rfl

theorem Cursor.line_past_noise (p : Cursor) {xs : List Char} (h : ∀ x ∈ xs, Noise x) :
    (p.past xs).line = p.line := by
  induction xs generalizing p with
  | nil => rfl
  | cons x xs ih =>
    obtain ⟨hx, hxs⟩ := List.forall_mem_cons.1 h
    rw [past_cons, ih (p.step x) hxs, line_step, if_neg hx.2]

/-! ## Lexing -/

/-- What a token says, and the line on which it starts. -/
def Token.mark (t : Token) : Lexeme × Number := (t.lexeme, t.span.start.line)

/-- The same of a run that is still open. -/
def OpenRun.mark (r : OpenRun) : Counted × Nat × Nat := (r.command, r.count, r.start.line)

namespace Scan

/-- Two readers that have found the same on the same lines. -/
structure Agrees (s s' : Scan) : Prop where
  line : s.here.line = s'.here.line
  run : s.run.map OpenRun.mark = s'.run.map OpenRun.mark
  tokens : s.tokens.map Token.mark = s'.tokens.map Token.mark

variable (file : String) {s s' : Scan}

theorem step_of_commentary {c : Char} (h : Commentary c) (s : Scan) :
    step file s c = ⟨s.here.step c, none, (s.close file).tokens⟩ := by
  simp only [step, h.1, h.2, run_close]

theorem foldl_noise {x : Char} {xs : List Char} (h : ∀ y ∈ x :: xs, Noise y) (s : Scan) :
    (x :: xs).foldl (step file) s = ⟨s.here.past (x :: xs), none, (s.close file).tokens⟩ := by
  induction xs generalizing x s with
  | nil => exact step_of_commentary file (h x List.mem_cons_self).1 s
  | cons y ys ih =>
    obtain ⟨hx, hys⟩ := List.forall_mem_cons.1 h
    rw [List.foldl_cons, step_of_commentary file hx.1, ih hys]
    rfl

namespace Agrees

theorem run_cases (h : s.Agrees s') :
    (s.run = none ∧ s'.run = none) ∨
      ∃ r r', s.run = some r ∧ s'.run = some r' ∧ r.command = r'.command ∧ r.count = r'.count ∧
        r.start.line = r'.start.line := by
  have hrun := h.run
  cases hs : s.run with
  | none =>
    rw [hs, Option.map_none, eq_comm, Option.map_eq_none_iff] at hrun
    exact .inl ⟨rfl, hrun⟩
  | some r =>
    rw [hs, Option.map_some, eq_comm, Option.map_eq_some_iff] at hrun
    obtain ⟨r', hs', hmark⟩ := hrun
    simp only [OpenRun.mark, Prod.mk.injEq] at hmark
    exact .inr ⟨r, r', rfl, hs', hmark.1.symm, hmark.2.1.symm, hmark.2.2.symm⟩

theorem close (h : s.Agrees s') : (s.close file).Agrees (s'.close file) := by
  rcases h.run_cases with ⟨hs, hs'⟩ | ⟨r, r', hs, hs', hcommand, hcount, hline⟩
  · rwa [close_of_run_none hs, close_of_run_none hs']
  · refine ⟨by rw [here_close, here_close, h.line], by rw [run_close, run_close], ?_⟩
    simp [Scan.close, hs, hs', Token.mark, Span.between, Cursor.position, hcommand, hcount, hline,
      h.tokens]

theorem extend (h : s.Agrees s') (command : Counted) {next next' : Cursor}
    (hnext : next.line = next'.line) :
    (s.extend file command next).Agrees (s'.extend file command next') := by
  have hclose := h.close file
  rcases h.run_cases with ⟨hs, hs'⟩ | ⟨r, r', hs, hs', hcommand, hcount, hline⟩
  · simp only [Scan.extend, hs, hs']
    exact ⟨hnext, by simp [OpenRun.mark, h.line], h.tokens⟩
  · simp only [Scan.extend, hs, hs', ← hcommand]
    split
    · exact ⟨hnext, by simp [OpenRun.mark, hcommand, hcount, hline], h.tokens⟩
    · exact ⟨hnext, by simp [OpenRun.mark, h.line], hclose.tokens⟩

theorem step (h : s.Agrees s') (c : Char) : (step file s c).Agrees (step file s' c) := by
  have hclose := h.close file
  have hnext : (s.here.step c).line = (s'.here.step c).line := by
    rw [Cursor.line_step, Cursor.line_step, h.line]
  cases hcounted : Counted.ofChar? c with
  | some command =>
    simp only [Scan.step, hcounted]
    exact h.extend file command hnext
  | none =>
    cases hbare : Bare.ofChar? c with
    | some command =>
      have hmark : ∀ p q : Cursor, (Token.mark ⟨.bare command, .between file p q⟩) =
          (.bare command, .ofNat p.line) := fun p q => rfl
      simp only [Scan.step, hcounted, hbare]
      exact ⟨hnext, hclose.run, by simp only [List.map_cons, hmark, h.line, hclose.tokens]⟩
    | none =>
      simp only [Scan.step, hcounted, hbare]
      exact ⟨hnext, hclose.run, hclose.tokens⟩

theorem noise (h : s.Agrees s') {xs ys : List Char} (hxs : xs ≠ []) (hys : ys ≠ [])
    (hx : ∀ x ∈ xs, Noise x) (hy : ∀ y ∈ ys, Noise y) :
    (xs.foldl (Scan.step file) s).Agrees (ys.foldl (Scan.step file) s') := by
  have hclose := h.close file
  obtain ⟨x, xs, rfl⟩ := List.exists_cons_of_ne_nil hxs
  obtain ⟨y, ys, rfl⟩ := List.exists_cons_of_ne_nil hys
  rw [foldl_noise file hx, foldl_noise file hy]
  refine ⟨?_, rfl, hclose.tokens⟩
  show (s.here.past (x :: xs)).line = (s'.here.past (y :: ys)).line
  rw [Cursor.line_past_noise _ hx, Cursor.line_past_noise _ hy, h.line]

theorem foldl {a b : List Char} (htexts : SameCommands a b) (h : s.Agrees s') :
    (a.foldl (Scan.step file) s).Agrees (b.foldl (Scan.step file) s') := by
  induction htexts generalizing s s' with
  | nil => exact h
  | keep c _ ih => exact ih (h.step file c)
  | noise xs ys hxs hys hx hy _ ih =>
    rw [List.foldl_append, List.foldl_append]
    exact ih (h.noise file hxs hys hx hy)

end Agrees

end Scan

theorem lex_of_sameCommands {a b : List Char} (h : SameCommands a b) (file : String) :
    (lex file a).map Token.mark = (lex file b).map Token.mark := by
  have hstart : Scan.start.Agrees .start := ⟨rfl, rfl, rfl⟩
  have hend := (hstart.foldl file h).close file
  simp only [lex, Scan.finish, List.map_reverse, hend.tokens]

/-! ## Decoding -/

namespace Utf8

/-- The characters with the codes of the bytes. -/
def byteChars (bytes : List UInt8) : List Char := bytes.map fun b => Char.ofNat b.toNat

theorem noise_ofNat {n : Nat} (h : 128 ≤ n) : Noise (Char.ofNat n) := by
  -- What is no code of a character is read as the null character.
  have hcode : (Char.ofNat n).toNat = 0 ∨ 128 ≤ (Char.ofNat n).toNat := by
    by_cases hvalid : n.isValidChar
    · have hchar : Char.ofNat n = Char.ofNatAux n hvalid := dif_pos hvalid
      rw [hchar]
      exact .inr h
    · have hnull : Char.ofNat n = '\x00' := dif_neg hvalid
      rw [hnull]
      exact .inl rfl
  generalize Char.ofNat n = c at hcode
  constructor
  · apply commentary_of_not_mem
    intro hmem
    simp only [commands, List.mem_cons, List.not_mem_nil, or_false] at hmem
    rcases hmem with rfl | rfl | rfl | rfl | rfl | rfl | rfl | rfl <;> simp at hcode
  · rintro rfl
    simp at hcode

theorem noise_replacement : Noise replacement := noise_ofNat (by decide : 128 ≤ 0xFFFD)

/-- What is still to come makes the code of the character at least 128. -/
structure Pending.Sound (p : Pending) : Prop where
  low : 128 ≤ p.low
  last : p.missing = 1 → 2 ≤ p.bits
  more : p.missing ≠ 1 → 2 ≤ p.bits * 64 + (p.low - 128)

/-- The first byte of a character is the whole character, or a byte that cannot come first, or sets
up what is to come. -/
theorem lead_cases (b : Nat) :
    (b < 128 ∧ lead b = ([Char.ofNat b], none)) ∨
      (128 ≤ b ∧ lead b = ([replacement], none)) ∨
      (128 ≤ b ∧ ∃ p, p.Sound ∧ lead b = ([], some p)) := by
  by_cases hone : b < 128
  · exact .inl ⟨hone, lead_one hone⟩
  have hhigh : 128 ≤ b := Nat.not_lt.1 hone
  by_cases hnone : b < 194
  · refine .inr (.inl ⟨hhigh, ?_⟩)
    rw [lead, if_neg hone, if_pos hnone]
  by_cases htwo : b < 224
  · refine .inr (.inr ⟨hhigh, _, ⟨by simp, fun _ => ?_, fun h => absurd rfl h⟩,
      lead_two (by omega) htwo⟩)
    show 2 ≤ b - 192
    omega
  by_cases hthree : b < 240
  · refine .inr (.inr ⟨hhigh, _, ⟨?_, fun h => absurd (h : 2 = 1) (by decide), fun _ => ?_⟩,
      lead_three (by omega) hthree⟩)
    · show 128 ≤ if b = 224 then 160 else 128
      split <;> decide
    · show 2 ≤ (b - 224) * 64 + ((if b = 224 then 160 else 128) - 128)
      split <;> omega
  by_cases hfour : b < 245
  · refine .inr (.inr ⟨hhigh, _, ⟨?_, fun h => absurd (h : 3 = 1) (by decide), fun _ => ?_⟩,
      lead_four (by omega) hfour⟩)
    · show 128 ≤ if b = 240 then 144 else 128
      split <;> decide
    · show 2 ≤ (b - 240) * 64 + ((if b = 240 then 144 else 128) - 128)
      split <;> omega
  · refine .inr (.inl ⟨hhigh, ?_⟩)
    rw [lead, if_neg hone, if_neg hnone, if_neg htwo, if_neg hthree, if_neg hfour]

/-- From a state in which nothing is under way the bytes are followed as they come.  When a character
is under way, its first bytes have been passed already, and they are some noise `ys`. -/
theorem sameCommands_decodeFrom (bytes : List UInt8) :
    SameCommands (decodeFrom none bytes) (byteChars bytes) ∧
      ∀ p : Pending, p.Sound → ∀ ys : List Char, ys ≠ [] → (∀ y ∈ ys, Noise y) →
        SameCommands (decodeFrom (some p) bytes) (ys ++ byteChars bytes) := by
  have hreplaced : ∀ x ∈ [replacement], Noise x := List.forall_mem_singleton.2 noise_replacement
  induction bytes with
  | nil =>
    refine ⟨.nil, fun p _ ys hne hys => ?_⟩
    exact .noise [replacement] ys (List.cons_ne_nil _ _) hne hreplaced hys .nil
  | cons b rest ih =>
    obtain ⟨hrest, hunder⟩ := ih
    have hfirst : SameCommands ((lead b.toNat).1 ++ decodeFrom (lead b.toNat).2 rest)
        (Char.ofNat b.toNat :: byteChars rest) := by
      rcases lead_cases b.toNat with ⟨_, hlead⟩ | ⟨hhigh, hlead⟩ | ⟨hhigh, p, hp, hlead⟩
      · rw [hlead]
        exact .keep _ hrest
      · rw [hlead]
        exact .noise [replacement] [_] (List.cons_ne_nil _ _) (List.cons_ne_nil _ _) hreplaced
          (List.forall_mem_singleton.2 (noise_ofNat hhigh)) hrest
      · rw [hlead]
        exact hunder p hp [_] (List.cons_ne_nil _ _)
          (List.forall_mem_singleton.2 (noise_ofNat hhigh))
    refine ⟨hfirst, fun p hp ys hne hys => ?_⟩
    by_cases hwithin : p.low ≤ b.toNat ∧ b.toNat ≤ p.high
    · -- The byte goes on with the character, so it is noise like those before it.
      have hlow := hp.low
      have hpassed : ∀ y ∈ ys ++ [Char.ofNat b.toNat], Noise y :=
        List.forall_mem_append.2 ⟨hys, List.forall_mem_singleton.2 (noise_ofNat (by omega))⟩
      have hne' : ys ++ [Char.ofNat b.toNat] ≠ [] := by simp
      have hbytes : ys ++ byteChars (b :: rest) = (ys ++ [Char.ofNat b.toNat]) ++ byteChars rest := by
        simp [byteChars]
      rw [hbytes]
      by_cases hlast : p.missing = 1
      · have hbits := hp.last hlast
        simp only [decodeFrom, step, if_pos hwithin, if_pos hlast]
        refine .noise [_] _ (List.cons_ne_nil _ _) hne' ?_ hpassed hrest
        exact List.forall_mem_singleton.2 (noise_ofNat (by omega))
      · have hbits := hp.more hlast
        simp only [decodeFrom, step, if_pos hwithin, if_neg hlast, List.nil_append]
        refine hunder _ ⟨Nat.le_refl 128, fun _ => ?_, fun _ => ?_⟩ _ hne' hpassed
        · show 2 ≤ p.bits * 64 + (b.toNat - 128)
          omega
        · show 2 ≤ (p.bits * 64 + (b.toNat - 128)) * 64 + (128 - 128)
          omega
    · simp only [decodeFrom, step, if_neg hwithin]
      exact .noise [replacement] ys (List.cons_ne_nil _ _) hne hreplaced hys hfirst

end Utf8

/-- Bytes that are not ASCII, malformed or not, neither hide commands nor run them together.  The
tokens of a decoded text say the same, and start on the same lines, as those of the text that has one
character for each byte. -/
theorem decoding_keeps_commands (file : String) (bytes : List UInt8) :
    (lex file (Utf8.decode bytes)).map (fun t => (t.lexeme, t.span.start.line)) =
      (lex file (bytes.map fun b => Char.ofNat b.toNat)).map
        fun t => (t.lexeme, t.span.start.line) :=
  lex_of_sameCommands (Utf8.sameCommands_decodeFrom bytes).1 file

/-- A character is cut off by a bracket, and a byte that starts none stands between two runs. -/
example : Utf8.decode [0xF0, 0x9F, 0x98, 0x5D] = ['\uFFFD', ']'] ∧
    Utf8.decode [0x2B, 0xC0, 0x2B] = ['+', '\uFFFD', '+'] := by decide

end TapeCompiler
