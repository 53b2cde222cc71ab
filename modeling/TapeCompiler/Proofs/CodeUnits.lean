import TapeCompiler.Compilation
import TapeCompiler.Proofs.DecodedCommands

/-! # Texts as code units

A text may also be given by its code units.  A unit that is half of a character is no character, and
on its own it is read as the replacement character: it is commentary, and it takes one column.  Two
halves are then read like the character that they make up, so a text is compiled in the same way
whether it is read by characters or by units.  Units that make up no text at all, as when a character
is cut in two, are read by units in any case.

* `Text.codeUnits`: the code units of a text.
* `Text.ofUnits`: any code units, read one by one.
* `Scan.foldl_ofUnits`: the reader on the units of one character.
* `compileText_ofUnits`: compilation depends on the code units of a text only.
-/

namespace TapeCompiler

namespace Text

/-- The code units of a character.  One that takes two is split into ten bits and ten bits. -/
def charUnits (c : Char) : List UInt16 :=
  if c.toNat < 0x10000 then [.ofNat c.toNat]
  else [.ofNat (0xD800 + (c.toNat - 0x10000) / 0x400), .ofNat (0xDC00 + (c.toNat - 0x10000) % 0x400)]

def codeUnits (text : List Char) : List UInt16 := text.flatMap charUnits

/-- What a code unit is read as.  Half of a character is replaced. -/
def ofUnit (u : UInt16) : Char :=
  if 0xD800 ≤ u.toNat ∧ u.toNat < 0xE000 then replacement else .ofNat u.toNat

def ofUnits (units : List UInt16) : List Char := units.map ofUnit

/-- The codes of characters leave out the halves. -/
theorem toNat_cases (c : Char) : c.toNat < 0xD800 ∨ 0xDFFF < c.toNat ∧ c.toNat < 0x110000 := c.valid

theorem ofUnits_of_narrow {c : Char} (h : c.toNat < 0x10000) : ofUnits (charUnits c) = [c] := by
  have hcode : (UInt16.ofNat c.toNat).toNat = c.toNat := by
    rw [UInt16.toNat_ofNat']
    exact Nat.mod_eq_of_lt h
  have hwhole : ¬(0xD800 ≤ c.toNat ∧ c.toNat < 0xE000) := by
    have hcodes := toNat_cases c
    omega
  simp only [charUnits, if_pos h, ofUnits, List.map_cons, List.map_nil, ofUnit, hcode, if_neg hwhole,
    Char.ofNat_toNat]

theorem ofUnits_of_wide {c : Char} (h : 0x10000 ≤ c.toNat) :
    ofUnits (charUnits c) = [replacement, replacement] := by
  have hcodes := toNat_cases c
  have hhigh : (UInt16.ofNat (0xD800 + (c.toNat - 0x10000) / 0x400)).toNat =
      0xD800 + (c.toNat - 0x10000) / 0x400 := by
    rw [UInt16.toNat_ofNat']
    exact Nat.mod_eq_of_lt (by omega)
  have hlow : (UInt16.ofNat (0xDC00 + (c.toNat - 0x10000) % 0x400)).toNat =
      0xDC00 + (c.toNat - 0x10000) % 0x400 := by
    rw [UInt16.toNat_ofNat']
    exact Nat.mod_eq_of_lt (by omega)
  simp only [charUnits, if_neg (Nat.not_lt.2 h), ofUnits, List.map_cons, List.map_nil, ofUnit, hhigh,
    hlow]
  rw [if_pos (by omega), if_pos (by omega)]

theorem ofUnits_cons (c : Char) (text : List Char) :
    ofUnits (codeUnits (c :: text)) = ofUnits (charUnits c) ++ ofUnits (codeUnits text) := by
  simp [ofUnits, codeUnits]

end Text

open Text (charUnits codeUnits ofUnits replacement)

theorem noise_of_wide {c : Char} (h : 0x10000 ≤ c.toNat) : Noise c := by
  rw [← Char.ofNat_toNat c]
  exact Utf8.noise_ofNat (by omega)

theorem Cursor.past_ofUnits (p : Cursor) (c : Char) : p.past (ofUnits (charUnits c)) = p.step c := by
  by_cases h : c.toNat < 0x10000
  · rw [Text.ofUnits_of_narrow h]
    rfl
  · have hc := (noise_of_wide (Nat.le_of_not_lt h)).2
    have hreplacement : ∀ q : Cursor, q.step replacement = ⟨q.line, q.column + 1, q.offset + 1⟩ :=
      fun q => rfl
    rw [Text.ofUnits_of_wide (Nat.le_of_not_lt h), past_cons, past_cons, past_nil, hreplacement,
      hreplacement, step, if_neg hc, Text.width, if_neg h]

theorem Cursor.endOf_ofUnits (text : List Char) : endOf (ofUnits (codeUnits text)) = endOf text := by
  have hpast : ∀ p : Cursor, p.past (ofUnits (codeUnits text)) = p.past text := by
    induction text with
    | nil => exact fun p => rfl
    | cons c rest ih =>
      intro p
      rw [Text.ofUnits_cons, past_append, past_ofUnits, ih, past_cons]
  exact hpast start

theorem Scan.foldl_ofUnits (file : String) (s : Scan) (c : Char) :
    (ofUnits (charUnits c)).foldl (step file) s = step file s c := by
  by_cases h : c.toNat < 0x10000
  · rw [Text.ofUnits_of_narrow h]
    rfl
  · have hwide := Nat.le_of_not_lt h
    have hpast := s.here.past_ofUnits c
    have hreplaced : ∀ x ∈ [replacement, replacement], Noise x :=
      List.forall_mem_cons.2
        ⟨Utf8.noise_replacement, List.forall_mem_singleton.2 Utf8.noise_replacement⟩
    rw [Text.ofUnits_of_wide hwide] at hpast ⊢
    rw [foldl_noise file hreplaced, hpast, step_of_commentary file (noise_of_wide hwide).1]

theorem lex_ofUnits (file : String) (text : List Char) :
    lex file (ofUnits (codeUnits text)) = lex file text := by
  have hfold : ∀ s : Scan, (ofUnits (codeUnits text)).foldl (Scan.step file) s =
      text.foldl (Scan.step file) s := by
    induction text with
    | nil => exact fun s => rfl
    | cons c rest ih =>
      intro s
      rw [Text.ofUnits_cons, List.foldl_append, Scan.foldl_ofUnits, ih, List.foldl_cons]
  rw [lex, hfold, lex]

theorem parseProgram_ofUnits (file : String) (text : List Char) :
    parseProgram file (ofUnits (codeUnits text)) = parseProgram file text := by
  have hdiagnostic : ParseError.diagnostic file (ofUnits (codeUnits text)) =
      ParseError.diagnostic file text := by
    funext e
    cases e with
    | unexpectedToken token => rfl
    | endOfInput => simp only [ParseError.diagnostic, ParseError.position, Cursor.endOf_ofUnits]
  simp only [parseProgram, lex_ofUnits, hdiagnostic]

/-- Compilation depends on the code units of a text only, and halves of a character may be read one by
one. -/
theorem compileText_ofUnits (file : String) (text : List Char) (options : CompileOptions)
    (writers : Writers) :
    compileText file (ofUnits (codeUnits text)) options writers =
      compileText file text options writers := by
  simp only [compileText, parseProgram_ofUnits]

end TapeCompiler
