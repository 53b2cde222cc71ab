/-! # UTF-8

`encode` writes characters as bytes and `decode` reads bytes as characters.  Decoding never
fails: every longest stretch of bytes that starts a character but does not finish it, and every
byte that cannot start one, is read as U+FFFD.  A byte order mark is a character like any
other.

The decoder goes through the bytes once.  Its state is the character under way, if any: the bits
read so far, how many bytes are missing, and the bounds of the next one.  Only the first byte
after a lead byte has bounds of its own; they exclude long forms, surrogates and codes above
U+10FFFF.
-/

namespace TapeCompiler.Utf8

def encode (text : List Char) : List UInt8 := text.flatMap String.utf8EncodeChar

/-- What stands for bytes that are no character. -/
def replacement : Char := '�'

/-- A character under way. -/
structure Pending where
  bits : Nat
  missing : Nat
  low : Nat
  high : Nat
deriving DecidableEq

/-- The state after the first byte of a character: a whole character, or one under way.  A byte
that cannot come first is replaced at once. -/
def lead (b : Nat) : List Char × Option Pending :=
  if b < 0x80 then ([Char.ofNat b], none)
  else if b < 0xC2 then ([replacement], none)
  else if b < 0xE0 then ([], some ⟨b - 0xC0, 1, 0x80, 0xBF⟩)
  else if b < 0xF0 then
    let low := if b = 0xE0 then 0xA0 else 0x80
    let high := if b = 0xED then 0x9F else 0xBF
    ([], some ⟨b - 0xE0, 2, low, high⟩)
  else if b < 0xF5 then
    let low := if b = 0xF0 then 0x90 else 0x80
    let high := if b = 0xF4 then 0x8F else 0xBF
    ([], some ⟨b - 0xF0, 3, low, high⟩)
  else ([replacement], none)

/-- Reads one byte: the characters that it completes and the state behind it.  A byte that does
not continue the character under way ends it and comes first itself. -/
def step (state : Option Pending) (b : Nat) : List Char × Option Pending :=
  match state with
  | none => lead b
  | some p =>
    if p.low ≤ b ∧ b ≤ p.high then
      let bits := p.bits * 64 + (b - 0x80)
      if p.missing = 1 then ([Char.ofNat bits], none)
      else ([], some ⟨bits, p.missing - 1, 0x80, 0xBF⟩)
    else
      let (chars, next) := lead b
      (replacement :: chars, next)

/-- Reads bytes from a state on. -/
def decodeFrom (state : Option Pending) : List UInt8 → List Char
  | [] => if state.isSome then [replacement] else []
  | b :: rest =>
    let (chars, next) := step state b.toNat
    chars ++ decodeFrom next rest

def decode (bytes : List UInt8) : List Char := decodeFrom none bytes

end TapeCompiler.Utf8
