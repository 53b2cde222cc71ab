import TapeCompiler.Text.Utf8

/-! # What is written is read back

Encoding a text and decoding the bytes gives the text again.  The decoder is followed through the
bytes of one character: the first byte sets the bits and what is missing, every further byte adds six
bits, and the last one completes the code.

* `decodeFrom_lead`, `decodeFrom_more`, `decodeFrom_last`: the decoder on one byte.
* `decodeFrom_encodeChar`: the decoder on one character.
* `decode_encode`: the decoder on a text.
-/

namespace TapeCompiler.Utf8

/-! ## One byte -/

theorem toNat_byte {n : Nat} (h : n < 256) : (UInt8.ofNat n).toNat = n := by
  rw [UInt8.toNat_ofNat']
  exact Nat.mod_eq_of_lt h

theorem decodeFrom_lead {b : Nat} (hb : b < 256) (rest : List UInt8) :
    decodeFrom none (UInt8.ofNat b :: rest) = (lead b).1 ++ decodeFrom (lead b).2 rest := by
  simp only [decodeFrom, step, toNat_byte hb]

section Continuation

variable {bits low high k : Nat} (hk : k < 64) (hlow : low ≤ k + 128) (hhigh : k + 128 ≤ high)

include hk hlow hhigh

theorem decodeFrom_more {missing : Nat} (hmissing : missing ≠ 0) (rest : List UInt8) :
    decodeFrom (some ⟨bits, missing + 1, low, high⟩) (UInt8.ofNat (k + 128) :: rest) =
      decodeFrom (some ⟨bits * 64 + k, missing, 128, 191⟩) rest := by
  have hbyte : (UInt8.ofNat (k + 128)).toNat = k + 128 := toNat_byte (by omega)
  have hgoes : missing + 1 ≠ 1 := by omega
  simp only [decodeFrom, step, hbyte, if_pos (And.intro hlow hhigh), if_neg hgoes,
    Nat.add_sub_cancel, List.nil_append]

theorem decodeFrom_last (rest : List UInt8) :
    decodeFrom (some ⟨bits, 1, low, high⟩) (UInt8.ofNat (k + 128) :: rest) =
      Char.ofNat (bits * 64 + k) :: decodeFrom none rest := by
  have hbyte : (UInt8.ofNat (k + 128)).toNat = k + 128 := toNat_byte (by omega)
  simp only [decodeFrom, step, hbyte, if_pos (And.intro hlow hhigh), if_true, Nat.add_sub_cancel,
    List.cons_append, List.nil_append]

end Continuation

/-! ## One character -/

theorem lead_one {b : Nat} (h : b < 128) : lead b = ([Char.ofNat b], none) := if_pos h

theorem lead_two {b : Nat} (hlow : 194 ≤ b) (hhigh : b < 224) :
    lead b = ([], some ⟨b - 192, 1, 128, 191⟩) := by
  rw [lead, if_neg (by omega), if_neg (by omega), if_pos hhigh]

theorem lead_three {b : Nat} (hlow : 224 ≤ b) (hhigh : b < 240) :
    lead b = ([], some ⟨b - 224, 2, if b = 224 then 160 else 128, if b = 237 then 159 else 191⟩) := by
  rw [lead, if_neg (by omega), if_neg (by omega), if_neg (by omega), if_pos hhigh]

theorem lead_four {b : Nat} (hlow : 240 ≤ b) (hhigh : b < 245) :
    lead b = ([], some ⟨b - 240, 3, if b = 240 then 144 else 128, if b = 244 then 143 else 191⟩) := by
  rw [lead, if_neg (by omega), if_neg (by omega), if_neg (by omega), if_neg (by omega),
    if_pos hhigh]

/-- The bytes of a character complete it.  Its code is no surrogate and at most `0x10FFFF`, so the
second byte is within the bounds that the first one sets. -/
theorem decodeFrom_encodeChar (c : Char) (rest : List UInt8) :
    decodeFrom none (String.utf8EncodeChar c ++ rest) = c :: decodeFrom none rest := by
  have hchar : Char.ofNat c.val.toNat = c := c.ofNat_toNat
  have hvalid : c.val.toNat < 0xD800 ∨ 0xDFFF < c.val.toNat ∧ c.val.toNat < 0x110000 := c.valid
  unfold String.utf8EncodeChar
  generalize c.val.toNat = v at hchar hvalid
  by_cases hone : v ≤ 127
  · simp only [if_pos hone, List.cons_append, List.nil_append]
    rw [decodeFrom_lead (by omega), lead_one (by omega), hchar]
    rfl
  by_cases htwo : v ≤ 2047
  · simp only [if_neg hone, if_pos htwo, List.cons_append, List.nil_append]
    rw [decodeFrom_lead (by omega), lead_two (by omega) (by omega), List.nil_append,
      decodeFrom_last (by omega) (by omega) (by omega)]
    have hcode : (v / 64 % 32 + 192 - 192) * 64 + v % 64 = v := by omega
    rw [hcode, hchar]
  by_cases hthree : v ≤ 65535
  · simp only [if_neg hone, if_neg htwo, if_pos hthree, List.cons_append, List.nil_append]
    rw [decodeFrom_lead (by omega), lead_three (by omega) (by omega), List.nil_append,
      decodeFrom_more (by omega) (by split <;> omega) (by split <;> omega) (by decide),
      decodeFrom_last (by omega) (by omega) (by omega)]
    have hcode : ((v / 4096 % 16 + 224 - 224) * 64 + v / 64 % 64) * 64 + v % 64 = v := by omega
    rw [hcode, hchar]
  · simp only [if_neg hone, if_neg htwo, if_neg hthree, List.cons_append, List.nil_append]
    rw [decodeFrom_lead (by omega), lead_four (by omega) (by omega), List.nil_append,
      decodeFrom_more (by omega) (by split <;> omega) (by split <;> omega) (by decide),
      decodeFrom_more (by omega) (by omega) (by omega) (by decide),
      decodeFrom_last (by omega) (by omega) (by omega)]
    have hcode : (((v / 262144 % 8 + 240 - 240) * 64 + v / 4096 % 64) * 64 + v / 64 % 64) * 64 +
        v % 64 = v := by omega
    rw [hcode, hchar]

theorem decode_encode (text : List Char) : decode (encode text) = text := by
  induction text with
  | nil => rfl
  | cons c rest ih =>
    have hfirst := decodeFrom_encodeChar c (encode rest)
    rw [decode] at ih ⊢
    rw [encode, List.flatMap_cons, ← encode, hfirst, ih]

end TapeCompiler.Utf8
