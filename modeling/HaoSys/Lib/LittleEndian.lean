import Mathlib

/-!
# Little-endian words

`le16` and `le32` assemble a word from its bytes, least significant first;
`byte v k` is byte `k` of `v`. Assembling the bytes of a word gives the word
back (`le16_byte`, `le32_byte`), and equal words are made of equal bytes
(`le16_inj`, `le32_inj`).
-/

namespace HaoSys.Lib

def le16 (b0 b1 : UInt8) : UInt16 := UInt16.ofNat (b0.toNat + 256 * b1.toNat)

def le32 (b0 b1 b2 b3 : UInt8) : UInt32 :=
  UInt32.ofNat (b0.toNat + 256 * b1.toNat + 65536 * b2.toNat + 16777216 * b3.toNat)

/-- Byte `k` of a word given by its value. -/
def byte (v k : Nat) : UInt8 := UInt8.ofNat (v / 256 ^ k)

theorem byte_toNat (v k : Nat) : (byte v k).toNat = v / 256 ^ k % 256 := by
  simp [byte, UInt8.toNat_ofNat']

theorem le16_toNat (b0 b1 : UInt8) : (le16 b0 b1).toNat = b0.toNat + 256 * b1.toNat := by
  have := b0.toNat_lt; have := b1.toNat_lt
  simp only [le16, UInt16.toNat_ofNat']
  omega

theorem le32_toNat (b0 b1 b2 b3 : UInt8) :
    (le32 b0 b1 b2 b3).toNat =
      b0.toNat + 256 * b1.toNat + 65536 * b2.toNat + 16777216 * b3.toNat := by
  have := b0.toNat_lt; have := b1.toNat_lt; have := b2.toNat_lt; have := b3.toNat_lt
  simp only [le32, UInt32.toNat_ofNat']
  omega

theorem le16_byte (v : UInt16) : le16 (byte v.toNat 0) (byte v.toNat 1) = v := by
  apply UInt16.toNat_inj.1
  have := v.toNat_lt
  simp only [le16_toNat, byte_toNat]
  omega

theorem le32_byte (v : UInt32) :
    le32 (byte v.toNat 0) (byte v.toNat 1) (byte v.toNat 2) (byte v.toNat 3) = v := by
  apply UInt32.toNat_inj.1
  have := v.toNat_lt
  simp only [le32_toNat, byte_toNat]
  omega

theorem le16_inj {a0 a1 b0 b1 : UInt8} (h : le16 a0 a1 = le16 b0 b1) : a0 = b0 ∧ a1 = b1 := by
  have hn := congrArg UInt16.toNat h
  rw [le16_toNat, le16_toNat] at hn
  have := a0.toNat_lt; have := b0.toNat_lt
  exact ⟨UInt8.toNat_inj.1 (by omega), UInt8.toNat_inj.1 (by omega)⟩

theorem le32_inj {a0 a1 a2 a3 b0 b1 b2 b3 : UInt8} (h : le32 a0 a1 a2 a3 = le32 b0 b1 b2 b3) :
    a0 = b0 ∧ a1 = b1 ∧ a2 = b2 ∧ a3 = b3 := by
  have hn := congrArg UInt32.toNat h
  rw [le32_toNat, le32_toNat] at hn
  have := a0.toNat_lt; have := b0.toNat_lt; have := a1.toNat_lt; have := b1.toNat_lt
  have := a2.toNat_lt; have := b2.toNat_lt
  exact ⟨UInt8.toNat_inj.1 (by omega), UInt8.toNat_inj.1 (by omega), UInt8.toNat_inj.1 (by omega),
    UInt8.toNat_inj.1 (by omega)⟩

/-! ## Masks -/

/-- A word is determined by its bits in a mask and its bits outside. -/
theorem eq_of_masks {x y m : UInt32} (h : x &&& m = y &&& m) (h' : x &&& ~~~m = y &&& ~~~m) :
    x = y := by
  have hsplit : ∀ z : UInt32, (z &&& m) ||| (z &&& ~~~m) = z := by
    intro z
    apply UInt32.toBitVec_inj.1
    simp only [UInt32.toBitVec_or, UInt32.toBitVec_and, UInt32.toBitVec_not]
    apply BitVec.eq_of_getLsbD_eq
    intro i hi
    simp only [BitVec.getLsbD_or, BitVec.getLsbD_and, BitVec.getLsbD_not, hi, decide_true,
      Bool.true_and]
    cases z.toBitVec.getLsbD i <;> cases m.toBitVec.getLsbD i <;> rfl
  rw [← hsplit x, ← hsplit y, h, h']

theorem or_and_mask (x y m : UInt32) : (x ||| y) &&& m = (x &&& m) ||| (y &&& m) := by
  apply UInt32.toBitVec_inj.1
  simp only [UInt32.toBitVec_and, UInt32.toBitVec_or, BitVec.and_or_distrib_right]

end HaoSys.Lib
