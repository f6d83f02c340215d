import Mathlib

/-!
# Masks made by shifting the sign bit

Shifting the constant `0x80000000` to the right as a signed number copies its
sign bit, and the copies are a mask of the high bits.  That works where the
constant is negative, on 32 bits; on 64 bits it is positive and there is
nothing to copy.

* `signMask w n` — `0x80000000` as a signed number of `w` bits, shifted right
  by `n - 1`.
* `getLsbD_signMask_32` — on 32 bits: the `n` high bits.
* `getLsbD_signMask_64` — on 64 bits: bit `32 - n` alone.
-/

/-- `0x80000000`, a signed number of `w` bits, shifted right by `n - 1`. -/
def signMask (w n : ℕ) : BitVec w := (BitVec.ofNat w 0x80000000).sshiftRight (n - 1)

variable {n : ℕ}

/-- The bits of the constant. -/
theorem getLsbD_signBit (w j : ℕ) :
    (BitVec.ofNat w 0x80000000).getLsbD j = (decide (j < w) && decide (j = 31)) := by
  rw [BitVec.getLsbD_ofNat]
  congr 1
  rw [show (0x80000000 : ℕ) = 2 ^ 31 by norm_num, Nat.testBit_two_pow]
  simp only [eq_comm]

/-- **On 32 bits the mask holds the `n` high bits.** -/
theorem getLsbD_signMask_32 (h1 : 1 ≤ n) (hn : n ≤ 32) (j : ℕ) :
    (signMask 32 n).getLsbD j = (decide (32 - n ≤ j) && decide (j < 32)) := by
  unfold signMask
  have hmsb : (BitVec.ofNat 32 0x80000000).msb = true := by decide
  rw [BitVec.getLsbD_sshiftRight, hmsb, getLsbD_signBit, Bool.eq_iff_iff]
  by_cases hj : 32 ≤ j
  · simp [hj]
  · by_cases hs : n - 1 + j < 32
    · simp [hj, hs]
      omega
    · simp [hj, hs]
      omega

/-- **On 64 bits the mask is a single bit.** -/
theorem getLsbD_signMask_64 (h1 : 1 ≤ n) (hn : n ≤ 32) (j : ℕ) :
    (signMask 64 n).getLsbD j = decide (j = 32 - n) := by
  unfold signMask
  have hmsb : (BitVec.ofNat 64 0x80000000).msb = false := by decide
  rw [BitVec.getLsbD_sshiftRight, hmsb, getLsbD_signBit, Bool.eq_iff_iff]
  by_cases hj : 64 ≤ j
  · simp [hj]
    omega
  · by_cases hs : n - 1 + j < 64
    · simp [hj, hs]
      omega
    · simp [hj, hs]
      omega
