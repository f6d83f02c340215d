import Mathlib

/-!
# Fields of a word

* `mask` — the lowest bits.
* `insert`, `extract` — a field is written at a shift, and read again.
* `extract_insert_self`, `extract_insert_of_disjoint` — a write is read back, and does not touch the
  fields it does not overlap.
-/

namespace Ns2.BitField

variable {w : ℕ}

/-- The lowest `n` bits. -/
def mask (w n : ℕ) : BitVec w := BitVec.ofNat w (2 ^ n - 1)

/-- The word with a field written. -/
def insert (word field : BitVec w) (shift : ℕ) (mask : BitVec w) : BitVec w :=
  ((field &&& mask) <<< shift) ||| (~~~(mask <<< shift) &&& word)

/-- The field that is read; the shift fills in the sign. -/
def extract (word : BitVec w) (shift : ℕ) (mask : BitVec w) : BitVec w :=
  word.sshiftRight shift &&& mask

theorem getLsbD_mask (n k : ℕ) : (mask w n).getLsbD k = (decide (k < w) && decide (k < n)) := by
  rw [mask, BitVec.getLsbD_ofNat, Nat.testBit_two_pow_sub_one]

theorem toNat_and_mask (v : BitVec w) {n : ℕ} (hn : n ≤ w) :
    (v &&& mask w n).toNat = v.toNat % 2 ^ n := by
  have hpow : 2 ^ n ≤ 2 ^ w := Nat.pow_le_pow_right (by decide) hn
  have hpos : 0 < 2 ^ n := by positivity
  rw [BitVec.toNat_and, mask, BitVec.toNat_ofNat, Nat.mod_eq_of_lt (by omega),
    Nat.and_two_pow_sub_one_eq_mod]

variable {word field : BitVec w} {shift shift' n n' : ℕ}

theorem getLsbD_extract (h : shift + n ≤ w) (k : ℕ) :
    (extract word shift (mask w n)).getLsbD k = (decide (k < n) && word.getLsbD (shift + k)) := by
  rw [extract, BitVec.getLsbD_and, getLsbD_mask, BitVec.getLsbD_sshiftRight]
  by_cases hk : k < n
  · have hin : shift + k < w := by omega
    simp [hk, hin, show k < w by omega]
  · simp [hk]

theorem getLsbD_insert (h : shift + n ≤ w) (k : ℕ) :
    (insert word field shift (mask w n)).getLsbD k =
      if shift ≤ k ∧ k < shift + n then field.getLsbD (k - shift) else word.getLsbD k := by
  rw [insert, BitVec.getLsbD_or, BitVec.getLsbD_shiftLeft, BitVec.getLsbD_and, BitVec.getLsbD_and,
    BitVec.getLsbD_not, BitVec.getLsbD_shiftLeft, getLsbD_mask]
  by_cases hlow : shift ≤ k
  · by_cases hhigh : k < shift + n
    · simp [hlow, hhigh, show k < w by omega, show k - shift < w by omega,
        show k - shift < n by omega, show ¬ k < shift by omega]
    · have hout : ¬ k - shift < n := by omega
      by_cases hw : k < w
      · simp [hhigh, hout, hw]
      · simp [hhigh, hw, BitVec.getLsbD_of_ge word k (by omega)]
  · have hk : k < shift := by omega
    simp [hlow, hk, show k < w by omega]

/-- A field is read as it was written, up to its mask. -/
theorem extract_insert_self (h : shift + n ≤ w) :
    extract (insert word field shift (mask w n)) shift (mask w n) = field &&& mask w n := by
  refine BitVec.eq_of_getLsbD_eq fun k hk => ?_
  rw [getLsbD_extract h, getLsbD_insert h, BitVec.getLsbD_and, getLsbD_mask]
  by_cases hn : k < n
  · rw [if_pos ⟨by omega, by omega⟩, Nat.add_sub_cancel_left]
    simp [hn, hk]
  · simp [hn]

/-- A field that does not overlap stays as it is. -/
theorem extract_insert_of_disjoint (h : shift + n ≤ w) (h' : shift' + n' ≤ w)
    (hdis : shift + n ≤ shift' ∨ shift' + n' ≤ shift) :
    extract (insert word field shift' (mask w n')) shift (mask w n) =
      extract word shift (mask w n) := by
  refine BitVec.eq_of_getLsbD_eq fun k _ => ?_
  rw [getLsbD_extract h, getLsbD_extract h, getLsbD_insert h']
  by_cases hn : k < n
  · rw [if_neg (by omega)]
  · simp [hn]

end Ns2.BitField
