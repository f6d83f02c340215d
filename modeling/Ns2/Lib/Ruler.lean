import Mathlib

/-!
# The ruler sequence

The number of times 2 divides 1, 2, 3, ...  Before `2 ^ k` the value `v` comes `2 ^ (k - 1 - v)` times.

* `IsRuler` — a value of the sequence.
* `sum_ruler` — a sum over the sequence, and `sum_ruler_reflect` with the values counted from above.
* `sum_two_pow_testBit` — a number is the sum of its bits.
* `sum_shift` — sums of a periodic function over one period.
-/

namespace Ns2.Ruler

/-- 2 divides `j` exactly `v` times. -/
def IsRuler (j v : ℕ) : Prop := 2 ^ v ∣ j ∧ ¬ 2 ^ (v + 1) ∣ j

variable {j k v v' : ℕ}

theorem IsRuler.unique (h : IsRuler j v) (h' : IsRuler j v') : v = v' := by
  have hle : ∀ {a b}, IsRuler j a → IsRuler j b → a ≤ b := by
    intro a b ha hb
    by_contra hlt
    exact hb.2 ((pow_dvd_pow 2 (by omega)).trans ha.1)
  exact le_antisymm (hle h h') (hle h' h)

theorem IsRuler.lt (h : IsRuler j v) (h0 : 0 < j) (hj : j < 2 ^ k) : v < k := by
  have hle := Nat.le_of_dvd h0 h.1
  exact (Nat.pow_lt_pow_iff_right (by decide)).mp (hle.trans_lt hj)

theorem isRuler_two_pow (k : ℕ) : IsRuler (2 ^ k) k := by
  refine ⟨dvd_rfl, fun h => ?_⟩
  have hle := Nat.le_of_dvd (by positivity) h
  exact absurd ((Nat.pow_le_pow_iff_right (by decide)).mp hle) (by omega)

/-- The sequence after `2 ^ k` starts again. -/
theorem IsRuler.add_two_pow (h : IsRuler j v) (h0 : 0 < j) (hj : j < 2 ^ k) :
    IsRuler (2 ^ k + j) v := by
  have hlt := h.lt h0 hj
  refine ⟨dvd_add (pow_dvd_pow 2 hlt.le) h.1, fun hdvd => h.2 ?_⟩
  exact (Nat.dvd_add_right (pow_dvd_pow 2 hlt)).mp hdvd

/-- **How often each value comes.** -/
theorem sum_ruler {t : ℕ → ℕ} (ht : ∀ j, 0 < j → j < 2 ^ k → IsRuler j (t j)) (h : ℕ → ℕ) :
    ∑ j ∈ Finset.Ico 1 (2 ^ k), h (t j) = ∑ v ∈ Finset.range k, 2 ^ (k - 1 - v) * h v := by
  induction k with
  | zero => rfl
  | succ k ih =>
    have hpos : 0 < 2 ^ k := by positivity
    have hdouble : 2 ^ (k + 1) = 2 ^ k + 2 ^ k := by ring
    have hlow := ih fun j h0 hj => ht j h0 (by omega)
    have hhigh : ∑ j ∈ Finset.Ico (2 ^ k + 1) (2 ^ (k + 1)), h (t j) =
        ∑ j ∈ Finset.Ico 1 (2 ^ k), h (t j) := by
      rw [hdouble, Nat.add_comm (2 ^ k) 1, ← Finset.sum_Ico_add']
      refine Finset.sum_congr rfl fun j hj => ?_
      obtain ⟨h1, h2⟩ := Finset.mem_Ico.mp hj
      have hsame : t (j + 2 ^ k) = t j := by
        have hadd := (ht j h1 (by omega)).add_two_pow h1 h2
        rw [Nat.add_comm] at hadd
        exact (ht _ (by omega) (by omega)).unique hadd
      rw [hsame]
    have hmid : t (2 ^ k) = k := (ht _ hpos (by omega)).unique (isRuler_two_pow k)
    have hsplit : ∑ j ∈ Finset.Ico 1 (2 ^ (k + 1)), h (t j) =
        ∑ j ∈ Finset.Ico 1 (2 ^ k), h (t j) + h (t (2 ^ k)) +
          ∑ j ∈ Finset.Ico (2 ^ k + 1) (2 ^ (k + 1)), h (t j) := by
      rw [← Finset.sum_Ico_succ_top hpos, Finset.sum_Ico_consecutive _ (by omega) (by omega)]
    have hshift : ∀ v ∈ Finset.range k, 2 ^ (k + 1 - 1 - v) * h v = 2 * (2 ^ (k - 1 - v) * h v) := by
      intro v hv
      have hv := Finset.mem_range.mp hv
      rw [show k + 1 - 1 - v = k - 1 - v + 1 by omega, pow_succ]
      ring
    rw [hsplit, hhigh, hmid, hlow, Finset.sum_range_succ, Finset.sum_congr rfl hshift,
      ← Finset.mul_sum]
    simp only [Nat.add_sub_cancel, Nat.sub_self, pow_zero, one_mul]
    ring

/-- The same, with the values counted down from `k - 1`. -/
theorem sum_ruler_reflect {t : ℕ → ℕ} (ht : ∀ j, 0 < j → j < 2 ^ k → IsRuler j (t j)) (h : ℕ → ℕ) :
    ∑ j ∈ Finset.Ico 1 (2 ^ k), h (k - 1 - t j) = ∑ c ∈ Finset.range k, 2 ^ c * h c := by
  rw [sum_ruler ht fun v => h (k - 1 - v)]
  exact Finset.sum_range_reflect (fun c => 2 ^ c * h c) k

/-- The low bits of a number. -/
theorem sum_two_pow_testBit (n k : ℕ) :
    ∑ c ∈ Finset.range k, 2 ^ c * (n.testBit c).toNat = n % 2 ^ k := by
  induction k with
  | zero => simp [Nat.mod_one]
  | succ k ih =>
    rw [Finset.sum_range_succ, ih, Nat.mod_pow_succ, Nat.toNat_testBit]

/-- The sum over a period does not depend on where it starts. -/
theorem sum_shift {f : ℕ → ℕ} {m : ℕ} (hf : ∀ i, f (i + m) = f i) (i : ℕ) :
    ∑ j ∈ Finset.range m, f (i + j) = ∑ j ∈ Finset.range m, f j := by
  induction i with
  | zero => simp
  | succ i ih =>
    rw [← ih]
    have hnext : ∀ j, f (i + 1 + j) = f (i + (j + 1)) := fun j => by rw [Nat.add_right_comm, Nat.add_assoc]
    simp only [hnext]
    have h1 := Finset.sum_range_succ' (fun j => f (i + j)) m
    have h2 := Finset.sum_range_succ (fun j => f (i + j)) m
    rw [h1] at h2
    have h3 := hf i
    dsimp only [Nat.add_zero] at h2
    omega

end Ns2.Ruler
