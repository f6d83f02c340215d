import Ns2.Queue.Drr
import Ns2.Queue.Sfq

/-!
# Where the flow hashes point

`DRR::hash` of `queue/drr.cc` and `SFQ::hash` of `queue/sfq.cc` mix the bits of an address and take
remainders that have the sign of the dividend.

* `toInt_mixed` — the mixing as arithmetic: no overflow of 32 bits.
* `tmod_index_iff` — when a remainder is an index.
* `flow_index_iff` — **when both indices lie in the table.**
-/

namespace Ns2.Queue

variable {i x m n : ℤ}

/-- `i + (i >> 8) + ~(i >> 4)`. -/
def mixed (i : ℤ) : ℤ := i + i / 256 - i / 16 - 1

theorem toInt_not (x : BitVec 32) : (~~~x).toInt = -x.toInt - 1 := by
  have := BitVec.toInt_eq_toNat_cond x
  have hlt := x.isLt
  rw [BitVec.toInt_not, Int.bmod_def]
  split_ifs at * <;> omega

/-- The sums have no overflow. -/
theorem toInt_mixed (x : BitVec 32) :
    (x + x.sshiftRight 8 + ~~~x.sshiftRight 4).toInt = mixed x.toInt := by
  have hlo := BitVec.le_toInt x
  have hhi := BitVec.toInt_lt (x := x)
  have h8 : x.toInt >>> (8 : ℕ) = x.toInt / 256 := Int.shiftRight_eq_div_pow _ _
  have h4 : x.toInt >>> (4 : ℕ) = x.toInt / 16 := Int.shiftRight_eq_div_pow _ _
  rw [BitVec.toInt_add, BitVec.toInt_add, toInt_not, BitVec.toInt_sshiftRight,
    BitVec.toInt_sshiftRight, h8, h4, Int.bmod_add_bmod, mixed]
  rw [Int.bmod_eq_of_le (by norm_num at *; omega) (by norm_num at *; omega)]
  ring

theorem mixed_nonneg (h : 0 < i) : 0 ≤ mixed i := by
  unfold mixed
  omega

theorem mixed_neg (h : i ≤ 0) : mixed i < 0 := by
  unfold mixed
  omega

/-- The remainder of a negative number. -/
theorem tmod_of_neg (h : x < 0) : x.tmod m = -(-x % m) := by
  rw [← Int.tmod_eq_emod_of_nonneg (by omega), Int.neg_tmod, neg_neg]

/-- The number of a bucket. -/
def IsIndex (n : ℕ) (i : ℤ) : Prop := 0 ≤ i ∧ i < n

instance (n : ℕ) (i : ℤ) : Decidable (IsIndex n i) := inferInstanceAs (Decidable (_ ∧ _))

/-- A remainder is an index, if it is not one of a negative number, or is zero. -/
theorem tmod_index_iff {n : ℕ} (hn : 1 ≤ n) : IsIndex n (x.tmod n) ↔ 0 ≤ x ∨ (n : ℤ) ∣ x := by
  have hlt : x.tmod n < n := Int.tmod_lt_of_pos x (by omega)
  rcases le_or_gt 0 x with hx | hx
  · exact iff_of_true ⟨Int.tmod_nonneg _ hx, hlt⟩ (Or.inl hx)
  · have hmod := Int.emod_nonneg (-x) (show (n : ℤ) ≠ 0 by omega)
    rw [IsIndex, tmod_of_neg hx, or_iff_right (not_le.mpr hx), ← Int.dvd_neg,
      Int.dvd_iff_emod_eq_zero]
    constructor
    · rintro ⟨hle, -⟩
      omega
    · intro hzero
      omega

/-- The index of `DRR::enque`: the address that is hashed is not negative, or the hash, one more
than a remainder of the mixed address, is positive or a multiple of the number of buckets. -/
def Config.HashesToIndex (c : Config) (pkt : Pkt) : Prop :=
  let r := -mixed (c.addr pkt).toInt % (2 ^ 24 - 1)
  0 ≤ (c.addr pkt).toInt ∨ r = 0 ∨ (c.buckets_ : ℤ) ∣ r - 1

theorem drr_index_iff (c : Config) (pkt : Pkt) (hc : 1 ≤ c.buckets_) :
    IsIndex c.buckets_ ((c.hash pkt).tmod c.buckets_) ↔ c.HashesToIndex pkt := by
  have hhash : c.hash pkt = (mixed (c.addr pkt).toInt).tmod (2 ^ 24 - 1) + 1 := by
    unfold Config.hash
    simp only [toInt_mixed]
    rfl
  unfold Config.HashesToIndex
  rw [tmod_index_iff hc, hhash]
  rcases le_or_gt 0 (c.addr pkt).toInt with hpos | hneg
  · refine iff_of_true (Or.inl ?_) (Or.inl hpos)
    rcases hpos.eq_or_lt with hzero | hpos
    · rw [← hzero]
      decide
    · have := Int.tmod_nonneg (2 ^ 24 - 1) (mixed_nonneg hpos)
      omega
  · have hmod := Int.emod_nonneg (-mixed (c.addr pkt).toInt) (show (2 ^ 24 - 1 : ℤ) ≠ 0 by decide)
    have hflip : -(-mixed (c.addr pkt).toInt % (2 ^ 24 - 1)) + 1 =
        -(-mixed (c.addr pkt).toInt % (2 ^ 24 - 1) - 1) := by ring
    rw [tmod_of_neg (mixed_neg hneg.le), or_iff_right (a := 0 ≤ _) (not_le.mpr hneg), hflip,
      Int.dvd_neg]
    generalize -mixed (c.addr pkt).toInt % (2 ^ 24 - 1) = r at hmod
    constructor
    · rintro (hle | hdvd)
      · rcases hmod.eq_or_lt with hzero | hpos
        · exact Or.inl hzero.symm
        · obtain rfl : r = 1 := by omega
          exact Or.inr (dvd_zero _)
      · exact Or.inr hdvd
    · rintro (rfl | hdvd)
      · exact Or.inl (by decide)
      · exact Or.inr hdvd

/-- The index of `SFQ::enque`: the sum of the addresses, in 32 bits, is positive, or the remainder
of the mixed sum is a multiple of the number of buckets. -/
def SFQ.Config.HashesToIndex (c : SFQ.Config) (pkt : SFQ.Packet) : Prop :=
  0 < (pkt.saddr + pkt.daddr).toInt ∨
    (c.buckets_ : ℤ) ∣ -mixed (pkt.saddr + pkt.daddr).toInt % (2 ^ 20 - 1)

theorem sfq_index_iff (c : SFQ.Config) (pkt : SFQ.Packet) (hc : 1 ≤ c.buckets_) :
    IsIndex c.buckets_ (c.which pkt) ↔ c.HashesToIndex pkt := by
  have hhash : SFQ.hash pkt = (mixed (pkt.saddr + pkt.daddr).toInt).tmod (2 ^ 20 - 1) := by
    unfold SFQ.hash
    simp only [toInt_mixed]
    rfl
  unfold SFQ.Config.HashesToIndex
  rw [SFQ.Config.which, tmod_index_iff hc, hhash]
  rcases lt_or_ge 0 (pkt.saddr + pkt.daddr).toInt with hpos | hneg
  · exact iff_of_true (Or.inl (Int.tmod_nonneg _ (mixed_nonneg hpos))) (Or.inl hpos)
  · have hmod := Int.emod_nonneg (-mixed (pkt.saddr + pkt.daddr).toInt)
      (show (2 ^ 20 - 1 : ℤ) ≠ 0 by decide)
    rw [tmod_of_neg (mixed_neg hneg), or_iff_right (not_lt.mpr hneg), Int.dvd_neg]
    refine or_iff_right_of_imp ?_
    intro hle
    rw [show -mixed (pkt.saddr + pkt.daddr).toInt % (2 ^ 20 - 1) = 0 by omega]
    exact dvd_zero _

/-- **When the flow hashes stay in the table**, for any source and destination. -/
theorem flow_index_iff (saddr daddr : BitVec 32) (uid : ℕ) (size : ℤ) (drr : Config)
    (sfq : SFQ.Config) (hdrr : 1 ≤ drr.buckets_) (hsfq : 1 ≤ sfq.buckets_) :
    (IsIndex drr.buckets_ ((drr.hash ⟨uid, saddr, size⟩).tmod drr.buckets_) ∧
        IsIndex sfq.buckets_ (sfq.which ⟨uid, saddr, daddr⟩)) ↔
      drr.HashesToIndex ⟨uid, saddr, size⟩ ∧ sfq.HashesToIndex ⟨uid, saddr, daddr⟩ :=
  and_congr (drr_index_iff drr _ hdrr) (sfq_index_iff sfq _ hsfq)

theorem flow_index_iff_defaults :
    (IsIndex 10 (((⟨10, 25000, 250, false⟩ : Config).hash ⟨0, 3, 1000⟩).tmod 10) ∧
        IsIndex 16 ((⟨40, 16⟩ : SFQ.Config).which ⟨0, 3, 4⟩)) ↔
      (⟨10, 25000, 250, false⟩ : Config).HashesToIndex ⟨0, 3, 1000⟩ ∧
        (⟨40, 16⟩ : SFQ.Config).HashesToIndex ⟨0, 3, 4⟩ :=
  flow_index_iff 3 4 0 1000 ⟨10, 25000, 250, false⟩ ⟨40, 16⟩ (by decide) (by decide)

/-- A source address with the first bit set, and a source and a destination with the sum zero. -/
theorem not_flow_index :
    ¬ IsIndex 10 (((⟨10, 25000, 250, false⟩ : Config).hash ⟨0, 0x80000000, 1000⟩).tmod 10) ∧
      ¬ IsIndex 16 ((⟨40, 16⟩ : SFQ.Config).which ⟨0, 0, 0⟩) := by
  decide

end Ns2.Queue
