import Mathlib

/-!
# A window of an endless array, kept in a ring of any size

The entries of an array over the integers, from `lo` to before `hi`, fit into a ring of `n` slots
if there are no more than that: entry `i` is in the slot `i.tmod n`, with the remainder that C
computes.

* `index_mem` — the slot of a number that is not negative is one of the ring.
* `index_inj` — two entries of a window that fits do not share a slot.
* `Window` — the slots hold the entries of an array from `lo` to before `hi`.
* `Window.set`, `Window.push` — an entry is changed, added at the end.
* `Window.away` — a slot of no entry is written to.
* `Window.drop` — entries at the start are forgotten.
* `copy`, `Window.copy` — a stretch of the array is copied to a ring of another size.
-/

namespace ModRing

variable {β : Type*} {n m lo hi i j : ℤ} {slots new : ℤ → β} {v v' : ℤ → β}

theorem index_mem (hn : 0 < n) (hi : 0 ≤ i) : 0 ≤ i.tmod n ∧ i.tmod n < n :=
  ⟨Int.tmod_nonneg n hi, Int.tmod_lt_of_pos i hn⟩

/-- The slot of -1 is none, in a ring with more than one slot. -/
theorem index_neg_one (hn : 1 < n) : (-1 : ℤ).tmod n = -1 := by
  rw [Int.neg_tmod, Int.tmod_eq_of_lt zero_le_one hn]

/-- Entries that are closer than the size of the ring do not share a slot. -/
theorem index_inj (hlo : 0 ≤ lo) (hi : lo ≤ i) (hi' : i < lo + n) (hj : lo ≤ j) (hj' : j < lo + n)
    (heq : i.tmod n = j.tmod n) : i = j := by
  rw [Int.tmod_eq_emod_of_nonneg (by omega), Int.tmod_eq_emod_of_nonneg (by omega)] at heq
  have hdvd : n ∣ i - j := Int.ModEq.dvd heq.symm
  have hzero := Int.eq_zero_of_abs_lt_dvd hdvd (by rw [abs_lt]; omega)
  omega

/-- The slots hold the entries `v` from `lo` to before `hi`, and there are enough of them. -/
structure Window (n : ℤ) (slots : ℤ → β) (lo hi : ℤ) (v : ℤ → β) : Prop where
  /-- The entries have slots. -/
  nonneg : 0 ≤ lo
  /-- There are enough slots. -/
  fits : hi ≤ lo + n
  /-- Each entry is in its slot. -/
  entry : ∀ i, lo ≤ i → i < hi → slots (i.tmod n) = v i

namespace Window

theorem congr (h : Window n slots lo hi v) (hv : ∀ i, lo ≤ i → i < hi → v i = v' i) :
    Window n slots lo hi v' :=
  ⟨h.nonneg, h.fits, fun i h1 h2 => (h.entry i h1 h2).trans (hv i h1 h2)⟩

/-- Entries at the start are forgotten. -/
theorem drop {lo' : ℤ} (h : Window n slots lo hi v) (hlo : lo ≤ lo') : Window n slots lo' hi v :=
  ⟨h.nonneg.trans hlo, by have := h.fits; omega, fun i h1 h2 => h.entry i (hlo.trans h1) h2⟩

/-- An entry of the window is changed. -/
theorem set (h : Window n slots lo hi v) (hi₁ : lo ≤ i) (hi₂ : i < hi) (b : β) :
    Window n (Function.update slots (i.tmod n) b) lo hi (Function.update v i b) := by
  refine ⟨h.nonneg, h.fits, ?_⟩
  intro j h1 h2
  have hfits := h.fits
  by_cases hji : j = i
  · subst hji
    rw [Function.update_self, Function.update_self]
  · have hslot : j.tmod n ≠ i.tmod n := fun heq =>
      hji (index_inj h.nonneg h1 (by omega) hi₁ (by omega) heq)
    rw [Function.update_of_ne hslot, Function.update_of_ne hji]
    exact h.entry j h1 h2

/-- What is written to a slot of no entry does not matter. -/
theorem away {k : ℤ} (h : Window n slots lo hi v) (hk : ∀ i, lo ≤ i → i < hi → i.tmod n ≠ k)
    (b : β) : Window n (Function.update slots k b) lo hi v := by
  refine ⟨h.nonneg, h.fits, ?_⟩
  intro i h1 h2
  rw [Function.update_of_ne (hk i h1 h2)]
  exact h.entry i h1 h2

/-- An entry is added at the end. -/
theorem push (h : Window n slots lo hi v) (hle : lo ≤ hi) (hroom : hi < lo + n) (b : β) :
    Window n (Function.update slots (hi.tmod n) b) lo (hi + 1) (Function.update v hi b) := by
  have hext : Window n slots lo (hi + 1) (Function.update v hi (slots (hi.tmod n))) := by
    refine ⟨h.nonneg, by omega, ?_⟩
    intro i h1 h2
    by_cases hend : i = hi
    · subst hend
      rw [Function.update_self]
    · rw [Function.update_of_ne hend]
      exact h.entry i h1 (by omega)
  simpa using hext.set hle (lt_add_one hi) b

end Window

/-- `k` entries from `a` on are copied from a ring of `n` slots to one of `m` slots. -/
def copy (n m a : ℤ) (slots : ℤ → β) (k : ℕ) (new : ℤ → β) : ℤ → β :=
  (List.range k).foldl
    (fun t (i : ℕ) => Function.update t ((a + i).tmod m) (slots ((a + i).tmod n))) new

theorem copy_succ {a : ℤ} {k : ℕ} : copy n m a slots (k + 1) new =
    Function.update (copy n m a slots k new) ((a + k).tmod m) (slots ((a + k).tmod n)) := by
  rw [copy, List.range_succ, List.foldl_concat, copy]

/-- The entries that were copied are where they belong. -/
theorem copy_apply {a : ℤ} {k : ℕ} (ha : 0 ≤ a) (hk : k ≤ m) (hi : a ≤ i) (hi' : i < a + k) :
    copy n m a slots k new (i.tmod m) = slots (i.tmod n) := by
  induction k with
  | zero => omega
  | succ k ih =>
    push_cast at hk hi'
    rw [copy_succ]
    by_cases hend : i = a + k
    · subst hend
      rw [Function.update_self]
    · have hslot : i.tmod m ≠ (a + k).tmod m := fun heq =>
        hend (index_inj ha hi (by omega) (by omega) (by omega) heq)
      rw [Function.update_of_ne hslot]
      exact ih (by omega) (by omega)

/-- A window within the stretch that was copied. -/
theorem Window.copy {a : ℤ} {k : ℕ} (h : Window n slots lo hi v) (ha : 0 ≤ a) (hlo : a ≤ lo)
    (hhi : hi ≤ a + k) (hk : k ≤ m) : Window m (ModRing.copy n m a slots k new) lo hi v := by
  refine ⟨h.nonneg, by omega, ?_⟩
  intro i h1 h2
  rw [copy_apply ha hk (by omega) (by omega)]
  exact h.entry i h1 h2

end ModRing
