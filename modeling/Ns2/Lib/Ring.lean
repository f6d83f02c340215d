import Mathlib

/-!
# A window of an endless array, kept in a ring

The entries of an endless array from `lo` to `hi` fit into an array of `2 ^ k` slots if
there are no more than that: entry `i` is in the slot `i &&& (2 ^ k - 1)`.

* `IsMask` — a mask with all bits set below some bit.
* `slot_inj` — two entries of a window that fits do not share a slot.
* `Window` — the slots hold the entries of an array from `lo` to `hi`.
* `Window.set`, `Window.push`, `Window.fill` — an entry is changed, added at the end, many
  are added.
* `Window.drop`, `Window.take` — entries at the start or at the end are forgotten.
* `Window.copy` — the entries are copied to a ring of another size.
-/

namespace Ring

/-- All bits below some bit. -/
def IsMask (mask : ℕ) : Prop := ∃ k, mask + 1 = 2 ^ k

theorem IsMask.double {mask : ℕ} (h : IsMask mask) : IsMask ((mask + 1) * 2 - 1) := by
  obtain ⟨k, hk⟩ := h
  refine ⟨k + 1, ?_⟩
  rw [pow_succ, ← hk]
  omega

theorem IsMask.and_eq {mask : ℕ} (h : IsMask mask) (i : ℕ) : i &&& mask = i % (mask + 1) := by
  obtain ⟨k, hk⟩ := h
  rw [hk, ← Nat.and_two_pow_sub_one_eq_mod, ← hk, Nat.add_sub_cancel]

/-- Entries that are closer than the size of the ring do not share a slot. -/
theorem slot_inj {mask lo i j : ℕ} (h : IsMask mask) (hi : lo ≤ i) (hi' : i ≤ lo + mask)
    (hj : lo ≤ j) (hj' : j ≤ lo + mask) (heq : i &&& mask = j &&& mask) : i = j := by
  rw [h.and_eq, h.and_eq] at heq
  wlog hij : i ≤ j generalizing i j
  · exact (this hj hj' hi hi' heq.symm (by omega)).symm
  have hdvd : mask + 1 ∣ j - i := (Nat.modEq_iff_dvd' hij).mp heq
  have hzero := Nat.eq_zero_of_dvd_of_lt hdvd (by omega)
  omega

variable {β : Type*}

/-- The slots hold the entries `v` from `lo` to `hi`, and there are enough of them. -/
structure Window (mask : ℕ) (seen : ℕ → β) (lo hi : ℕ) (v : ℕ → β) : Prop where
  /-- The slots are told apart by a mask. -/
  isMask : IsMask mask
  /-- There are enough slots. -/
  fits : hi ≤ lo + mask
  /-- Each entry is in its slot. -/
  entry : ∀ i, lo ≤ i → i ≤ hi → seen (i &&& mask) = v i

namespace Window

variable {mask lo hi : ℕ} {seen : ℕ → β} {v v' : ℕ → β}

theorem congr (h : Window mask seen lo hi v) (hv : ∀ i, lo ≤ i → i ≤ hi → v i = v' i) :
    Window mask seen lo hi v' :=
  ⟨h.isMask, h.fits, fun i h1 h2 => (h.entry i h1 h2).trans (hv i h1 h2)⟩

/-- Entries at the start are forgotten. -/
theorem drop {lo' : ℕ} (h : Window mask seen lo hi v) (hlo : lo ≤ lo') :
    Window mask seen lo' hi v :=
  ⟨h.isMask, by have := h.fits; omega, fun i h1 h2 => h.entry i (hlo.trans h1) h2⟩

/-- Entries at the end are forgotten. -/
theorem take {hi' : ℕ} (h : Window mask seen lo hi v) (hhi : hi' ≤ hi) :
    Window mask seen lo hi' v :=
  ⟨h.isMask, hhi.trans h.fits, fun i h1 h2 => h.entry i h1 (h2.trans hhi)⟩

/-- An entry of the window is changed. -/
theorem set (h : Window mask seen lo hi v) {i : ℕ} (hi₁ : lo ≤ i) (hi₂ : i ≤ hi) (b : β) :
    Window mask (Function.update seen (i &&& mask) b) lo hi (Function.update v i b) := by
  refine ⟨h.isMask, h.fits, fun j h1 h2 => ?_⟩
  have hfits := h.fits
  by_cases hji : j = i
  · subst hji
    rw [Function.update_self, Function.update_self]
  · have hslot : j &&& mask ≠ i &&& mask := fun heq =>
      hji (slot_inj h.isMask h1 (by omega) hi₁ (by omega) heq)
    rw [Function.update_of_ne hslot, Function.update_of_ne hji]
    exact h.entry j h1 h2

/-- An entry is added at the end. -/
theorem push (h : Window mask seen lo hi v) (hroom : hi + 1 ≤ lo + mask) (hle : lo ≤ hi + 1)
    (b : β) :
    Window mask (Function.update seen ((hi + 1) &&& mask) b) lo (hi + 1)
      (Function.update v (hi + 1) b) := by
  have hext : Window mask seen lo (hi + 1) (Function.update v (hi + 1) (seen ((hi + 1) &&& mask))) := by
    refine ⟨h.isMask, hroom, fun i h1 h2 => ?_⟩
    by_cases hend : i = hi + 1
    · subst hend
      rw [Function.update_self]
    · rw [Function.update_of_ne hend]
      exact h.entry i h1 (by omega)
  simpa using hext.set hle le_rfl b

/-- `n` entries are added at the end, all of them `b`. -/
theorem fill (h : Window mask seen lo hi v) (hle : lo ≤ hi + 1) (b : β) (n : ℕ)
    (hroom : hi + n ≤ lo + mask) :
    Window mask ((List.range' (hi + 1) n).foldl (fun f i => Function.update f (i &&& mask) b) seen)
      lo (hi + n) (fun i => if hi < i then b else v i) := by
  induction n with
  | zero =>
    refine h.congr fun i _ h2 => ?_
    rw [if_neg (by omega)]
  | succ n ih =>
    rw [List.range'_concat, List.foldl_append]
    simp only [List.foldl_cons, List.foldl_nil, one_mul]
    have hstep := (ih (by omega)).push (by omega) (by omega) b
    rw [show hi + 1 + n = hi + n + 1 by omega]
    refine hstep.congr fun i _ h2 => ?_
    by_cases hend : i = hi + n + 1
    · subst hend
      rw [Function.update_self, if_pos (by omega)]
    · rw [Function.update_of_ne hend]

/-- The entries are copied to another ring that is large enough. -/
theorem copy {mask' : ℕ} (h : Window mask seen lo hi v) (hmask : IsMask mask')
    (hroom : hi ≤ lo + mask') (b : β) :
    Window mask' ((List.range' lo (hi + 1 - lo)).foldl
      (fun f i => Function.update f (i &&& mask') (seen (i &&& mask))) fun _ => b) lo hi v := by
  -- the first `n` entries are copied
  have hcopied : ∀ n, lo + n ≤ hi + 1 → ∀ i, lo ≤ i → i < lo + n →
      (List.range' lo n).foldl (fun f i => Function.update f (i &&& mask') (seen (i &&& mask)))
        (fun _ => b) (i &&& mask') = v i := by
    intro n
    induction n with
    | zero =>
      intro _ i h1 h2
      omega
    | succ n ih =>
      intro hn i h1 h2
      rw [List.range'_concat, List.foldl_append]
      simp only [List.foldl_cons, List.foldl_nil, one_mul]
      by_cases hend : i = lo + n
      · subst hend
        rw [Function.update_self]
        exact h.entry _ h1 (by omega)
      · have hslot : i &&& mask' ≠ (lo + n) &&& mask' := fun heq =>
          hend (slot_inj hmask h1 (by omega) (by omega) (by omega) heq)
        rw [Function.update_of_ne hslot]
        exact ih (by omega) i h1 (by omega)
  exact ⟨hmask, hroom, fun i h1 h2 => hcopied _ (by omega) i h1 (by omega)⟩

end Window

end Ring
