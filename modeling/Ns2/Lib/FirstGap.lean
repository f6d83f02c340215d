import Mathlib

/-!
# The first gap of a set of integers

A cumulative acknowledgment names the first number that has *not* been seen.
This file gives that number a name and the few facts a receiver needs about it.

* `IsFirstGap b S n` — `n` is the smallest integer `≥ b` outside `S`.
* `IsFirstGap.unique`, `IsFirstGap.mono` — there is at most one, and it only
  moves up when the set grows.
* `IsFirstGap.union_of_notMem` and `IsFirstGap.union_Ico` — how it moves when a
  half-open range is added: not at all when the range misses it, and to the end
  of the range when the range holds it and nothing follows on.
-/

/-- `n` is the smallest integer that is at least `b` and not in `S`. -/
structure IsFirstGap (b : ℤ) (S : Set ℤ) (n : ℤ) : Prop where
  /-- The gap is not below the base. -/
  base_le : b ≤ n
  /-- The gap really is one. -/
  notMem : n ∉ S
  /-- Everything between the base and the gap is there. -/
  mem_of_lt : ∀ x, b ≤ x → x < n → x ∈ S

namespace IsFirstGap

variable {b m n : ℤ} {S T : Set ℤ}

/-- A larger set has a later first gap. -/
theorem mono (hm : IsFirstGap b S m) (hn : IsFirstGap b T n)
    (hST : ∀ x, b ≤ x → x ∈ S → x ∈ T) : m ≤ n := by
  by_contra hlt
  have hnm : n < m := not_le.mp hlt
  exact hn.notMem (hST n hn.base_le (hm.mem_of_lt n hn.base_le hnm))

theorem unique (hm : IsFirstGap b S m) (hn : IsFirstGap b S n) : m = n :=
  le_antisymm (hm.mono hn fun _ _ h => h) (hn.mono hm fun _ _ h => h)

/-- Sets that agree from the base on have the same first gap. -/
theorem congr (hm : IsFirstGap b S m) (h : ∀ x, b ≤ x → (x ∈ S ↔ x ∈ T)) : IsFirstGap b T m :=
  ⟨hm.base_le, fun hT => hm.notMem ((h m hm.base_le).mpr hT),
    fun x hb hx => (h x hb).mp (hm.mem_of_lt x hb hx)⟩

/-- With nothing in the set the first gap is the base. -/
theorem empty (b : ℤ) : IsFirstGap b ∅ b :=
  ⟨le_refl b, fun h => h, fun _ hb hx => absurd hx (not_lt.mpr hb)⟩

/-- Adding numbers other than the gap leaves it where it is. -/
theorem union_of_notMem (hm : IsFirstGap b S m) (h : m ∉ T) : IsFirstGap b (S ∪ T) m :=
  ⟨hm.base_le, fun hu => hu.elim hm.notMem h, fun x hb hx => Or.inl (hm.mem_of_lt x hb hx)⟩

/-- Adding a range that reaches the gap moves it to the end of the range, as
long as nothing already there follows on. -/
theorem union_Ico (hm : IsFirstGap b S m) {s e : ℤ} (hs : s ≤ m) (he : m ≤ e) (hne : e ∉ S) :
    IsFirstGap b (S ∪ Set.Ico s e) e := by
  refine ⟨hm.base_le.trans he, ?_, ?_⟩
  · rintro (h | h)
    · exact hne h
    · exact lt_irrefl e h.2
  · intro x hb hx
    rcases lt_or_ge x m with hlt | hge
    · exact Or.inl (hm.mem_of_lt x hb hlt)
    · exact Or.inr ⟨hs.trans hge, hx⟩

/-- The converse of `union_Ico`: if the gap of the enlarged set is the end of
the added range, the range reached the old gap and nothing followed on. -/
theorem of_union_Ico (hm : IsFirstGap b S m) {s e : ℤ} (hse : s ≤ e)
    (h : IsFirstGap b (S ∪ Set.Ico s e) e) : s ≤ m ∧ m ≤ e ∧ e ∉ S := by
  have hme : m ≤ e := hm.mono h fun _ _ hx => Or.inl hx
  refine ⟨?_, hme, fun he => h.notMem (Or.inl he)⟩
  rcases eq_or_lt_of_le hme with rfl | hlt
  · exact hse
  · rcases h.mem_of_lt m hm.base_le hlt with hS | hI
    · exact absurd hS hm.notMem
    · exact hI.1

end IsFirstGap
