import Mathlib.Order.Bounds.Basic
import Mathlib.Order.Lattice
import Mathlib.Data.Finset.Max

/-!
# Extrema kept by a loop

A loop that keeps the largest value of `f` it has met, or the smallest, in the way
imperative code does: by a comparison and an assignment.

* `keepMax`, `keepMin` — one turn.
* `isGreatest_foldl`, `isLeast_foldl` — what the loop leaves is the extremum of the values
  met and the one it started with.
-/

namespace Extremum

variable {α β : Type*}

/-- The values of `f` on a list. -/
def values (f : α → β) (l : List α) : Set β := {y | ∃ x ∈ l, y = f x}

theorem values_cons {f : α → β} {x : α} {l : List α} :
    values f (x :: l) = insert (f x) (values f l) := by
  ext y
  simp [values]

@[simp] theorem values_nil {f : α → β} : values f ([] : List α) = ∅ := by
  simp [values]

variable [LinearOrder β] (f : α → β)

/-- `if (m < f(x)) m = f(x);` -/
def keepMax (m : β) (x : α) : β := if m < f x then f x else m

/-- `if (f(x) < m) m = f(x);` -/
def keepMin (m : β) (x : α) : β := if f x < m then f x else m

variable {f} {m : β} {x : α} {l : List α}

theorem keepMax_eq_max : keepMax f m x = max m (f x) := by
  unfold keepMax
  split
  · rename_i h
    exact (max_eq_right h.le).symm
  · rename_i h
    exact (max_eq_left (not_lt.mp h)).symm

theorem keepMin_eq_min : keepMin f m x = min m (f x) := by
  unfold keepMin
  split
  · rename_i h
    exact (min_eq_right h.le).symm
  · rename_i h
    exact (min_eq_left (not_lt.mp h)).symm

/-- The loop leaves the largest of the values met and the one it started with. -/
theorem isGreatest_foldl (l : List α) (m : β) :
    IsGreatest (insert m (values f l)) (l.foldl (keepMax f) m) := by
  induction l generalizing m with
  | nil => simp [isGreatest_singleton]
  | cons x l ih =>
    obtain ⟨hmem, hle⟩ := ih (keepMax f m x)
    rw [keepMax_eq_max] at hmem hle
    rw [List.foldl_cons, keepMax_eq_max, values_cons]
    constructor
    · rcases hmem with hmem | hmem
      · rw [hmem]
        rcases max_choice m (f x) with h | h
        · exact Or.inl h
        · exact Or.inr (Or.inl h)
      · exact Or.inr (Or.inr hmem)
    · rintro y (rfl | rfl | hy)
      · exact (le_max_left _ _).trans (hle (Set.mem_insert _ _))
      · exact (le_max_right _ _).trans (hle (Set.mem_insert _ _))
      · exact hle (Set.mem_insert_of_mem _ hy)

/-- The loop leaves the smallest of the values met and the one it started with. -/
theorem isLeast_foldl (l : List α) (m : β) :
    IsLeast (insert m (values f l)) (l.foldl (keepMin f) m) := by
  induction l generalizing m with
  | nil => simp [isLeast_singleton]
  | cons x l ih =>
    obtain ⟨hmem, hle⟩ := ih (keepMin f m x)
    rw [keepMin_eq_min] at hmem hle
    rw [List.foldl_cons, keepMin_eq_min, values_cons]
    constructor
    · rcases hmem with hmem | hmem
      · rw [hmem]
        rcases min_choice m (f x) with h | h
        · exact Or.inl h
        · exact Or.inr (Or.inl h)
      · exact Or.inr (Or.inr hmem)
    · rintro y (rfl | rfl | hy)
      · exact (hle (Set.mem_insert _ _)).trans (min_le_left _ _)
      · exact (hle (Set.mem_insert _ _)).trans (min_le_right _ _)
      · exact hle (Set.mem_insert_of_mem _ hy)

/-- Values that are met have a largest one. -/
theorem exists_isGreatest (h : l ≠ []) : ∃ y, IsGreatest (values f l) y := by
  obtain ⟨x, l, rfl⟩ := List.exists_cons_of_ne_nil h
  rw [values_cons]
  exact ⟨_, isGreatest_foldl l (f x)⟩

/-- A start that is not above all the values met does not matter. -/
theorem isGreatest_foldl_of_le (h : ∃ x ∈ l, m ≤ f x) :
    IsGreatest (values f l) (l.foldl (keepMax f) m) := by
  obtain ⟨hmem, hle⟩ := isGreatest_foldl (f := f) l m
  obtain ⟨x, hx, hmx⟩ := h
  have hxv : f x ∈ values f l := ⟨x, hx, rfl⟩
  refine ⟨?_, fun y hy => hle (Set.mem_insert_of_mem _ hy)⟩
  rcases hmem with hmem | hmem
  · have hxm : f x ≤ m := hmem ▸ hle (Set.mem_insert_of_mem _ hxv)
    rw [hmem, le_antisymm hmx hxm]
    exact hxv
  · exact hmem

end Extremum
