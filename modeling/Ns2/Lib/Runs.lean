import Mathlib.Order.Interval.Set.Basic
import Mathlib.Tactic

/-!
# Maximal runs of a set of integers

A run is a half-open interval `[l, r)` that lies in a set, and is maximal: neither the
number before it nor the number after it is in the set.

* `IsRun` — the definition.
* `IsRun.unique`, `IsRun.apart` — two runs are equal, or there is a gap between them.
* `IsRun.insert` — a run stays one when a number is added that does not touch it.
* `IsRun.covered_or` — when any number is added, a run is part of the run of that number,
  or stays one.
-/

namespace Runs

/-- `[l, r)` is a maximal run of `S`. -/
structure IsRun (S : Set ℤ) (l r : ℤ) : Prop where
  /-- It is not empty. -/
  lt : l < r
  /-- It lies in the set. -/
  sub : ∀ i, l ≤ i → i < r → i ∈ S
  /-- The number before is not in the set. -/
  before : l - 1 ∉ S
  /-- The number after is not in the set. -/
  after : r ∉ S

variable {S : Set ℤ} {l r l' r' x : ℤ}

namespace IsRun

/-- Two runs with a number in common start at the same number. -/
theorem left_le (h : IsRun S l r) (h' : IsRun S l' r') (hx : l ≤ x ∧ x < r)
    (hx' : l' ≤ x ∧ x < r') : l' ≤ l := by
  by_contra hlt
  exact h'.before (h.sub (l' - 1) (by omega) (by omega))

/-- Two runs with a number in common end at the same number. -/
theorem right_le (h : IsRun S l r) (h' : IsRun S l' r') (hx : l ≤ x ∧ x < r)
    (hx' : l' ≤ x ∧ x < r') : r ≤ r' := by
  by_contra hlt
  exact h'.after (h.sub r' (by omega) (by omega))

/-- There is only one run with a given number. -/
theorem unique (h : IsRun S l r) (h' : IsRun S l' r') (hx : l ≤ x ∧ x < r)
    (hx' : l' ≤ x ∧ x < r') : l = l' ∧ r = r' :=
  ⟨le_antisymm (h'.left_le h hx' hx) (h.left_le h' hx hx'),
    le_antisymm (h.right_le h' hx hx') (h'.right_le h hx' hx)⟩

/-- Two runs that are not the same have a gap between them. -/
theorem apart (h : IsRun S l r) (h' : IsRun S l' r') (hne : ¬ (l = l' ∧ r = r')) :
    r < l' ∨ r' < l := by
  have hlt := h.lt
  have hlt' := h'.lt
  by_contra hnot
  push Not at hnot
  obtain ⟨h1, h2⟩ := hnot
  rcases lt_or_eq_of_le h1 with hlt1 | heq1
  · rcases lt_or_eq_of_le h2 with hlt2 | heq2
    · exact hne (h.unique h' (x := max l l') (by omega) (by omega))
    · exact h'.after (heq2 ▸ h.sub l le_rfl hlt)
  · exact h.after (heq1 ▸ h'.sub l' le_rfl hlt')

/-- A number that does not touch the run is added. -/
theorem insert (h : IsRun S l r) (hl : x ≠ l - 1) (hr : x ≠ r) : IsRun (insert x S) l r where
  lt := h.lt
  sub i h1 h2 := Set.mem_insert_of_mem x (h.sub i h1 h2)
  before := by
    rintro (heq | hmem)
    · exact hl heq.symm
    · exact h.before hmem
  after := by
    rintro (heq | hmem)
    · exact hr heq.symm
    · exact h.after hmem

/-- When a number is added, a run is part of the run of that number or stays one. -/
theorem covered_or (h : IsRun S l r) (h' : IsRun (Insert.insert x S) l' r')
    (hx : l' ≤ x ∧ x < r') : (l' ≤ l ∧ r ≤ r') ∨ IsRun (Insert.insert x S) l r := by
  have hlt := h.lt
  by_cases htouch : x = l - 1 ∨ x = r
  · left
    have hsub : ∀ i, l ≤ i → i < r → i ∈ Insert.insert x S := fun i h1 h2 =>
      Set.mem_insert_of_mem x (h.sub i h1 h2)
    have hbefore := h'.before
    have hafter := h'.after
    rcases htouch with rfl | rfl
    · refine ⟨by omega, ?_⟩
      by_contra hlong
      exact hafter (hsub r' (by omega) (by omega))
    · refine ⟨?_, by omega⟩
      by_contra hlong
      exact hbefore (hsub (l' - 1) (by omega) (by omega))
  · push Not at htouch
    exact Or.inr (h.insert htouch.1 htouch.2)

end IsRun

end Runs
