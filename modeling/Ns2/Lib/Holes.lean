import Ns2.Lib.Intervals

/-!
# Holes between intervals

The first number from a given one on that a sorted list of separated intervals does not hold,
or that ends one of them, with the intervals after it.

* `hole` — the search.
* `hole_notMem` — what it finds is in no interval.
* `hole_isLeast`, `hole_filter` — it is the first such number, and what comes after it.
* `hole_isSome_iff` — there is a hole unless the number is after all intervals.
* `hole_mono` — from a later number on, there are no more intervals after the hole.
-/

namespace Intervals

variable {α : Type*} {lo hi : α → ℤ} {xs ys ys' : List α} {s s' h h' : ℤ} {x : α}

/-- The first hole from `s` on, and the intervals after it. -/
def hole (lo hi : α → ℤ) (s : ℤ) : List α → Option (ℤ × List α)
  | [] => none
  | x :: xs =>
    if lo x > s then some (s, x :: xs)
    else if lo x ≤ s ∧ hi x ≥ s then some (hi x, xs)
    else hole lo hi s xs

/-- The hole is not before `s`, and the intervals after it are the last ones. -/
theorem hole_suffix (h : hole lo hi s xs = some (h', ys)) :
    s ≤ h' ∧ ∃ pre, xs = pre ++ ys := by
  induction xs with
  | nil => cases h
  | cons x xs ih =>
    unfold hole at h
    split at h
    · cases h
      exact ⟨le_rfl, [], rfl⟩
    · split at h
      · rename_i hin
        cases h
        exact ⟨hin.2, [x], rfl⟩
      · obtain ⟨hle, pre, hpre⟩ := ih h
        exact ⟨hle, x :: pre, by rw [hpre]; rfl⟩

/-- The intervals after the hole start after it. -/
theorem hole_lt (hs : Separated lo hi xs) (h : hole lo hi s xs = some (h', ys)) :
    ∀ y ∈ ys, h' < lo y := by
  induction xs with
  | nil => cases h
  | cons x xs ih =>
    unfold hole at h
    split at h
    · rename_i hlt
      cases h
      exact fun y hy => lt_of_lt_of_le hlt (hs.lo_head_le hy)
    · split at h
      · cases h
        exact fun y hy => (List.pairwise_cons.mp hs.gap).1 y hy
      · exact ih (hs.sublist (List.sublist_cons_self x xs)) h

/-- The hole is in no interval. -/
theorem hole_notMem (hs : Separated lo hi xs) (h : hole lo hi s xs = some (h', ys)) :
    h' ∉ cover lo hi xs := by
  induction xs with
  | nil => cases h
  | cons x xs ih =>
    unfold hole at h
    split at h
    · rename_i hlt
      cases h
      rintro ⟨y, hy, hle, -⟩
      have := hs.lo_head_le hy
      omega
    · split at h
      · cases h
        exact hs.hi_notMem_cover List.mem_cons_self
      · rename_i hafter hnot
        have hsub := hs.sublist (List.sublist_cons_self x xs)
        have hpast : hi x < s := by omega
        have hge := (hole_suffix h).1
        rintro ⟨y, hy, hle, hlt⟩
        rcases List.mem_cons.mp hy with rfl | hy
        · omega
        · exact ih hsub h ⟨y, hy, hle, hlt⟩

/-- The hole is the first number from `s` on that is in no interval. -/
theorem hole_isLeast (hs : Separated lo hi xs) (h : hole lo hi s xs = some (h', ys)) :
    IsLeast {n | s ≤ n ∧ n ∉ cover lo hi xs} h' := by
  refine ⟨⟨(hole_suffix h).1, hole_notMem hs h⟩, ?_⟩
  induction xs with
  | nil => cases h
  | cons x xs ih =>
    intro n hn
    rw [Set.mem_ofPred_eq, cover_cons, Set.mem_union, not_or] at hn
    unfold hole at h
    split at h
    · cases h
      exact hn.1
    · split at h
      · rename_i hin
        cases h
        by_contra hlt
        exact hn.2.1 ⟨by omega, by omega⟩
      · exact ih (hs.sublist (List.sublist_cons_self x xs)) h ⟨hn.1, hn.2.2⟩

/-- The intervals after the hole are those that start after it. -/
theorem hole_filter (hs : Separated lo hi xs) (h : hole lo hi s xs = some (h', ys)) :
    ys = xs.filter fun x => decide (h' < lo x) := by
  have hafter := hole_lt hs h
  induction xs with
  | nil => cases h
  | cons x xs ih =>
    have hpos := hs.pos x List.mem_cons_self
    unfold hole at h
    split at h
    · cases h
      exact (List.filter_eq_self.mpr fun y hy => decide_eq_true (hafter y hy)).symm
    · split at h
      · cases h
        rw [List.filter_cons_of_neg (by simpa using hpos.le)]
        exact (List.filter_eq_self.mpr fun y hy => decide_eq_true (hafter y hy)).symm
      · have hge := (hole_suffix h).1
        rw [List.filter_cons_of_neg (by rw [decide_eq_true_eq]; omega)]
        exact ih (hs.sublist (List.sublist_cons_self x xs)) h

/-- There is a hole, unless all intervals end before `s`. -/
theorem hole_isSome_iff : (hole lo hi s xs).isSome ↔ ∃ x ∈ xs, lo x > s ∨ hi x ≥ s := by
  induction xs with
  | nil => simp [hole]
  | cons x xs ih =>
    unfold hole
    rw [List.exists_mem_cons_iff]
    split
    · rename_i hlo
      exact iff_of_true rfl (Or.inl (Or.inl hlo))
    · split
      · rename_i hin
        exact iff_of_true rfl (Or.inl (Or.inr hin.2))
      · rw [ih, or_iff_right]
        omega

/-- From a later number on, the intervals after the hole are among those after the first one,
if there is a hole at all. -/
theorem hole_mono (hs : Separated lo hi xs) (hle : s ≤ s') (h' : hole lo hi s' xs = some (h, ys')) :
    ∃ k ys, hole lo hi s xs = some (k, ys) ∧ ∃ pre, ys = pre ++ ys' := by
  induction xs with
  | nil => cases h'
  | cons x xs ih =>
    unfold hole
    by_cases hbefore : lo x > s
    · rw [if_pos hbefore]
      obtain ⟨-, pre, hpre⟩ := hole_suffix h'
      exact ⟨s, x :: xs, rfl, pre, hpre⟩
    · rw [if_neg hbefore]
      unfold hole at h'
      rw [if_neg (by omega)] at h'
      by_cases hin : lo x ≤ s ∧ hi x ≥ s
      · rw [if_pos hin]
        refine ⟨hi x, xs, rfl, ?_⟩
        split at h'
        · cases h'
          exact ⟨[], rfl⟩
        · exact (hole_suffix h').2
      · rw [if_neg hin]
        rw [if_neg (by omega)] at h'
        exact ih (hs.sublist (List.sublist_cons_self x xs)) h'

end Intervals
