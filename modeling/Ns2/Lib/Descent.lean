import Mathlib

/-!
# Heights in finite acyclic relations

* `height S R x` — the number of elements of `S` that `x` leads to.
* `height_lt` — it falls along the steps that are on no cycle.
-/

namespace Descent

open Classical Relation

variable {α : Type*} {S : Finset α} {R : α → α → Prop} {x y : α}

/-- The number of elements of `S` that `x` leads to. -/
noncomputable def height (S : Finset α) (R : α → α → Prop) (x : α) : ℕ :=
  (S.filter fun y => TransGen R x y).card

theorem height_lt (hxy : R x y) (hy : y ∈ S) (hacyc : ¬ TransGen R y y) :
    height S R y < height S R x := by
  apply Finset.card_lt_card
  rw [Finset.ssubset_iff_of_subset]
  · exact ⟨y, Finset.mem_filter.mpr ⟨hy, .single hxy⟩, fun hmem =>
      hacyc (Finset.mem_filter.mp hmem).2⟩
  · intro z hz
    obtain ⟨hzS, hyz⟩ := Finset.mem_filter.mp hz
    exact Finset.mem_filter.mpr ⟨hzS, .head hxy hyz⟩

end Descent
