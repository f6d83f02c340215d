import Mathlib

/-!
# Lists of segments that tile an interval

A list of nodes, each standing for a closed segment `[f x, g x]` of the integers, such that every
segment begins where the one before it has ended.

* `Tiles f g lo l hi` — the segments are not empty and tile `[lo, hi)`.
* `Tiles.append`, `tiles_append` — tilings are put together and taken apart.
* `Tiles.bounds`, `Tiles.eq_of_mem` — each number is in no more than one segment.
* `weight f g P l`, `cells f g P l` — how many numbers, and which, are in the segments with
  property `P`; `Tiles.card_cells` says that the two agree.
* `Tiles.isLeast` — the first segment with a property has the smallest number.
-/

namespace Tiling

variable {α : Type*} (f g : α → ℤ)

/-- The segments tile `[lo, hi)`. -/
def Tiles (lo : ℤ) : List α → ℤ → Prop
  | [], hi => lo = hi
  | x :: l, hi => f x = lo ∧ f x ≤ g x ∧ Tiles (g x + 1) l hi

variable {f g} {P : α → Bool} {l l₁ l₂ : List α} {x y : α} {lo mid hi p : ℤ}

@[simp] theorem tiles_nil : Tiles f g lo [] hi ↔ lo = hi := Iff.rfl

@[simp] theorem tiles_cons :
    Tiles f g lo (x :: l) hi ↔ f x = lo ∧ f x ≤ g x ∧ Tiles f g (g x + 1) l hi := Iff.rfl

theorem Tiles.append (h₁ : Tiles f g lo l₁ mid) (h₂ : Tiles f g mid l₂ hi) :
    Tiles f g lo (l₁ ++ l₂) hi := by
  induction l₁ generalizing lo with
  | nil =>
    obtain rfl : lo = mid := h₁
    exact h₂
  | cons x l₁ ih => exact ⟨h₁.1, h₁.2.1, ih h₁.2.2⟩

theorem tiles_append :
    Tiles f g lo (l₁ ++ l₂) hi ↔ ∃ mid, Tiles f g lo l₁ mid ∧ Tiles f g mid l₂ hi := by
  refine ⟨fun h => ?_, fun ⟨_, h₁, h₂⟩ => h₁.append h₂⟩
  induction l₁ generalizing lo with
  | nil => exact ⟨lo, rfl, h⟩
  | cons x l₁ ih =>
    obtain ⟨mid, h₁, h₂⟩ := ih h.2.2
    exact ⟨mid, ⟨h.1, h.2.1, h₁⟩, h₂⟩

theorem Tiles.le (h : Tiles f g lo l hi) : lo ≤ hi := by
  induction l generalizing lo with
  | nil => exact le_of_eq h
  | cons x l ih =>
    have hrest := ih h.2.2
    have hx := h.2.1
    have hlo := h.1
    omega

theorem Tiles.bounds (h : Tiles f g lo l hi) (hx : x ∈ l) : lo ≤ f x ∧ f x ≤ g x ∧ g x < hi := by
  obtain ⟨l₁, l₂, rfl⟩ := List.append_of_mem hx
  obtain ⟨mid, h₁, hmid, hle, h₂⟩ := tiles_append.mp h
  have hlo := h₁.le
  have hhi := h₂.le
  exact ⟨by omega, hle, by omega⟩

theorem Tiles.lt (h : Tiles f g lo l hi) (hne : l ≠ []) : lo < hi := by
  obtain ⟨x, hx⟩ := List.exists_mem_of_ne_nil l hne
  have hbounds := h.bounds hx
  omega

theorem Tiles.eq_of_mem (h : Tiles f g lo l hi) (hx : x ∈ l) (hy : y ∈ l) (hfx : f x ≤ p)
    (hgx : p ≤ g x) (hfy : f y ≤ p) (hgy : p ≤ g y) : x = y := by
  induction l generalizing lo with
  | nil => cases hx
  | cons z l ih =>
    rcases List.mem_cons.mp hx with rfl | hx'
    · rcases List.mem_cons.mp hy with rfl | hy'
      · rfl
      · have := (h.2.2.bounds hy').1
        omega
    · rcases List.mem_cons.mp hy with rfl | hy'
      · have := (h.2.2.bounds hx').1
        omega
      · exact ih h.2.2 hx' hy'

theorem Tiles.head? (h : Tiles f g lo l hi) (hne : l ≠ []) : ∃ x, l.head? = some x ∧ f x = lo := by
  cases l with
  | nil => exact absurd rfl hne
  | cons x l => exact ⟨x, rfl, h.1⟩

theorem Tiles.getLast? (h : Tiles f g lo l hi) (hne : l ≠ []) :
    ∃ x, l.getLast? = some x ∧ g x + 1 = hi := by
  induction l using List.reverseRecOn with
  | nil => exact absurd rfl hne
  | append_singleton l x =>
    obtain ⟨mid, -, -, -, hlast⟩ := tiles_append.mp h
    exact ⟨x, List.getLast?_concat, hlast⟩

/-! ## Segments with a property -/

variable (f g P) in
/-- How many numbers are in the segments with property `P`. -/
def weight (l : List α) : ℤ := (l.map fun x => if P x then g x + 1 - f x else 0).sum

@[simp] theorem weight_nil : weight f g P [] = 0 := rfl

@[simp] theorem weight_cons :
    weight f g P (x :: l) = (if P x then g x + 1 - f x else 0) + weight f g P l := by
  simp [weight]

@[simp] theorem weight_append :
    weight f g P (l₁ ++ l₂) = weight f g P l₁ + weight f g P l₂ := by
  simp [weight]

@[simp] theorem weight_reverse : weight f g P l.reverse = weight f g P l := by
  simp [weight, List.map_reverse]

variable (f g P) in
/-- The numbers in the segments with property `P`. -/
noncomputable def cells : List α → Finset ℤ
  | [] => ∅
  | x :: l => (if P x then Finset.Icc (f x) (g x) else ∅) ∪ cells l

theorem mem_cells : p ∈ cells f g P l ↔ ∃ x ∈ l, P x ∧ f x ≤ p ∧ p ≤ g x := by
  induction l with
  | nil => simp [cells]
  | cons x l ih =>
    rw [cells, Finset.mem_union, ih]
    constructor
    · rintro (hp | ⟨y, hy, hPy, hp⟩)
      · by_cases hPx : P x
        · rw [if_pos hPx, Finset.mem_Icc] at hp
          exact ⟨x, List.mem_cons_self, hPx, hp⟩
        · rw [if_neg hPx] at hp
          exact absurd hp (Finset.notMem_empty p)
      · exact ⟨y, List.mem_cons_of_mem x hy, hPy, hp⟩
    · rintro ⟨y, hy, hPy, hp⟩
      rcases List.mem_cons.mp hy with rfl | hy'
      · exact Or.inl (by rw [if_pos hPy, Finset.mem_Icc]; exact hp)
      · exact Or.inr ⟨y, hy', hPy, hp⟩

theorem Tiles.cells_subset (h : Tiles f g lo l hi) : cells f g P l ⊆ Finset.Ico lo hi := by
  intro p hp
  obtain ⟨x, hx, -, hfx, hgx⟩ := mem_cells.mp hp
  have hbounds := h.bounds hx
  exact Finset.mem_Ico.mpr ⟨by omega, by omega⟩

theorem Tiles.card_cells (h : Tiles f g lo l hi) :
    ((cells f g P l).card : ℤ) = weight f g P l := by
  induction l generalizing lo with
  | nil => rfl
  | cons x l ih =>
    have hdisj : Disjoint (if P x then Finset.Icc (f x) (g x) else ∅) (cells f g P l) := by
      refine Finset.disjoint_left.mpr fun p hp hp' => ?_
      have hlo := (Finset.mem_Ico.mp (h.2.2.cells_subset hp')).1
      split at hp
      · have hhi := (Finset.mem_Icc.mp hp).2
        omega
      · exact Finset.notMem_empty p hp
    rw [cells, Finset.card_union_of_disjoint hdisj, Nat.cast_add, ih h.2.2, weight_cons]
    congr 1
    split
    · rw [Int.card_Icc]
      have := h.2.1
      omega
    · rfl

theorem Tiles.weight_nonneg (h : Tiles f g lo l hi) : 0 ≤ weight f g P l := by
  rw [← h.card_cells]
  exact Int.natCast_nonneg _

/-- The first segment with a property has the smallest number. -/
theorem Tiles.isLeast (h : Tiles f g lo (l₁ ++ x :: l₂) hi) (hx : P x)
    (hfirst : ∀ y ∈ l₁, ¬ P y) :
    IsLeast {p | p ∈ cells f g P (l₁ ++ x :: l₂)} (f x) := by
  obtain ⟨mid, -, hmid, hle, h₂⟩ := tiles_append.mp h
  refine ⟨mem_cells.mpr ⟨x, by simp, hx, le_rfl, hle⟩, fun p hp => ?_⟩
  obtain ⟨y, hy, hPy, hfy, -⟩ := mem_cells.mp hp
  rcases List.mem_append.mp hy with hy | hy
  · exact absurd hPy (hfirst y hy)
  · rcases List.mem_cons.mp hy with rfl | hy
    · exact hfy
    · have := (h₂.bounds hy).1
      omega

end Tiling
