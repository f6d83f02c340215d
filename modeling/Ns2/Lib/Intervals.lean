import Mathlib

/-!
# Sorted lists of separated intervals

A list of nodes, each standing for a half-open interval `[lo x, hi x)` of the
integers.  The list is kept sorted, with the intervals disjoint and not even
adjacent, so that it is determined by the set it covers.

* `Separated lo hi xs` — non-empty intervals, sorted, a gap between neighbours.
* `cover lo hi xs`, `total lo hi xs` — the numbers covered, and how many.
* `Separated.eq_of_mem`, `Separated.exists_block` — a covered number lies in one
  block only, and a covered range inside a single block.
* `Separated.setLo`, `cover_setLo`, `total_setLo` and their `setHi` twins — moving one
  end of one block.
* `exists_split` — a range `[s, e)` cuts a separated list into the blocks that end
  before it, the blocks that overlap it, and the blocks that start after it.
* `overlap_cases` — if no overlapping block is inside the range there are at most
  two of them, one over each end.
-/

namespace Intervals

variable {α : Type*} {lo hi lo' hi' : α → ℤ} {xs A B C : List α} {x y : α} {n s e : ℤ}

/-- Non-empty intervals in increasing order with a gap between any two. -/
structure Separated (lo hi : α → ℤ) (xs : List α) : Prop where
  /-- No interval is empty. -/
  pos : ∀ x ∈ xs, lo x < hi x
  /-- Each interval ends strictly before the next ones start. -/
  gap : xs.Pairwise fun x y => hi x < lo y

/-- The numbers in one of the intervals. -/
def cover (lo hi : α → ℤ) (xs : List α) : Set ℤ := {n | ∃ x ∈ xs, lo x ≤ n ∧ n < hi x}

/-- How many numbers the intervals hold together. -/
def total (lo hi : α → ℤ) (xs : List α) : ℤ := (xs.map fun x => hi x - lo x).sum

/-! ## Covers and totals of pieces -/

theorem mem_cover : n ∈ cover lo hi xs ↔ ∃ x ∈ xs, lo x ≤ n ∧ n < hi x := Iff.rfl

@[simp] theorem cover_nil : cover lo hi [] = ∅ := by
  ext n; simp [cover]

@[simp] theorem cover_cons : cover lo hi (x :: xs) = Set.Ico (lo x) (hi x) ∪ cover lo hi xs := by
  ext n; simp [cover]

@[simp] theorem cover_append : cover lo hi (A ++ B) = cover lo hi A ∪ cover lo hi B := by
  ext n; simp [cover, or_and_right, exists_or]

@[simp] theorem total_nil : total lo hi [] = 0 := rfl

@[simp] theorem total_cons : total lo hi (x :: xs) = (hi x - lo x) + total lo hi xs := by
  simp [total]

@[simp] theorem total_append : total lo hi (A ++ B) = total lo hi A + total lo hi B := by
  simp [total]

theorem cover_congr (h : ∀ x ∈ xs, lo' x = lo x ∧ hi' x = hi x) :
    cover lo' hi' xs = cover lo hi xs := by
  ext n
  constructor
  · rintro ⟨x, hx, hn⟩
    rw [(h x hx).1, (h x hx).2] at hn
    exact ⟨x, hx, hn⟩
  · rintro ⟨x, hx, hn⟩
    rw [← (h x hx).1, ← (h x hx).2] at hn
    exact ⟨x, hx, hn⟩

theorem total_congr (h : ∀ x ∈ xs, lo' x = lo x ∧ hi' x = hi x) :
    total lo' hi' xs = total lo hi xs := by
  rw [total, total]
  refine congrArg List.sum (List.map_congr_left fun x hx => ?_)
  rw [(h x hx).1, (h x hx).2]

/-- What a block misses of a range it overlaps, on either side. -/
theorem cover_union_sides (hx : x ∈ xs) (hs : s ≤ hi x) (he : lo x ≤ e) :
    cover lo hi xs ∪ Set.Ico s (lo x) ∪ Set.Ico (hi x) e = cover lo hi xs ∪ Set.Ico s e := by
  ext n
  simp only [Set.mem_union, Set.mem_Ico]
  constructor
  · rintro ((hn | hn) | hn)
    · exact Or.inl hn
    · exact Or.inr (by omega)
    · exact Or.inr (by omega)
  · rintro (hn | hn)
    · exact Or.inl (Or.inl hn)
    · by_cases h1 : n < lo x
      · exact Or.inl (Or.inr ⟨hn.1, h1⟩)
      · by_cases h2 : n < hi x
        · exact Or.inl (Or.inl ⟨x, hx, by omega, h2⟩)
        · exact Or.inr ⟨by omega, hn.2⟩

/-! ## Separated lists -/

namespace Separated

theorem nil : Separated lo hi [] := ⟨by simp, List.Pairwise.nil⟩

theorem congr (hs : Separated lo hi xs) (h : ∀ x ∈ xs, lo' x = lo x ∧ hi' x = hi x) :
    Separated lo' hi' xs := by
  refine ⟨fun x hx => ?_, hs.gap.imp_of_mem fun {x y} hx hy hxy => ?_⟩
  · rw [(h x hx).1, (h x hx).2]
    exact hs.pos x hx
  · rw [(h x hx).2, (h y hy).1]
    exact hxy

theorem sublist (hs : Separated lo hi xs) (h : A.Sublist xs) : Separated lo hi A :=
  ⟨fun x hx => hs.pos x (h.subset hx), hs.gap.sublist h⟩

theorem left (hs : Separated lo hi (A ++ B)) : Separated lo hi A :=
  hs.sublist (List.sublist_append_left A B)

theorem right (hs : Separated lo hi (A ++ B)) : Separated lo hi B :=
  hs.sublist (List.sublist_append_right A B)

theorem hi_lt_lo (hs : Separated lo hi (A ++ B)) (hx : x ∈ A) (hy : y ∈ B) : hi x < lo y :=
  (List.pairwise_append.mp hs.gap).2.2 x hx y hy

theorem append (hA : Separated lo hi A) (hB : Separated lo hi B)
    (h : ∀ x ∈ A, ∀ y ∈ B, hi x < lo y) : Separated lo hi (A ++ B) := by
  refine ⟨fun x hx => ?_, List.pairwise_append.mpr ⟨hA.gap, hB.gap, h⟩⟩
  exact (List.mem_append.mp hx).elim (hA.pos x) (hB.pos x)

/-- A block between two separated parts. -/
theorem middle (hA : Separated lo hi A) (hB : Separated lo hi B)
    (hAB : ∀ x ∈ A, ∀ y ∈ B, hi x < lo y) (hpos : lo x < hi x) (hAx : ∀ y ∈ A, hi y < lo x)
    (hxB : ∀ y ∈ B, hi x < lo y) : Separated lo hi (A ++ x :: B) := by
  refine hA.append ⟨?_, List.pairwise_cons.mpr ⟨hxB, hB.gap⟩⟩ ?_
  · intro y hy
    rcases List.mem_cons.mp hy with rfl | hy
    · exact hpos
    · exact hB.pos y hy
  · intro y hy z hz
    rcases List.mem_cons.mp hz with rfl | hz
    · exact hAx y hy
    · exact hAB y hy z hz

/-- Two different blocks of a separated list are apart, one way or the other. -/
theorem apart (hs : Separated lo hi xs) (hx : x ∈ xs) (hy : y ∈ xs) (hne : x ≠ y) :
    hi x < lo y ∨ hi y < lo x := by
  have hor : xs.Pairwise fun x y => hi x < lo y ∨ hi y < lo x := hs.gap.imp Or.inl
  have : Std.Symm fun x y => hi x < lo y ∨ hi y < lo x := ⟨fun _ _ => Or.symm⟩
  exact hor.forall hx hy hne

/-- A number lies in one block only. -/
theorem eq_of_mem (hs : Separated lo hi xs) (hx : x ∈ xs) (hy : y ∈ xs)
    (hnx : lo x ≤ n ∧ n < hi x) (hny : lo y ≤ n ∧ n < hi y) : x = y := by
  by_contra hne
  rcases hs.apart hx hy hne with h | h
  · omega
  · omega

/-- The end of a block is not covered. -/
theorem hi_notMem_cover (hs : Separated lo hi xs) (hx : x ∈ xs) : hi x ∉ cover lo hi xs := by
  rintro ⟨y, hy, hle, hlt⟩
  have hpx := hs.pos x hx
  have hpy := hs.pos y hy
  rcases eq_or_ne x y with rfl | hne
  · exact lt_irrefl _ hlt
  · rcases hs.apart hx hy hne with h | h
    · omega
    · omega

/-- The number before a block is not covered. -/
theorem lo_sub_one_notMem_cover (hs : Separated lo hi xs) (hx : x ∈ xs) :
    lo x - 1 ∉ cover lo hi xs := by
  rintro ⟨y, hy, hle, hlt⟩
  have hpx := hs.pos x hx
  rcases eq_or_ne x y with rfl | hne
  · omega
  · rcases hs.apart hx hy hne with h | h
    · omega
    · omega

/-- Blocks that start at the same number are the same. -/
theorem eq_of_lo_eq (hs : Separated lo hi xs) (hx : x ∈ xs) (hy : y ∈ xs) (heq : lo x = lo y) :
    x = y :=
  hs.eq_of_mem hx hy (n := lo x) ⟨le_rfl, hs.pos x hx⟩ ⟨heq.ge, heq ▸ hs.pos y hy⟩

/-- Blocks that end at the same number are the same. -/
theorem eq_of_hi_eq (hs : Separated lo hi xs) (hx : x ∈ xs) (hy : y ∈ xs) (heq : hi x = hi y) :
    x = y := by
  have h1 := hs.pos x hx
  have h2 := hs.pos y hy
  exact hs.eq_of_mem hx hy (n := hi x - 1) ⟨by omega, by omega⟩ ⟨by omega, by omega⟩

/-- A covered range lies inside a single block. -/
theorem exists_block (hs : Separated lo hi xs) (hse : s < e)
    (h : ∀ n, s ≤ n → n < e → n ∈ cover lo hi xs) : ∃ x ∈ xs, lo x ≤ s ∧ e ≤ hi x := by
  obtain ⟨x, hx, hle, hlt⟩ := h s le_rfl hse
  refine ⟨x, hx, hle, ?_⟩
  by_contra hend
  exact hs.hi_notMem_cover hx (h (hi x) hlt.le (by omega))

/-- The first block starts before all others. -/
theorem lo_head_le (hs : Separated lo hi (x :: xs)) (hy : y ∈ x :: xs) : lo x ≤ lo y := by
  rcases List.mem_cons.mp hy with rfl | hy
  · exact le_rfl
  · have h1 := (List.pairwise_cons.mp hs.gap).1 y hy
    have h2 := hs.pos x List.mem_cons_self
    omega

/-- The last block ends after all others. -/
theorem hi_le_last (hs : Separated lo hi (xs ++ [x])) (hy : y ∈ xs ++ [x]) : hi y ≤ hi x := by
  rcases List.mem_append.mp hy with hy | hy
  · have h1 := hs.hi_lt_lo hy (List.mem_singleton_self x)
    have h2 := hs.pos x (by simp)
    omega
  · rw [List.mem_singleton.mp hy]

end Separated

/-- The blocks hold some numbers, or none. -/
theorem Separated.total_nonneg (hs : Separated lo hi xs) : 0 ≤ total lo hi xs := by
  refine List.sum_nonneg fun n hn => ?_
  obtain ⟨x, hx, rfl⟩ := List.mem_map.mp hn
  have := hs.pos x hx
  omega

/-! ## Moving one end of one block -/

section Move

theorem Separated.notMem (hs : Separated lo hi (A ++ x :: B)) : x ∉ A ∧ x ∉ B := by
  have hpos := hs.pos x (by simp)
  refine ⟨fun hx => ?_, fun hx => ?_⟩
  · have := hs.hi_lt_lo hx (List.mem_cons_self (a := x) (l := B))
    omega
  · have := (List.pairwise_cons.mp (List.pairwise_append.mp hs.gap).2.1).1 x hx
    omega

variable [DecidableEq α]

/-- Maps that differ at one node agree on a list without it. -/
theorem update_congr {f : α → ℤ} {v : ℤ} (hx : x ∉ xs) :
    ∀ y ∈ xs, Function.update f x v y = f y :=
  fun _ hy => Function.update_of_ne (ne_of_mem_of_not_mem hy hx) _ _

theorem Separated.setLo (hs : Separated lo hi (A ++ x :: B)) (hx : s < hi x)
    (hA : ∀ y ∈ A, hi y < s) : Separated (Function.update lo x s) hi (A ++ x :: B) := by
  obtain ⟨hxA, hxB⟩ := hs.notMem
  have hB : ∀ y ∈ B, hi x < lo y :=
    (List.pairwise_cons.mp (List.pairwise_append.mp hs.gap).2.1).1
  refine Separated.middle (hs.left.congr fun y hy => ⟨update_congr hxA y hy, rfl⟩)
    ((hs.right.sublist (List.sublist_cons_self x B)).congr
      fun y hy => ⟨update_congr hxB y hy, rfl⟩) ?_ ?_ ?_ ?_
  · intro y hy z hz
    rw [update_congr hxB z hz]
    exact hs.hi_lt_lo hy (List.mem_cons_of_mem x hz)
  · rwa [Function.update_self]
  · rwa [Function.update_self]
  · intro y hy
    rw [update_congr hxB y hy]
    exact hB y hy

theorem Separated.setHi (hs : Separated lo hi (A ++ x :: B)) (hx : lo x < e)
    (hB : ∀ y ∈ B, e < lo y) : Separated lo (Function.update hi x e) (A ++ x :: B) := by
  obtain ⟨hxA, hxB⟩ := hs.notMem
  refine Separated.middle (hs.left.congr fun y hy => ⟨rfl, update_congr hxA y hy⟩)
    ((hs.right.sublist (List.sublist_cons_self x B)).congr
      fun y hy => ⟨rfl, update_congr hxB y hy⟩) ?_ ?_ ?_ ?_
  · intro y hy z hz
    rw [update_congr hxA y hy]
    exact hs.hi_lt_lo hy (List.mem_cons_of_mem x hz)
  · rwa [Function.update_self]
  · intro y hy
    rw [update_congr hxA y hy]
    exact hs.hi_lt_lo hy List.mem_cons_self
  · rwa [Function.update_self]

theorem cover_setLo (hA : x ∉ A) (hB : x ∉ B) (hs : s ≤ lo x) (hx : lo x ≤ hi x) :
    cover (Function.update lo x s) hi (A ++ x :: B)
      = cover lo hi (A ++ x :: B) ∪ Set.Ico s (lo x) := by
  rw [cover_append, cover_append, cover_cons, cover_cons, Function.update_self,
    cover_congr fun y hy => ⟨update_congr hA y hy, rfl⟩,
    cover_congr fun y hy => ⟨update_congr hB y hy, rfl⟩, ← Set.Ico_union_Ico_eq_Ico hs hx]
  simp only [Set.union_comm, Set.union_left_comm]

theorem cover_setHi (hA : x ∉ A) (hB : x ∉ B) (hx : lo x ≤ hi x) (he : hi x ≤ e) :
    cover lo (Function.update hi x e) (A ++ x :: B)
      = cover lo hi (A ++ x :: B) ∪ Set.Ico (hi x) e := by
  rw [cover_append, cover_append, cover_cons, cover_cons, Function.update_self,
    cover_congr fun y hy => ⟨rfl, update_congr hA y hy⟩,
    cover_congr fun y hy => ⟨rfl, update_congr hB y hy⟩, ← Set.Ico_union_Ico_eq_Ico hx he]
  simp only [Set.union_comm, Set.union_left_comm]

theorem total_setLo (hA : x ∉ A) (hB : x ∉ B) :
    total (Function.update lo x s) hi (A ++ x :: B)
      = total lo hi (A ++ x :: B) + (lo x - s) := by
  rw [total_append, total_append, total_cons, total_cons, Function.update_self,
    total_congr fun y hy => ⟨update_congr hA y hy, rfl⟩,
    total_congr fun y hy => ⟨update_congr hB y hy, rfl⟩]
  ring

theorem total_setHi (hA : x ∉ A) (hB : x ∉ B) :
    total lo (Function.update hi x e) (A ++ x :: B)
      = total lo hi (A ++ x :: B) + (e - hi x) := by
  rw [total_append, total_append, total_cons, total_cons, Function.update_self,
    total_congr fun y hy => ⟨rfl, update_congr hA y hy⟩,
    total_congr fun y hy => ⟨rfl, update_congr hB y hy⟩]
  ring

end Move

/-! ## Cutting a list along a range -/

/-- The blocks of a separated list that end before a range, those that overlap it,
and those that start after it. -/
theorem exists_split (s e : ℤ) (hs : Separated lo hi xs) :
    ∃ A M B, xs = A ++ M ++ B ∧ (∀ x ∈ A, hi x ≤ s) ∧ (∀ x ∈ M, s < hi x ∧ lo x < e) ∧
      ∀ x ∈ B, e ≤ lo x := by
  induction xs with
  | nil => exact ⟨[], [], [], rfl, by simp, by simp, by simp⟩
  | cons x xs ih =>
    have hx := hs.pos x List.mem_cons_self
    obtain ⟨A, M, B, rfl, hA, hM, hB⟩ := ih (hs.sublist (List.sublist_cons_self x xs))
    have hafter : ∀ y ∈ A ++ M ++ B, hi x < lo y := (List.pairwise_cons.mp hs.gap).1
    by_cases h1 : hi x ≤ s
    · refine ⟨x :: A, M, B, by simp, ?_, hM, hB⟩
      simpa using ⟨h1, hA⟩
    · have hAnil : A = [] := by
        rw [List.eq_nil_iff_forall_not_mem]
        intro y hy
        have h2 := hafter y (by simp [hy])
        have h3 := hA y hy
        have h4 := hs.pos y (by simp [hy])
        omega
      subst hAnil
      by_cases h2 : lo x < e
      · refine ⟨[], x :: M, B, by simp, by simp, ?_, hB⟩
        simpa using ⟨⟨by omega, h2⟩, fun y hy => hM y hy⟩
      · have hMnil : M = [] := by
          rw [List.eq_nil_iff_forall_not_mem]
          intro y hy
          have h3 := hafter y (by simp [hy])
          have h4 := hM y hy
          omega
        subst hMnil
        refine ⟨[], [], x :: B, by simp, by simp, by simp, ?_⟩
        simpa using ⟨by omega, hB⟩

/-- If no block that overlaps a range lies inside it, there are at most two: none,
one, or one over each end of the range. -/
theorem overlap_cases (hs : Separated lo hi xs) (hov : ∀ x ∈ xs, s < hi x ∧ lo x < e)
    (hnot : ∀ x ∈ xs, ¬ (s ≤ lo x ∧ hi x ≤ e)) :
    xs = [] ∨ (∃ x, xs = [x]) ∨ ∃ x y, xs = [x, y] ∧ lo x < s ∧ hi x < lo y ∧ e < hi y := by
  match xs with
  | [] => exact Or.inl rfl
  | [x] => exact Or.inr (Or.inl ⟨x, rfl⟩)
  | [x, y] =>
    have hx := hov x (by simp)
    have hy := hov y (by simp)
    have hnx := hnot x (by simp)
    have hny := hnot y (by simp)
    have hxy : hi x < lo y := (List.pairwise_cons.mp hs.gap).1 y (by simp)
    exact Or.inr (Or.inr ⟨x, y, rfl, by omega, hxy, by omega⟩)
  | x :: y :: z :: rest =>
    -- the second of three overlapping blocks would lie inside the range
    have hx := hov x (by simp)
    have hz := hov z (by simp)
    have hny := hnot y (by simp)
    have hxy : hi x < lo y := (List.pairwise_cons.mp hs.gap).1 y (by simp)
    have hyz : hi y < lo z :=
      (List.pairwise_cons.mp (List.pairwise_cons.mp hs.gap).2).1 z (by simp)
    omega

end Intervals
