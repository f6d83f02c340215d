import Mathlib

/-!
# Binary heaps in an array

The first `n` places of an array form a tree: the parent of place `i` is `(i - 1) / 2`.
Elements have a key in a linear order.  A loop that moves an element along a path of the
tree swaps it with its parent, or with a child; on the way the order may only fail at
the place of that element.

* `Ordered f g n` — no key is smaller than that of its parent; `Ordered.root_le`.
* `OrderedOff f g n i` — the order, except for the edges at place `i`; `swap_parent` and
  `swap_child` say where a swap takes the place.
* `UpReady`, `DownReady` — only the edge above `i`, or only the edges below it, may fail;
  `move` and `finish` are the rules for the two loops.
* `contents g n` — the elements, as a multiset; `contents_swap`.
-/

namespace BinHeap

variable {α κ : Type*} [LinearOrder κ] {f : α → κ} {g : ℕ → α} {n i c : ℕ}

/-- The parent of a place. -/
def parent (i : ℕ) : ℕ := (i - 1) / 2

/-- The left child of a place. -/
def left (i : ℕ) : ℕ := i * 2 + 1

/-- The right child of a place. -/
def right (i : ℕ) : ℕ := (i + 1) * 2

theorem parent_lt (h : 0 < i) : parent i < i := by
  rw [parent]
  omega

@[simp] theorem parent_left (i : ℕ) : parent (left i) = i := by
  simp only [parent, left]
  omega

@[simp] theorem parent_right (i : ℕ) : parent (right i) = i := by
  simp only [parent, right]
  omega

theorem lt_left (i : ℕ) : i < left i := by
  rw [left]
  omega

theorem left_lt_right (i : ℕ) : left i < right i := by
  simp only [left, right]
  omega

theorem eq_left_or_right (h : 0 < c) (hp : parent c = i) : c = left i ∨ c = right i := by
  subst hp
  simp only [parent, left, right]
  omega

/-! ## The order -/

/-- No key is smaller than that of its parent. -/
def Ordered (f : α → κ) (g : ℕ → α) (n : ℕ) : Prop :=
  ∀ j, 0 < j → j < n → f (g (parent j)) ≤ f (g j)

/-- The root has the smallest key. -/
theorem Ordered.root_le (h : Ordered f g n) : ∀ i, i < n → f (g 0) ≤ f (g i) := by
  intro i
  induction i using Nat.strong_induction_on with
  | h i ih =>
    intro hi
    rcases Nat.eq_zero_or_pos i with rfl | hpos
    · exact le_rfl
    · have hp := parent_lt hpos
      exact (ih (parent i) hp (hp.trans hi)).trans (h i hpos hi)

/-- The order, except for the edges at place `i`. -/
structure OrderedOff (f : α → κ) (g : ℕ → α) (n i : ℕ) : Prop where
  /-- The edges that do not touch `i`. -/
  off : ∀ j, 0 < j → j < n → j ≠ i → parent j ≠ i → f (g (parent j)) ≤ f (g j)
  /-- From the parent of `i` to its children. -/
  across : 0 < i → ∀ j, 0 < j → j < n → parent j = i → f (g (parent i)) ≤ f (g j)

theorem Ordered.off (h : Ordered f g n) (hi : i < n) : OrderedOff f g n i := by
  refine ⟨fun j hj hjn _ _ => h j hj hjn, fun hpos j hj hjn hp => ?_⟩
  have hchild := h j hj hjn
  rw [hp] at hchild
  exact (h i hpos hi).trans hchild

/-- The element at place `i` changes places with its parent. -/
theorem OrderedOff.swap_parent (h : OrderedOff f g n i) (hpos : 0 < i) (hi : i < n) :
    OrderedOff f (g ∘ Equiv.swap i (parent i)) n (parent i) := by
  have hp := parent_lt hpos
  have hgrand : 0 < parent i → f (g (parent (parent i))) ≤ f (g (parent i)) := fun hpp =>
    h.off (parent i) hpp (hp.trans hi) hp.ne (parent_lt hpp |>.trans hp).ne
  constructor
  · intro j hj hjn hne hpar
    have hji : j ≠ i := fun e => hpar (e ▸ rfl)
    simp only [Function.comp_apply, Equiv.swap_apply_of_ne_of_ne hji hne]
    by_cases hpi : parent j = i
    · rw [hpi, Equiv.swap_apply_left]
      exact h.across hpos j hj hjn hpi
    · rw [Equiv.swap_apply_of_ne_of_ne hpi hpar]
      exact h.off j hj hjn hji hpi
  · intro hpp j hj hjn hpar
    have hppi := (parent_lt hpp).trans hp
    simp only [Function.comp_apply, Equiv.swap_apply_of_ne_of_ne hppi.ne (parent_lt hpp).ne]
    by_cases hji : j = i
    · rw [hji, Equiv.swap_apply_left]
      exact hgrand hpp
    · have hjp : j ≠ parent i := fun e => (parent_lt hj).ne (by rw [hpar, e])
      rw [Equiv.swap_apply_of_ne_of_ne hji hjp]
      have hedge := h.off j hj hjn hji (by rw [hpar]; exact hp.ne)
      rw [hpar] at hedge
      exact (hgrand hpp).trans hedge

/-- The element at place `i` changes places with its smallest child. -/
theorem OrderedOff.swap_child (h : OrderedOff f g n i) (hc : 0 < c) (hcn : c < n)
    (hpar : parent c = i)
    (hmin : ∀ j, 0 < j → j < n → parent j = i → f (g c) ≤ f (g j)) :
    OrderedOff f (g ∘ Equiv.swap i c) n c := by
  have hic : i < c := hpar ▸ parent_lt hc
  constructor
  · intro j hj hjn hjc hpj
    by_cases hji : j = i
    · subst hji
      have hpi := parent_lt hj
      simp only [Function.comp_apply, Equiv.swap_apply_left,
        Equiv.swap_apply_of_ne_of_ne hpi.ne (hpi.trans hic).ne]
      exact h.across hj c hc hcn hpar
    · simp only [Function.comp_apply, Equiv.swap_apply_of_ne_of_ne hji hjc]
      by_cases hpi : parent j = i
      · rw [hpi, Equiv.swap_apply_left]
        exact hmin j hj hjn hpi
      · rw [Equiv.swap_apply_of_ne_of_ne hpi hpj]
        exact h.off j hj hjn hji hpi
  · intro _ j hj hjn hpj
    have hcj : c < j := hpj ▸ parent_lt hj
    simp only [Function.comp_apply, hpar, Equiv.swap_apply_left,
      Equiv.swap_apply_of_ne_of_ne (hic.trans hcj).ne' hcj.ne']
    have hedge := h.off j hj hjn (hic.trans hcj).ne' (by rw [hpj]; exact hic.ne')
    rwa [hpj] at hedge

/-! ## The two loops -/

/-- Only the edge above place `i` may fail. -/
structure UpReady (f : α → κ) (g : ℕ → α) (n i : ℕ) : Prop extends OrderedOff f g n i where
  /-- The edges below. -/
  below : ∀ j, 0 < j → j < n → parent j = i → f (g i) ≤ f (g j)

/-- Only the edges below place `i` may fail. -/
structure DownReady (f : α → κ) (g : ℕ → α) (n i : ℕ) : Prop extends OrderedOff f g n i where
  /-- The edge above. -/
  above : 0 < i → f (g (parent i)) ≤ f (g i)

/-- One step up. -/
theorem UpReady.move (h : UpReady f g n i) (hpos : 0 < i) (hi : i < n)
    (hlt : f (g i) < f (g (parent i))) :
    UpReady f (g ∘ Equiv.swap i (parent i)) n (parent i) := by
  refine ⟨h.toOrderedOff.swap_parent hpos hi, fun j hj hjn hpar => ?_⟩
  have hp := parent_lt hpos
  simp only [Function.comp_apply, Equiv.swap_apply_right]
  by_cases hji : j = i
  · rw [hji, Equiv.swap_apply_left]
    exact hlt.le
  · have hjp : j ≠ parent i := fun e => (parent_lt hj).ne (by rw [hpar, e])
    rw [Equiv.swap_apply_of_ne_of_ne hji hjp]
    have hedge := h.off j hj hjn hji (by rw [hpar]; exact hp.ne)
    rw [hpar] at hedge
    exact hlt.le.trans hedge

/-- The end of the way up. -/
theorem UpReady.finish (h : UpReady f g n i) (hstop : 0 < i → f (g (parent i)) ≤ f (g i)) :
    Ordered f g n := by
  intro j hj hjn
  by_cases hji : j = i
  · subst hji
    exact hstop hj
  by_cases hpar : parent j = i
  · rw [hpar]
    exact h.below j hj hjn hpar
  · exact h.off j hj hjn hji hpar

/-- One step down. -/
theorem DownReady.move (h : DownReady f g n i) (hc : 0 < c) (hcn : c < n) (hpar : parent c = i)
    (hmin : ∀ j, 0 < j → j < n → parent j = i → f (g c) ≤ f (g j)) (hlt : f (g c) < f (g i)) :
    DownReady f (g ∘ Equiv.swap i c) n c := by
  refine ⟨h.toOrderedOff.swap_child hc hcn hpar hmin, fun _ => ?_⟩
  simp only [Function.comp_apply, hpar, Equiv.swap_apply_left, Equiv.swap_apply_right]
  exact hlt.le

/-- The end of the way down. -/
theorem DownReady.finish (h : DownReady f g n i)
    (hstop : ∀ j, 0 < j → j < n → parent j = i → f (g i) ≤ f (g j)) : Ordered f g n := by
  intro j hj hjn
  by_cases hji : j = i
  · subst hji
    exact h.above hj
  by_cases hpar : parent j = i
  · rw [hpar]
    exact hstop j hj hjn hpar
  · exact h.off j hj hjn hji hpar

/-- A new last element. -/
theorem Ordered.push (h : Ordered f g n) (e : α) :
    UpReady f (Function.update g n e) (n + 1) n := by
  have hold : ∀ j, 0 < j → j < n + 1 → j ≠ n →
      f (Function.update g n e (parent j)) ≤ f (Function.update g n e j) := by
    intro j hj hjn hne
    have hlt : j < n := by omega
    rw [Function.update_of_ne hne, Function.update_of_ne ((parent_lt hj).trans hlt).ne]
    exact h j hj hlt
  have hleaf : ∀ j, 0 < j → j < n + 1 → parent j ≠ n := fun j hj hjn hp => by
    have := parent_lt hj
    omega
  exact ⟨⟨fun j hj hjn hne _ => hold j hj hjn hne, fun _ j hj hjn hp => absurd hp (hleaf j hj hjn)⟩,
    fun j hj hjn hp => absurd hp (hleaf j hj hjn)⟩

/-- The last element takes the place of the root. -/
theorem OrderedOff.replace_root (h : OrderedOff f g (n + 1) 0) :
    DownReady f (Function.update g 0 (g n)) n 0 := by
  refine ⟨⟨fun j hj hjn hne hp => ?_, fun hpos => absurd hpos (lt_irrefl 0)⟩,
    fun hpos => absurd hpos (lt_irrefl 0)⟩
  rw [Function.update_of_ne hne, Function.update_of_ne hp]
  exact h.off j hj (by omega) hne hp

/-! ## The elements -/

/-- The elements in the first `n` places. -/
def contents (g : ℕ → α) (n : ℕ) : Multiset α := (Multiset.range n).map g

@[simp] theorem contents_zero (g : ℕ → α) : contents g 0 = 0 := rfl

theorem contents_succ (g : ℕ → α) (n : ℕ) : contents g (n + 1) = g n ::ₘ contents g n := by
  rw [contents, Multiset.range_succ, Multiset.map_cons, contents]

theorem mem_contents {x : α} : x ∈ contents g n ↔ ∃ i, i < n ∧ g i = x := by
  simp [contents]

theorem card_contents (g : ℕ → α) (n : ℕ) : (contents g n).card = n := by
  simp [contents]

theorem contents_congr {g' : ℕ → α} (h : ∀ i, i < n → g i = g' i) : contents g n = contents g' n :=
  Multiset.map_congr rfl fun i hi => h i (Multiset.mem_range.mp hi)

/-- A swap keeps the elements. -/
theorem contents_swap (g : ℕ → α) (hi : i < n) (hc : c < n) :
    contents (g ∘ Equiv.swap i c) n = contents g n := by
  have hrange : (Multiset.range n).map (Equiv.swap i c) = Multiset.range n := by
    refine Multiset.Nodup.ext ((Multiset.nodup_range n).map (Equiv.swap i c).injective)
      (Multiset.nodup_range n) |>.mpr fun x => ?_
    have hmaps : ∀ y, y < n → Equiv.swap i c y < n := by
      intro y hy
      rw [Equiv.swap_apply_def]
      split_ifs
      · exact hc
      · exact hi
      · exact hy
    simp only [Multiset.mem_map, Multiset.mem_range]
    constructor
    · rintro ⟨y, hy, rfl⟩
      exact hmaps y hy
    · intro hx
      exact ⟨Equiv.swap i c x, hmaps x hx, Equiv.swap_apply_self i c x⟩
  rw [contents, ← Multiset.map_map, hrange, contents]

theorem contents_push (g : ℕ → α) (n : ℕ) (e : α) :
    contents (Function.update g n e) (n + 1) = e ::ₘ contents g n := by
  rw [contents_succ, Function.update_self]
  congr 1
  exact contents_congr fun i hi => Function.update_of_ne hi.ne e g

/-- The root leaves when the last element takes its place. -/
theorem contents_replace_root (g : ℕ → α) (n : ℕ) :
    g 0 ::ₘ contents (Function.update g 0 (g n)) n = contents g (n + 1) := by
  rw [← contents_swap g (Nat.succ_pos n) (Nat.lt_succ_self n), contents_succ, Function.comp_apply,
    Equiv.swap_apply_right]
  congr 1
  refine contents_congr fun i hi => ?_
  rw [Function.comp_apply]
  by_cases h0 : i = 0
  · rw [h0, Function.update_self, Equiv.swap_apply_left]
  · rw [Function.update_of_ne h0, Equiv.swap_apply_of_ne_of_ne h0 hi.ne]

/-- A hole that moves to the parent is a swap. -/
theorem update_parent (g : ℕ → α) (e : α) (hpos : 0 < i) :
    Function.update (Function.update g i (g (parent i))) (parent i) e =
      Function.update g i e ∘ Equiv.swap i (parent i) := by
  have hp := parent_lt hpos
  funext j
  rw [Function.comp_apply]
  by_cases hjp : j = parent i
  · rw [hjp, Function.update_self, Equiv.swap_apply_right, Function.update_self]
  rw [Function.update_of_ne hjp]
  by_cases hji : j = i
  · rw [hji, Function.update_self, Equiv.swap_apply_left, Function.update_of_ne hp.ne]
  · rw [Function.update_of_ne hji, Equiv.swap_apply_of_ne_of_ne hji hjp, Function.update_of_ne hji]

end BinHeap
