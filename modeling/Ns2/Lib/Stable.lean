import Mathlib

/-!
# Lists sorted by a key, with ties kept in order

Elements have a key in a linear order; several may have the same one.  The elements of
one key form its *class*, in the order of the list.  A sorted list is known by its
classes, and what an operation does to a sorted list is said by what it does to them.

* `IsSorted f l`, `cls f k l` — sorted lists, and the class of a key.
* `perm_of_cls` — lists with the same classes are permutations of each other.
* `IsSorted.insert_after`, `cls_insert_after` — insertion after the elements of the same
  key appends to the class; `insert_before`, `cls_insert_before` — the other way round.
* `insertLast f e l` — the insertion itself; `insertLast_eq_append`, `filterMap_insertLast`.
* `cls_erase` — taking an element out.
* `distinct f l` — the number of keys that occur.
-/

namespace Stable

variable {α κ : Type*} [LinearOrder κ] {f : α → κ} {l l₁ l₂ A B : List α} {e x : α} {k : κ}

/-- The keys do not go down along the list. -/
def IsSorted (f : α → κ) (l : List α) : Prop := l.Pairwise fun x y => f x ≤ f y

/-- The elements with key `k`, in the order of the list. -/
def cls (f : α → κ) (k : κ) (l : List α) : List α := l.filter fun x => f x = k

/-! ## Classes -/

@[simp] theorem cls_nil : cls f k [] = [] := rfl

theorem cls_cons : cls f k (x :: l) = if f x = k then x :: cls f k l else cls f k l := by
  rw [cls, List.filter_cons]
  simp only [decide_eq_true_eq]
  rfl

@[simp] theorem cls_append : cls f k (A ++ B) = cls f k A ++ cls f k B :=
  List.filter_append A B

theorem mem_cls : x ∈ cls f k l ↔ x ∈ l ∧ f x = k := by
  rw [cls, List.mem_filter, decide_eq_true_eq]

theorem cls_eq_nil (h : ∀ x ∈ l, f x ≠ k) : cls f k l = [] := by
  rw [List.eq_nil_iff_forall_not_mem]
  intro x hx
  exact h x (mem_cls.mp hx).1 (mem_cls.mp hx).2

/-- Elements are in a list when they are in their class. -/
theorem mem_iff_mem_cls : x ∈ l ↔ x ∈ cls f (f x) l := by
  rw [mem_cls, and_iff_left rfl]

theorem mem_congr (h : ∀ k, cls f k l₁ = cls f k l₂) : x ∈ l₁ ↔ x ∈ l₂ := by
  rw [mem_iff_mem_cls (f := f), h, ← mem_iff_mem_cls]

/-- Lists with the same classes are permutations of each other. -/
theorem perm_of_cls [DecidableEq α] (h : ∀ k, cls f k l₁ = cls f k l₂) : l₁.Perm l₂ := by
  have hcount : ∀ (l : List α) (x : α), l.count x = (cls f (f x) l).count x := by
    intro l x
    rw [cls, List.count_filter (by simp)]
  rw [List.perm_iff_count]
  intro x
  rw [hcount l₁, hcount l₂, h]

theorem cls_erase [DecidableEq α] :
    cls f k (l.erase e) = if f e = k then (cls f k l).erase e else cls f k l := by
  induction l with
  | nil => simp
  | cons x l ih =>
    rw [List.erase_cons]
    by_cases hx : x = e
    · subst hx
      rw [if_pos (beq_self_eq_true x), cls_cons]
      split
      · rw [List.erase_cons_head]
      · rfl
    · rw [if_neg (by simpa using hx), cls_cons, cls_cons, ih]
      by_cases hk : f x = k
      · rw [if_pos hk, if_pos hk]
        split
        · rw [List.erase_cons_tail (by simpa using hx)]
        · rfl
      · rw [if_neg hk, if_neg hk]

/-! ## Sorted lists -/

namespace IsSorted

theorem nil : IsSorted f [] := List.Pairwise.nil

theorem head_le (h : IsSorted f (x :: l)) : ∀ y ∈ x :: l, f x ≤ f y := by
  intro y hy
  rcases List.mem_cons.mp hy with rfl | hy
  · exact le_rfl
  · exact (List.pairwise_cons.mp h).1 y hy

theorem le_last (h : IsSorted f (l ++ [x])) : ∀ y ∈ l ++ [x], f y ≤ f x := by
  intro y hy
  rcases List.mem_append.mp hy with hy | hy
  · exact (List.pairwise_append.mp h).2.2 y hy x (List.mem_singleton_self x)
  · rw [List.mem_singleton.mp hy]

theorem sublist (h : IsSorted f l₂) (hs : l₁.Sublist l₂) : IsSorted f l₁ :=
  List.Pairwise.sublist hs h

/-- An element between those with smaller keys and those with larger ones. -/
theorem insert (h : IsSorted f (A ++ B)) (hA : ∀ a ∈ A, f a ≤ f e)
    (hB : ∀ b ∈ B, f e ≤ f b) : IsSorted f (A ++ e :: B) := by
  obtain ⟨h1, h2, h3⟩ := List.pairwise_append.mp h
  refine List.pairwise_append.mpr ⟨h1, List.pairwise_cons.mpr ⟨hB, h2⟩, ?_⟩
  intro a ha b hb
  rcases List.mem_cons.mp hb with rfl | hb
  · exact hA a ha
  · exact h3 a ha b hb

/-- A property that goes from an element to those before it cuts a sorted list in two. -/
theorem dropWhile_not {p : α → Bool} (h : IsSorted f l)
    (hp : ∀ x y, f x ≤ f y → p y = true → p x = true) : ∀ x ∈ l.dropWhile p, p x = false := by
  induction l with
  | nil => simp
  | cons a l ih =>
    rw [List.dropWhile_cons]
    split
    · exact ih (h.sublist (List.sublist_cons_self a l))
    · rename_i ha
      intro x hx
      by_contra hpx
      exact ha (hp a x (h.head_le x hx) (by simpa using hpx))

end IsSorted

/-- Insertion before the first element with a larger key. -/
def insertLast (f : α → κ) (e : α) (l : List α) : List α :=
  l.takeWhile (fun x => ¬ f e < f x) ++ e :: l.dropWhile (fun x => ¬ f e < f x)

/-- The element is between those up to its key and those with larger ones. -/
theorem IsSorted.insertLast_split (h : IsSorted f l) (e : α) :
    ∃ A B, l = A ++ B ∧ insertLast f e l = A ++ e :: B ∧ (∀ a ∈ A, f a ≤ f e) ∧ ∀ b ∈ B, f e < f b := by
  refine ⟨l.takeWhile fun x => ¬ f e < f x, l.dropWhile fun x => ¬ f e < f x,
    List.takeWhile_append_dropWhile.symm, rfl, fun b hb => ?_, fun b hb => ?_⟩
  · simpa using List.mem_takeWhile_imp hb
  · have hdrop := h.dropWhile_not (p := fun x => ¬ f e < f x) (fun x y hxy hy => by
      simp only [not_lt, decide_eq_true_eq] at hy ⊢
      exact hxy.trans hy) b hb
    simpa using hdrop

theorem IsSorted.insertLast (h : IsSorted f l) (e : α) : IsSorted f (insertLast f e l) := by
  obtain ⟨A, B, rfl, hins, hA, hB⟩ := h.insertLast_split e
  rw [hins]
  exact h.insert hA fun b hb => (hB b hb).le

/-- An element whose key is not smaller than any other goes to the end. -/
theorem insertLast_eq_append (h : ∀ x ∈ l, f x ≤ f e) : insertLast f e l = l ++ [e] := by
  have hall : ∀ x ∈ l, (decide ¬ f e < f x) = true := by simpa using h
  rw [Stable.insertLast, List.takeWhile_eq_self_iff.mpr hall, List.dropWhile_eq_nil_iff.mpr hall]

theorem mem_insertLast : x ∈ insertLast f e l ↔ x = e ∨ x ∈ l := by
  have hsplit : l = l.takeWhile (fun x => ¬ f e < f x) ++ l.dropWhile (fun x => ¬ f e < f x) :=
    List.takeWhile_append_dropWhile.symm
  rw [insertLast, List.mem_append, List.mem_cons]
  conv_rhs => rw [hsplit, List.mem_append]
  exact or_left_comm

theorem perm_insertLast (e : α) (l : List α) : (insertLast f e l).Perm (e :: l) := by
  rw [insertLast]
  refine List.perm_middle.trans ?_
  rw [List.takeWhile_append_dropWhile]

/-- What a filter leaves out may be inserted anywhere. -/
theorem filterMap_insertLast {β : Type*} {g : α → Option β} (hg : g e = none) :
    (insertLast f e l).filterMap g = l.filterMap g := by
  rw [insertLast, List.filterMap_append, List.filterMap_cons_none hg, ← List.filterMap_append,
    List.takeWhile_append_dropWhile]

/-- Insertion after the elements of the same key appends to the class. -/
theorem cls_insert_after (hB : ∀ b ∈ B, f e < f b) :
    cls f k (A ++ e :: B) = cls f k (A ++ B ++ [e]) := by
  rw [cls_append, cls_append, cls_append, cls_cons, cls_cons]
  split
  · rename_i hk
    rw [cls_eq_nil (l := B) fun b hb => (hk ▸ hB b hb).ne']
    simp
  · simp

/-- Insertion before the elements of the same key puts the element in front of them. -/
theorem cls_insert_before (hA : ∀ a ∈ A, f a < f e) :
    cls f k (A ++ e :: B) = cls f k (e :: (A ++ B)) := by
  rw [cls_append, cls_cons, cls_cons, cls_append]
  split
  · rename_i hk
    rw [cls_eq_nil (l := A) fun a ha => (hk ▸ hA a ha).ne]
    simp
  · rfl

/-! ## The number of keys -/

/-- How many different keys occur. -/
def distinct (f : α → κ) (l : List α) : ℕ := (l.map f).toFinset.card

@[simp] theorem distinct_nil : distinct f [] = 0 := rfl

theorem distinct_perm (h : l₁.Perm l₂) : distinct f l₁ = distinct f l₂ := by
  rw [distinct, distinct, List.toFinset_eq_of_perm _ _ (h.map f)]

/-- One element more is one key more, unless its key occurs. -/
theorem distinct_cons :
    distinct f (x :: l) = distinct f l + if ∀ y ∈ l, f y ≠ f x then 1 else 0 := by
  rw [distinct, List.map_cons, List.toFinset_cons]
  split
  · rename_i hx
    rw [Finset.card_insert_of_notMem, distinct]
    simpa using hx
  · rename_i hx
    rw [Finset.insert_eq_self.mpr, distinct, add_zero]
    simpa using hx

theorem distinct_eq_zero : distinct f l = 0 ↔ l = [] := by
  rw [distinct, Finset.card_eq_zero, List.toFinset_eq_empty_iff, List.map_eq_nil_iff]

/-- A sorted list with two keys has a larger one at its end than at its head. -/
theorem head_lt_last (h : IsSorted f l) (hd : 1 < distinct f l) {a b : α}
    (ha : l.head? = some a) (hb : l.getLast? = some b) : f a < f b := by
  obtain ⟨l', rfl⟩ := List.head?_eq_some_iff.mp ha
  obtain ⟨l'', hl''⟩ := List.getLast?_eq_some_iff.mp hb
  refine lt_of_not_ge fun hba => ?_
  -- otherwise all keys are the same
  have hall : ∀ y ∈ a :: l', f y = f a := by
    intro y hy
    refine le_antisymm (le_trans ?_ hba) (h.head_le y hy)
    rw [hl''] at h hy
    exact h.le_last y hy
  have hle : distinct f (a :: l') ≤ 1 := by
    rw [distinct, ← Finset.card_singleton (f a)]
    refine Finset.card_le_card fun k hk => ?_
    obtain ⟨y, hy, rfl⟩ := List.mem_map.mp (List.mem_toFinset.mp hk)
    rw [hall y hy]
    exact Finset.mem_singleton_self _
  omega

end Stable
