import Mathlib

/-!
# Lists with at most one element for each key

`upsert key merge l b` looks for the first element of `l` with the key of `b`; that element is
merged with `b`, and without one `b` goes to the end.  `upsertAll` does so for each element of
a second list.

* `nodup_map_upsertAll` — distinct keys stay distinct.
* `mem_upsertAll` — if merging takes the new element, all elements of a list with distinct keys
  are there afterwards.
-/

namespace Upsert

variable {α κ : Type*} [DecidableEq κ] (key : α → κ) (merge : α → α → α)

/-- Put `b` in the place of the element with its key, or at the end. -/
def upsert : List α → α → List α
  | [], b => [b]
  | a :: l, b => if key b = key a then merge a b :: l else a :: upsert l b

/-- Put all of `bs`, one after another. -/
def upsertAll (l bs : List α) : List α := bs.foldl (upsert key merge) l

variable {key merge} {l bs : List α} {a b c : α}

@[simp] theorem upsert_nil (b : α) : upsert key merge [] b = [b] := rfl

theorem upsert_cons_eq (h : key b = key a) : upsert key merge (a :: l) b = merge a b :: l :=
  if_pos h

theorem upsert_cons_ne (h : key b ≠ key a) :
    upsert key merge (a :: l) b = a :: upsert key merge l b := if_neg h

@[simp] theorem upsertAll_nil (l : List α) : upsertAll key merge l [] = l := rfl

@[simp] theorem upsertAll_cons (l : List α) (b : α) (bs : List α) :
    upsertAll key merge l (b :: bs) = upsertAll key merge (upsert key merge l b) bs := rfl

/-! ## The keys -/

/-- A key that is there is kept, another one goes to the end. -/
theorem map_key_upsert (hk : ∀ a b, key (merge a b) = key a) (l : List α) (b : α) :
    (upsert key merge l b).map key =
      if key b ∈ l.map key then l.map key else l.map key ++ [key b] := by
  induction l with
  | nil => simp
  | cons a l ih =>
    by_cases h : key b = key a
    · rw [upsert_cons_eq h]
      simp [hk, h]
    · rw [upsert_cons_ne h, List.map_cons, ih]
      by_cases hm : key b ∈ l.map key
      · rw [if_pos hm, if_pos (by simp only [List.map_cons, List.mem_cons]; exact Or.inr hm)]
        rfl
      · rw [if_neg hm, if_neg (by simp only [List.map_cons, List.mem_cons]; tauto)]
        rfl

theorem nodup_map_upsert (hk : ∀ a b, key (merge a b) = key a) (h : (l.map key).Nodup) :
    ((upsert key merge l b).map key).Nodup := by
  rw [map_key_upsert hk]
  by_cases hb : key b ∈ l.map key
  · rwa [if_pos hb]
  · rw [if_neg hb]
    exact List.nodup_append.mpr ⟨h, List.nodup_singleton _, fun x hx y hy hxy =>
      hb (List.mem_singleton.mp hy ▸ hxy ▸ hx)⟩

/-- **Distinct keys stay distinct.** -/
theorem nodup_map_upsertAll (hk : ∀ a b, key (merge a b) = key a) (bs : List α)
    (h : (l.map key).Nodup) : ((upsertAll key merge l bs).map key).Nodup := by
  induction bs generalizing l with
  | nil => exact h
  | cons b bs ih => exact ih (nodup_map_upsert hk h)

/-! ## The elements -/

/-- An element with another key stays. -/
theorem mem_upsert_of_ne (h : c ∈ l) (hne : key b ≠ key c) : c ∈ upsert key merge l b := by
  induction l with
  | nil => exact absurd h List.not_mem_nil
  | cons a l ih =>
    by_cases hba : key b = key a
    · rw [upsert_cons_eq hba]
      rcases List.mem_cons.mp h with rfl | hc
      · exact absurd hba hne
      · exact List.mem_cons_of_mem _ hc
    · rw [upsert_cons_ne hba]
      rcases List.mem_cons.mp h with rfl | hc
      · exact List.mem_cons_self
      · exact List.mem_cons_of_mem _ (ih hc)

theorem mem_upsertAll_of_notMem (h : c ∈ l) (hne : key c ∉ bs.map key) :
    c ∈ upsertAll key merge l bs := by
  induction bs generalizing l with
  | nil => exact h
  | cons b bs ih =>
    rw [List.map_cons, List.mem_cons, not_or] at hne
    exact ih (mem_upsert_of_ne h (Ne.symm hne.1)) hne.2

/-- Where merging takes the new element, it is there afterwards. -/
theorem mem_upsert (hm : ∀ a b, key b = key a → merge a b = b) (l : List α) (b : α) :
    b ∈ upsert key merge l b := by
  induction l with
  | nil => exact List.mem_singleton_self b
  | cons a l ih =>
    by_cases hba : key b = key a
    · rw [upsert_cons_eq hba, hm a b hba]
      exact List.mem_cons_self
    · rw [upsert_cons_ne hba]
      exact List.mem_cons_of_mem _ ih

/-- **All elements put are there afterwards**, if their keys are distinct. -/
theorem mem_upsertAll (hm : ∀ a b, key b = key a → merge a b = b) (hbs : (bs.map key).Nodup)
    (l : List α) : ∀ b ∈ bs, b ∈ upsertAll key merge l bs := by
  induction bs generalizing l with
  | nil => exact fun b hb => absurd hb List.not_mem_nil
  | cons b bs ih =>
    obtain ⟨hb, hbs⟩ := List.nodup_cons.mp hbs
    intro c hc
    rw [upsertAll_cons]
    rcases List.mem_cons.mp hc with rfl | hc
    · exact mem_upsertAll_of_notMem (mem_upsert hm l c) hb
    · exact ih hbs _ c hc

end Upsert
