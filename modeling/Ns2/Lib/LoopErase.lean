import Mathlib

/-!
# Erasing the loops of a walk

A walk that comes back to a node it has been to can skip everything in between.  Nodes are compared
by a key.

* `LoopErase.Erases key xs r` — `r` is what is left of `xs` when every node that comes back is
  replaced by its last visit.
* `Erases.nodup`, `Erases.head?`, `Erases.getLast?` — no key twice, the same ends.
* `Erases.isInfix` — two keys in a row were already in a row.
* `Erases.unique` — the result is determined.
* `Erases.eq_of_nodup` — a walk without loops is left as it is.
-/

namespace LoopErase

variable {α κ : Type*} {key : α → κ} {xs r : List α}

/-- From the front, each node is replaced by the last one with its key, and what is between them is
left out. -/
inductive Erases (key : α → κ) : List α → List α → Prop
  | nil : Erases key [] []
  | cons {B ys r : List α} {y : α} (back : ∀ x ∈ B.head?, key x = key y)
      (last : key y ∉ ys.map key) (rest : Erases key ys r) : Erases key (B ++ y :: ys) (y :: r)

theorem key_eq_of_split {y y' : α} {B B' ys ys' : List α} (hB : ∀ x ∈ B.head?, key x = key y)
    (hB' : ∀ x ∈ B'.head?, key x = key y') (h : B ++ y :: ys = B' ++ y' :: ys') :
    key y = key y' := by
  have hfirst (A : List α) (z : α) (zs : List α) (hA : ∀ x ∈ A.head?, key x = key z) :
      (A ++ z :: zs).head?.map key = some (key z) := by
    cases A with
    | nil => rfl
    | cons a A => simp [hA a (by simp)]
  rw [← Option.some_inj, ← hfirst B y ys hB, ← hfirst B' y' ys' hB', h]

/-- A list is split in one way at the last node with a given key. -/
theorem split_last_unique {y y' : α} {B B' ys ys' : List α} (hkey : key y = key y')
    (hy : key y ∉ ys.map key) (hy' : key y' ∉ ys'.map key) (h : B ++ y :: ys = B' ++ y' :: ys') :
    B = B' ∧ y = y' ∧ ys = ys' := by
  rcases List.append_eq_append_iff.1 h with ⟨C, hB, hC⟩ | ⟨C, hB, hC⟩
  · cases C with
    | nil =>
        obtain ⟨rfl, rfl⟩ := List.cons.inj hC
        exact ⟨by rw [hB, List.append_nil], rfl, rfl⟩
    | cons c C =>
        obtain ⟨-, rfl⟩ := List.cons.inj hC
        exact absurd (by rw [hkey]; simp) hy
  · cases C with
    | nil =>
        obtain ⟨rfl, rfl⟩ := List.cons.inj hC
        exact ⟨by rw [hB, List.append_nil], rfl, rfl⟩
    | cons c C =>
        obtain ⟨-, rfl⟩ := List.cons.inj hC
        exact absurd (by rw [← hkey]; simp) hy'

namespace Erases

/-- A node whose key comes back gives way to the last one with that key. -/
theorem cut {x y : α} {B ys : List α} (hxy : key x = key y) (hy : key y ∉ ys.map key)
    (h : Erases key ys r) : Erases key (x :: B ++ y :: ys) (y :: r) := by
  refine cons (B := x :: B) ?_ hy h
  intro z hz
  rw [List.head?_cons, Option.mem_some_iff] at hz
  rw [← hz, hxy]

/-- Only nodes are left out. -/
theorem sublist (h : Erases key xs r) : r.Sublist xs := by
  induction h with
  | nil => exact List.Sublist.refl []
  | @cons B ys r y _ _ _ ih => exact (ih.cons_cons y).trans (List.sublist_append_right B _)

/-- **No key is left twice.** -/
theorem nodup (h : Erases key xs r) : (r.map key).Nodup := by
  induction h with
  | nil => exact List.nodup_nil
  | @cons B ys r y _ hy h ih =>
      rw [List.map_cons, List.nodup_cons]
      exact ⟨fun hmem => hy ((h.sublist.map key).subset hmem), ih⟩

/-- The first key is the same. -/
theorem head? (h : Erases key xs r) : (r.map key).head? = (xs.map key).head? := by
  cases h with
  | nil => rfl
  | @cons B ys r y hB _ _ =>
      cases B with
      | nil => rfl
      | cons b B =>
          have hb : key b = key y := hB b (by simp)
          simp [hb]

/-- The last node is the same. -/
theorem getLast? (h : Erases key xs r) : r.getLast? = xs.getLast? := by
  induction h with
  | nil => rfl
  | @cons B ys r y _ _ _ ih => rw [List.getLast?_append_cons, List.getLast?_cons,
      List.getLast?_cons, ih]

/-- **Two keys in a row were in a row before.** -/
theorem isInfix (h : Erases key xs r) {a b : κ} (hab : [a, b] <:+: r.map key) :
    [a, b] <:+: xs.map key := by
  induction h with
  | nil => exact hab
  | @cons B ys r y _ _ h ih =>
      rw [List.map_append, List.map_cons]
      rw [List.map_cons, List.infix_cons_iff] at hab
      rcases hab with hpre | hin
      · -- the node after the new one is the first of the rest
        obtain ⟨rfl, hr⟩ := List.cons_prefix_cons.1 hpre
        obtain ⟨u, hu⟩ := hr
        have hhead : (ys.map key).head? = some b := by rw [← h.head?, ← hu]; rfl
        obtain ⟨t, ht⟩ := List.head?_eq_some_iff.1 hhead
        exact ⟨B.map key, t, by rw [ht]; simp⟩
      · exact (ih hin).trans ((List.suffix_cons _ _).trans (List.suffix_append _ _)).isInfix

/-- There is one way to erase the loops. -/
theorem unique {r' : List α} (h : Erases key xs r) (h' : Erases key xs r') : r = r' := by
  induction h generalizing r' with
  | nil =>
      generalize hxs : ([] : List α) = xs at h'
      cases h' with
      | nil => rfl
      | cons _ _ _ => simp at hxs
  | @cons B ys r y hB hy _ ih =>
      generalize hxs : B ++ y :: ys = xs at h'
      cases h' with
      | nil => simp at hxs
      | @cons B' ys' r' y' hB' hy' h' =>
          -- both nodes have the key of the first one, and it does not come back after either
          have hkey : key y = key y' := key_eq_of_split hB hB' hxs
          obtain ⟨-, rfl, rfl⟩ := split_last_unique hkey hy hy' hxs
          rw [ih h']

/-- A walk that never comes back is left as it is. -/
theorem eq_of_nodup (h : Erases key xs r) (hxs : (xs.map key).Nodup) : r = xs := by
  induction h with
  | nil => rfl
  | @cons B ys r y hB _ _ ih =>
      rw [List.map_append, List.nodup_append] at hxs
      cases B with
      | nil => rw [List.nil_append, ih (List.nodup_cons.1 hxs.2.1).2]
      | cons b B =>
          have hb : key b = key y := hB b (by simp)
          exact absurd hb (hxs.2.2 _ (by simp) _ (by simp))

end Erases

end LoopErase
