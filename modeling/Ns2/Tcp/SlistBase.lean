import Ns2.Lib.Circular

/-!
# The intrusive circular list of the session agents

`slist_base` of `tcp/nilist.cc`, which keeps the segments and the connections of a `CorresHost`.

* `SlistBase` — the links and the keys of the nodes, with the fields of the list.
* `SlistBase.insert`, `append`, `remove`, `get`, `find` — the operations.  `get` and `find` have no
  result where they would follow a null pointer.
* `SlistBase.Cycle` — the nodes form the cycle of a list; one lemma an operation says of which.
* `SlistBase.find_eq` — `find` returns the first node with the key.
-/

namespace Ns2.Tcp

variable {Slink : Type*} [DecidableEq Slink]

/-! ## The list -/

/-- A list, with the fields of all nodes. -/
structure SlistBase (Slink : Type*) where
  next_ : Slink → Option Slink
  key_ : Slink → ℤ
  last_ : Option Slink
  count_ : ℤ
  append_count_ : ℤ
  remove_count_ : ℤ

namespace SlistBase

/-- The constructor without arguments. -/
def new (next_ : Slink → Option Slink) (key_ : Slink → ℤ) : SlistBase Slink :=
  ⟨next_, key_, none, 0, 0, 0⟩

/-- `p->next_ = v` -/
def setNext (s : SlistBase Slink) (p : Slink) (v : Option Slink) : SlistBase Slink :=
  { s with next_ := Function.update s.next_ p v }

/-- `insert(a)`: add at head. -/
def insert (s : SlistBase Slink) (a : Slink) : SlistBase Slink :=
  let s := { s with count_ := s.count_ + 1 }
  match s.last_ with
  | some l => (s.setNext a (s.next_ l)).setNext l (some a)
  | none => { s with last_ := some a }.setNext a (some a)

/-- `append(a)`: add at tail. -/
def append (s : SlistBase Slink) (a : Slink) : SlistBase Slink :=
  let s := { s with append_count_ := s.append_count_ + 1, count_ := s.count_ + 1 }
  match s.last_ with
  | some l => { (s.setNext a (s.next_ l)).setNext l (some a) with last_ := some a }
  | none => { s.setNext a (some a) with last_ := some a }

/-- The node `a` is unlinked through `prev`, and the pointer to the last node follows. -/
def unlink (s : SlistBase Slink) (a prev l : Slink) : SlistBase Slink :=
  let s := s.setNext prev (s.next_ a)
  let l := if l = a then prev else l
  { s with last_ := if s.next_ l = some a then none else some l }

/-- `remove(a, prev)`.  What it prints for a `prev` that is not before `a` is left out. -/
def remove (s : SlistBase Slink) (a : Slink) (prev : Option Slink) : SlistBase Slink :=
  let s := { s with remove_count_ := s.remove_count_ + 1, count_ := s.count_ - 1 }
  match s.last_ with
  | none => s
  | some l =>
      match prev with
      | some prev => s.unlink a prev l
      | none => if s.next_ l = some a then s.unlink a l l else s

/-- `get()`: remove from head. -/
def get (s : SlistBase Slink) : Option (Option Slink × SlistBase Slink) :=
  let s := { s with count_ := s.count_ - 1 }
  match s.last_ with
  | none => some (none, s)
  | some l =>
      match s.next_ l with
      | none => none
      | some f =>
          if f = l then some (some f, { s with last_ := none })
          else some (some f, s.setNext l (s.next_ f))

/-- `find(key)`, with at most `fuel` rounds. -/
def find (fuel : ℕ) (s : SlistBase Slink) (key : ℤ) : Option (Option Slink) :=
  match s.last_ with
  | none => some none
  | some l => Linked.walkFrom s.next_ l (fun cur => s.key_ cur = key) fuel l

/-! ## What one operation does to the cycle -/

open Linked

variable {s : SlistBase Slink} {a p : Slink} {xs : List Slink}

/-- The nodes are the cycle of the list `xs`. -/
def Cycle (s : SlistBase Slink) (xs : List Slink) : Prop := IsCircular s.next_ s.last_ xs

omit [DecidableEq Slink] in
/-- Without a last node there is none. -/
theorem Cycle.eq_nil (h : s.Cycle xs) (hl : s.last_ = none) : xs = [] := by
  rw [Cycle, hl] at h
  exact h.last_eq_none_iff.1 rfl

omit [DecidableEq Slink] in
theorem new_cycle (next_ : Slink → Option Slink) (key_ : Slink → ℤ) : (new next_ key_).Cycle [] :=
  IsCircular.nil

@[simp] theorem insert_count (s : SlistBase Slink) (a : Slink) :
    (s.insert a).count_ = s.count_ + 1 := by
  unfold insert
  cases s.last_ <;> rfl

@[simp] theorem append_count (s : SlistBase Slink) (a : Slink) :
    (s.append a).count_ = s.count_ + 1 := by
  unfold append
  cases s.last_ <;> rfl

/-- The counter goes down whether or not a node is taken out. -/
@[simp] theorem remove_count (s : SlistBase Slink) (a : Slink) (prev : Option Slink) :
    (s.remove a prev).count_ = s.count_ - 1 := by
  unfold remove
  cases s.last_ with
  | none => rfl
  | some l =>
      cases prev with
      | none => dsimp only; split <;> rfl
      | some p => rfl

theorem insert_cycle (h : s.Cycle xs) (ha : a ∉ xs) : (s.insert a).Cycle (a :: xs) := by
  unfold insert
  cases hl : s.last_ with
  | none =>
      rw [h.eq_nil hl]
      exact IsCircular.singleton (Function.update_self _ _ _)
  | some l =>
      rw [Cycle, hl] at h
      simpa [Cycle, setNext, hl] using h.cons ha

theorem append_cycle (h : s.Cycle xs) (ha : a ∉ xs) : (s.append a).Cycle (xs ++ [a]) := by
  unfold append
  cases hl : s.last_ with
  | none =>
      rw [h.eq_nil hl]
      exact IsCircular.singleton (Function.update_self _ _ _)
  | some l =>
      -- the same links as for a node at the head, read from the next node
      rw [Cycle, hl] at h
      have hrot := (h.cons ha).rotate (A := [a]) (B := xs)
      rw [List.getLast?_concat] at hrot
      simpa [Cycle, setNext, hl] using hrot

theorem unlink_cycle {l : Slink} (h : s.Cycle xs) (hl : s.last_ = some l) (hp : p ∈ xs)
    (ha : a ∈ xs) (hpa : s.next_ p = some a) : (s.unlink a p l).Cycle (xs.erase a) := by
  unfold Cycle at *
  rw [hl] at h
  obtain ⟨A, B, rfl⟩ := List.append_of_mem ha
  have hA := (notMem_of_nodup h.nodup).1
  rw [List.erase_append_right _ hA, List.erase_cons_head]
  have hlast := h.last_remove hp hpa
  have hrem := h.remove hp hpa
  rw [← hlast] at hrem
  exact hrem

/-- A node is taken out through the node before it. -/
theorem remove_cycle (h : s.Cycle xs) (hpa : [p, a] <:+: xs ++ xs.take 1) :
    (s.remove a (some p)).Cycle (xs.erase a) := by
  obtain ⟨hnext, hp, ha⟩ := IsCircular.next_of_infix h hpa
  cases hl : s.last_ with
  | none =>
      rw [h.eq_nil hl] at hp
      exact absurd hp List.not_mem_nil
  | some l =>
      have hs : { s with remove_count_ := s.remove_count_ + 1, count_ := s.count_ - 1 }.Cycle xs := h
      simpa [remove, hl] using unlink_cycle hs hl hp ha hnext

/-- Without the node before it, a node is taken out only if it is the first one. -/
theorem remove_none_cycle (h : s.Cycle xs) (ha : xs.head? = some a ∨ a ∉ xs) :
    (s.remove a none).Cycle (xs.erase a) := by
  cases hl : s.last_ with
  | none =>
      obtain rfl := h.eq_nil hl
      simp [remove, hl, Cycle, IsCircular.nil]
  | some l =>
      have hs : { s with remove_count_ := s.remove_count_ + 1, count_ := s.count_ - 1 }.Cycle xs := h
      have hc : IsCircular s.next_ (some l) xs := hl ▸ h
      have hnext := hc.next_last
      by_cases hhead : s.next_ l = some a
      · have hmem : a ∈ xs := List.mem_of_head? (hnext ▸ hhead)
        have hlmem : l ∈ xs := List.mem_of_getLast? hc.last_eq.symm
        simpa [remove, hl, hhead] using unlink_cycle hs hl hlmem hmem hhead
      · have hnot : a ∉ xs := ha.resolve_left fun hx => hhead (hnext.trans hx)
        rw [List.erase_of_not_mem hnot]
        simpa [remove, hl, hhead] using hs

/-- The first node is returned, if there is one; the counter goes down in any case. -/
theorem get_cycle (h : s.Cycle xs) :
    ∃ t, s.get = some (xs.head?, t) ∧ t.Cycle xs.tail ∧ t.count_ = s.count_ - 1 := by
  cases hl : s.last_ with
  | none =>
      obtain rfl := h.eq_nil hl
      exact ⟨{ s with count_ := s.count_ - 1 }, by simp [get, hl], h, rfl⟩
  | some l =>
      have hc : IsCircular s.next_ (some l) xs := hl ▸ h
      have hlast := hc.last_eq
      cases xs with
      | nil => simp at hlast
      | cons f xs =>
          have hf : s.next_ l = some f := hc.next_last
          by_cases hfl : f = l
          · have hxs : xs = [] := (hc.eq_last_iff (A := [])).1 hfl
            subst hxs
            refine ⟨_, by simp only [get, hl, hf, if_pos hfl]; rfl, ?_, rfl⟩
            exact IsCircular.nil
          · have hxs : xs ≠ [] := fun hxs => hfl ((hc.eq_last_iff (A := [])).2 hxs)
            refine ⟨_, by simp only [get, hl, hf, if_neg hfl]; rfl, ?_, rfl⟩
            simpa [Cycle, setNext, hl] using hc.tail hxs

/-- **`find` returns the first node with the key**, or nothing if there is none; it goes around
once. -/
theorem find_eq (h : s.Cycle xs) (key : ℤ) {fuel : ℕ} (hfuel : xs.length ≤ fuel) :
    s.find fuel key = some (xs.find? fun x => s.key_ x = key) := by
  cases hl : s.last_ with
  | none =>
      rw [find, hl, h.eq_nil hl]
      rfl
  | some l =>
      have hc : IsCircular s.next_ (some l) xs := hl ▸ h
      have hne : xs ≠ [] := by
        rintro rfl
        simpa using hc.last_eq
      rw [find, hl]
      exact walkFrom_eq hc _ xs (A := []) rfl hne hc.next_last hfuel

end SlistBase

end Ns2.Tcp
