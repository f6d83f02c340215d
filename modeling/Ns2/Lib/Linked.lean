import Mathlib

/-!
# Doubly linked lists in a heap

A heap is one map per field of its nodes.  Two of the maps, `nxt` and `prv`, and
two pointers, `hd` and `tl`, represent a list `xs` of nodes when following them
in either direction visits `xs`.

* `IsDList nxt prv hd tl xs` — the representation, stated split by split: in
  `xs = A ++ x :: B` the node `x` points forward to the head of `B` and back to
  the last node of `A`.
* `IsDList.unlink` — taking a node out, by the usual four assignments.
* `IsDList.insert` — putting a node in between two neighbours.
* `IsSList nxt hd xs` — the singly linked variant, with `cons`, `tail`, `snoc` and
  `unlinkAfter`; its nodes are those that the pointers reach from the head.
* `walk`, `walk_forward`, `walk_backward` — the `while (p && go(p)) p = p->next`
  loop, in both directions, with the fuel it needs.
* `search`, `IsSList.search_spec` — the loop that also remembers the node before.
-/

namespace Linked

variable {α : Type*}

/-- `nxt`, `prv`, `hd` and `tl` represent the doubly linked list of the nodes `xs`. -/
structure IsDList (nxt prv : α → Option α) (hd tl : Option α) (xs : List α) : Prop where
  /-- No node occurs twice. -/
  nodup : xs.Nodup
  /-- The head pointer. -/
  head : hd = xs.head?
  /-- The tail pointer. -/
  tail : tl = xs.getLast?
  /-- Each node points forward to the node after it. -/
  next : ∀ A x B, xs = A ++ x :: B → nxt x = B.head?
  /-- Each node points back to the node before it. -/
  prev : ∀ A x B, xs = A ++ x :: B → prv x = A.getLast?

/-- Assign `v` to the field `f` of the node behind a pointer; nothing happens for
the null pointer. -/
def setAt [DecidableEq α] (f : α → Option α) : Option α → Option α → α → Option α
  | none, _ => f
  | some a, v => Function.update f a v

section SetAt

variable [DecidableEq α] (f : α → Option α) (v : Option α)

@[simp] theorem setAt_none : setAt f none v = f := rfl

@[simp] theorem setAt_some (a : α) : setAt f (some a) v = Function.update f a v := rfl

theorem setAt_of_ne {p : Option α} {x : α} (h : p ≠ some x) : setAt f p v x = f x := by
  cases p with
  | none => rfl
  | some a => exact Function.update_of_ne (fun hx => h (by rw [hx])) _ _

theorem setAt_of_eq {p : Option α} {x : α} (h : p = some x) : setAt f p v x = v := by
  subst h
  exact Function.update_self _ _ _

end SetAt

/-! ## Lists and their splits -/

theorem getLast?_ne_some {A : List α} {x : α} (h : x ∉ A) : A.getLast? ≠ some x :=
  fun hx => h (List.mem_of_getLast? hx)

theorem head?_ne_some {B : List α} {x : α} (h : x ∉ B) : B.head? ≠ some x :=
  fun hx => h (List.mem_of_head? hx)

/-- The last node, when others come after `y`. -/
theorem getLast?_append_cons_ne {C E : List α} {y e : α} (h : y ∉ e :: E) :
    (C ++ y :: e :: E).getLast? ≠ some y := by
  rw [List.getLast?_append_of_ne_nil _ (by simp), List.getLast?_cons_cons]
  exact getLast?_ne_some h

theorem head?_cons_append_ne {D E : List α} {y e : α} (h : y ∉ e :: E) :
    (e :: E ++ y :: D).head? ≠ some y := by
  rw [List.cons_append, List.head?_cons]
  rintro he
  exact h (Option.some.inj he ▸ List.mem_cons_self)

/-- The head pointer, when what follows `A` is replaced. -/
theorem head?_replace {A B C : List α} {hd x : Option α} (hhd : hd = (A ++ B).head?) (hx : x = C.head?) :
    (if A.getLast? = none then x else hd) = (A ++ C).head? := by
  by_cases hA : A = []
  · simp [hA, hx]
  · rw [if_neg (by simpa using hA), hhd, List.head?_append_of_ne_nil _ hA, List.head?_append_of_ne_nil _ hA]

/-- The tail pointer, when what is before `B` is replaced. -/
theorem getLast?_replace {A B C : List α} {tl x : Option α} (htl : tl = (A ++ B).getLast?)
    (hx : x = C.getLast?) : (if B.head? = none then x else tl) = (C ++ B).getLast? := by
  by_cases hB : B = []
  · simp [hB, hx]
  · rw [if_neg (by simpa using hB), htl, List.getLast?_append_of_ne_nil _ hB,
      List.getLast?_append_of_ne_nil _ hB]

/-- A node of a list without repetitions occurs in one place only. -/
theorem split_unique {A B A' B' : List α} {x : α} (hnd : (A ++ x :: B).Nodup)
    (h : A ++ x :: B = A' ++ x :: B') : A = A' ∧ B = B' := by
  induction A generalizing A' with
  | nil =>
    cases A' with
    | nil => exact ⟨rfl, (List.cons.inj h).2⟩
    | cons y ys =>
      obtain ⟨rfl, hB⟩ := List.cons.inj h
      rw [List.nil_append, List.nodup_cons] at hnd
      exact absurd (hB ▸ List.mem_append_right _ List.mem_cons_self) hnd.1
  | cons a A ih =>
    rw [List.cons_append, List.nodup_cons] at hnd
    cases A' with
    | nil =>
      obtain ⟨rfl, -⟩ := List.cons.inj h
      exact absurd (List.mem_append_right _ List.mem_cons_self) hnd.1
    | cons y ys =>
      obtain ⟨rfl, h'⟩ := List.cons.inj h
      obtain ⟨rfl, rfl⟩ := ih hnd.2 h'
      exact ⟨rfl, rfl⟩

/-- The node in the middle of a list without repetitions is in neither half. -/
theorem notMem_of_nodup {A B : List α} {x : α} (h : (A ++ x :: B).Nodup) : x ∉ A ∧ x ∉ B := by
  rw [List.nodup_middle, List.nodup_cons, List.mem_append, not_or] at h
  exact h.1

/-- Filtering out the node in the middle. -/
theorem filter_ne_middle [DecidableEq α] {A B : List α} {x : α} (h : (A ++ x :: B).Nodup) :
    (A ++ x :: B).filter (fun y => decide (y ≠ x)) = A ++ B := by
  obtain ⟨hA, hB⟩ := notMem_of_nodup h
  rw [List.filter_append, List.filter_cons, if_neg (by simp),
    List.filter_eq_self.mpr fun y hy => decide_eq_true (ne_of_mem_of_not_mem hy hA),
    List.filter_eq_self.mpr fun y hy => decide_eq_true (ne_of_mem_of_not_mem hy hB)]

/-- Erasing the first node that meets a test. -/
theorem eraseP_middle {f : α → Bool} {A B : List α} {x : α} (hA : ∀ y ∈ A, ¬ f y = true)
    (hx : f x = true) : (A ++ x :: B).eraseP f = A ++ B := by
  rw [List.eraseP_append_right _ hA, List.eraseP_cons_of_pos hx]

theorem nodup_remove {A B : List α} {x : α} (h : (A ++ x :: B).Nodup) : (A ++ B).Nodup := by
  rw [List.nodup_middle, List.nodup_cons] at h
  exact h.2

/-- Where a node of `A ++ B` sits: in the left part or in the right one. -/
theorem split_append {A B C D : List α} {y : α} (h : A ++ B = C ++ y :: D) :
    (∃ E, A = C ++ y :: E ∧ D = E ++ B) ∨ (∃ E, C = A ++ E ∧ B = E ++ y :: D) := by
  rcases List.append_eq_append_iff.mp h with ⟨E, hC, hB⟩ | ⟨E, hA, hD⟩
  · exact Or.inr ⟨E, hC, hB⟩
  · cases E with
    | nil =>
      refine Or.inr ⟨[], by simpa using hA.symm, ?_⟩
      simpa using hD.symm
    | cons e E =>
      obtain ⟨rfl, rfl⟩ := List.cons.inj hD
      exact Or.inl ⟨E, hA, rfl⟩

namespace IsDList

variable {nxt prv : α → Option α} {hd tl : Option α} {xs A B : List α} {x : α}

/-! ## Reading the pointers -/

/-- The same list seen through other maps that agree with the old ones on it. -/
theorem congr {nxt' prv' : α → Option α} (h : IsDList nxt prv hd tl xs)
    (hn : ∀ x ∈ xs, nxt' x = nxt x) (hp : ∀ x ∈ xs, prv' x = prv x) :
    IsDList nxt' prv' hd tl xs where
  nodup := h.nodup
  head := h.head
  tail := h.tail
  next A x B he := by
    rw [hn x (by rw [he]; simp)]
    exact h.next A x B he
  prev A x B he := by
    rw [hp x (by rw [he]; simp)]
    exact h.prev A x B he

theorem empty : IsDList nxt prv none none ([] : List α) :=
  ⟨List.nodup_nil, rfl, rfl, by simp, by simp⟩

/-! ## Taking a node out and putting one in -/

variable [DecidableEq α]

/-- **Unlinking.**  The four assignments that take a node out of a doubly linked
list leave the list without it. -/
theorem unlink {p : α} (h : IsDList nxt prv hd tl (A ++ p :: B)) :
    IsDList (setAt nxt (prv p) (nxt p)) (setAt prv (nxt p) (prv p))
      (if prv p = none then nxt p else hd) (if nxt p = none then prv p else tl) (A ++ B) := by
  have hnd := h.nodup
  obtain ⟨hpA, hpB⟩ := notMem_of_nodup hnd
  have hnd' := nodup_remove hnd
  have hdisj := (List.nodup_append.mp hnd').2.2
  rw [h.next A p B rfl, h.prev A p B rfl]
  refine ⟨hnd', ?_, ?_, ?_, ?_⟩
  · exact head?_replace h.head rfl
  · have htl : tl = ((A ++ [p]) ++ B).getLast? := by
      rw [h.tail, List.append_assoc, List.singleton_append]
    exact getLast?_replace htl rfl
  · intro C y D he
    rcases split_append he with ⟨E, rfl, rfl⟩ | ⟨E, rfl, rfl⟩
    · -- `y` stays before the hole: only the last node before it is redirected
      cases E with
      | nil =>
        rw [setAt_of_eq _ _ (by simp)]
        simp
      | cons e E =>
        have hy : y ∉ e :: E := (notMem_of_nodup (List.nodup_append.mp hnd').1).2
        rw [setAt_of_ne _ _ (getLast?_append_cons_ne hy)]
        simpa using h.next C y (e :: E ++ p :: B) (by simp)
    · have hy : y ∉ A := fun hyA => hdisj y hyA y (by simp) rfl
      rw [setAt_of_ne _ _ (getLast?_ne_some hy)]
      exact h.next (A ++ p :: E) y D (by simp)
  · intro C y D he
    rcases split_append he with ⟨E, rfl, rfl⟩ | ⟨E, rfl, rfl⟩
    · have hy : y ∉ B := fun hyB => hdisj y (by simp) y hyB rfl
      rw [setAt_of_ne _ _ (head?_ne_some hy)]
      exact h.prev C y (E ++ p :: B) (by simp)
    · -- `y` comes after the hole: only the first node after it is redirected
      cases E with
      | nil =>
        rw [setAt_of_eq _ _ (by simp)]
        simp
      | cons e E =>
        have hy : y ∉ e :: E := (notMem_of_nodup (List.nodup_append.mp hnd').2.1).1
        rw [setAt_of_ne _ _ (head?_cons_append_ne hy)]
        have := h.prev (A ++ p :: e :: E) y D (by simp)
        rw [this, List.getLast?_append_of_ne_nil _ (by simp), List.getLast?_cons_cons,
          List.getLast?_append_of_ne_nil _ (by simp)]

/-- **Linking in.**  The assignments that put a fresh node between two neighbours. -/
theorem insert {n : α} (h : IsDList nxt prv hd tl (A ++ B)) (hn : n ∉ A ++ B) :
    IsDList (setAt (Function.update nxt n B.head?) A.getLast? (some n))
      (setAt (Function.update prv n A.getLast?) B.head? (some n))
      (if A.getLast? = none then some n else hd) (if B.head? = none then some n else tl)
      (A ++ n :: B) := by
  have hnA : n ∉ A := fun hA => hn (List.mem_append_left _ hA)
  have hnB : n ∉ B := fun hB => hn (List.mem_append_right _ hB)
  have hnd : (A ++ n :: B).Nodup := by
    rw [List.nodup_middle, List.nodup_cons]
    exact ⟨hn, h.nodup⟩
  have hdisj := (List.nodup_append.mp h.nodup).2.2
  refine ⟨hnd, ?_, ?_, ?_, ?_⟩
  · exact head?_replace h.head rfl
  · have hlast : A ++ n :: B = (A ++ [n]) ++ B := by
      rw [List.append_assoc, List.singleton_append]
    rw [hlast]
    exact getLast?_replace h.tail (by simp)
  · intro C y D he
    rcases split_append he with ⟨E, rfl, rfl⟩ | ⟨E, rfl, hB⟩
    · have hyn : y ≠ n := fun hyn => hnA (by simp [hyn])
      cases E with
      | nil =>
        rw [setAt_of_eq _ _ (by simp)]
        simp
      | cons e E =>
        have hy : y ∉ e :: E := (notMem_of_nodup (List.nodup_append.mp h.nodup).1).2
        rw [setAt_of_ne _ _ (getLast?_append_cons_ne hy), Function.update_of_ne hyn]
        simpa using h.next C y (e :: E ++ B) (by simp)
    · cases E with
      | nil =>
        obtain ⟨rfl, rfl⟩ := List.cons.inj hB
        rw [setAt_of_ne _ _ (getLast?_ne_some hnA), Function.update_self]
      | cons e E =>
        obtain ⟨rfl, rfl⟩ := List.cons.inj hB
        have hyn : y ≠ n := fun hyn => hnB (by simp [hyn])
        have hy : y ∉ A := fun hyA => hdisj y hyA y (by simp) rfl
        rw [setAt_of_ne _ _ (getLast?_ne_some hy), Function.update_of_ne hyn]
        exact h.next (A ++ E) y D (by simp)
  · intro C y D he
    rcases split_append he with ⟨E, rfl, rfl⟩ | ⟨E, rfl, hB⟩
    · have hyn : y ≠ n := fun hyn => hnA (by simp [hyn])
      have hy : y ∉ B := fun hyB => hdisj y (by simp) y hyB rfl
      rw [setAt_of_ne _ _ (head?_ne_some hy), Function.update_of_ne hyn]
      exact h.prev C y (E ++ B) (by simp)
    · cases E with
      | nil =>
        obtain ⟨rfl, rfl⟩ := List.cons.inj hB
        rw [setAt_of_ne _ _ (head?_ne_some hnB), Function.update_self]
        simp
      | cons e E =>
        obtain ⟨rfl, hB'⟩ := List.cons.inj hB
        rw [List.append_eq] at hB'
        subst hB'
        have hyn : y ≠ n := fun hyn => hnB (by simp [hyn])
        cases E with
        | nil =>
          rw [setAt_of_eq _ _ (by simp)]
          simp
        | cons e E =>
          have hy : y ∉ e :: E := (notMem_of_nodup (List.nodup_append.mp h.nodup).2.1).1
          rw [setAt_of_ne _ _ (head?_cons_append_ne hy), Function.update_of_ne hyn]
          have := h.prev (A ++ e :: E) y D (by simp)
          rw [this, List.getLast?_append_of_ne_nil _ (by simp),
            List.getLast?_append_of_ne_nil _ (by simp), List.getLast?_cons_cons]

end IsDList

/-! ## Singly linked lists -/

/-- `nxt` and `hd` represent the singly linked list of the nodes `xs`. -/
structure IsSList (nxt : α → Option α) (hd : Option α) (xs : List α) : Prop where
  /-- No node occurs twice. -/
  nodup : xs.Nodup
  /-- The head pointer. -/
  head : hd = xs.head?
  /-- Each node points to the node after it. -/
  next : ∀ A x B, xs = A ++ x :: B → nxt x = B.head?

namespace IsSList

variable {nxt nxt' : α → Option α} {hd : Option α} {xs : List α} {x : α}

theorem nil : IsSList nxt none ([] : List α) := ⟨List.nodup_nil, rfl, by simp⟩

theorem congr (h : IsSList nxt hd xs) (hn : ∀ x ∈ xs, nxt' x = nxt x) : IsSList nxt' hd xs where
  nodup := h.nodup
  head := h.head
  next A x B he := by
    rw [hn x (by rw [he]; simp)]
    exact h.next A x B he

theorem tail (h : IsSList nxt hd (x :: xs)) : IsSList nxt (nxt x) xs where
  nodup := h.nodup.of_cons
  head := h.next [] x xs rfl
  next A y B he := h.next (x :: A) y B (by rw [he, List.cons_append])

/-- The pointers represent one list only. -/
theorem unique {ys : List α} (h : IsSList nxt hd xs) (h' : IsSList nxt hd ys) : xs = ys := by
  induction xs generalizing hd ys with
  | nil =>
    have hnil : ys.head? = none := h'.head.symm.trans h.head
    exact (List.head?_eq_none_iff.mp hnil).symm
  | cons x xs ih =>
    have hhead : ys.head? = some x := h'.head.symm.trans h.head
    obtain ⟨ys, rfl⟩ := List.head?_eq_some_iff.mp hhead
    rw [ih h.tail h'.tail]

/-- Putting a node in front. -/
theorem cons [DecidableEq α] (h : IsSList nxt hd xs) (hx : x ∉ xs) :
    IsSList (Function.update nxt x hd) (some x) (x :: xs) where
  nodup := List.nodup_cons.mpr ⟨hx, h.nodup⟩
  head := rfl
  next A y B he := by
    cases A with
    | nil =>
      obtain ⟨rfl, rfl⟩ := List.cons.inj he
      rw [Function.update_self, h.head]
    | cons a A =>
      obtain ⟨rfl, rfl⟩ := List.cons.inj he
      rw [Function.update_of_ne]
      · exact h.next A y B rfl
      · rintro rfl
        exact hx (by simp)

/-- Putting a node at the end, behind the last one. -/
theorem snoc [DecidableEq α] (h : IsSList nxt hd xs) (hx : x ∉ xs) :
    IsSList (Function.update (setAt nxt xs.getLast? (some x)) x none)
      (if xs.getLast? = none then some x else hd) (xs ++ [x]) where
  nodup := by
    rw [List.nodup_append]
    refine ⟨h.nodup, List.nodup_singleton x, ?_⟩
    rintro a ha b hb rfl
    exact hx (List.mem_singleton.mp hb ▸ ha)
  head := by
    by_cases hxs : xs = []
    · simp [hxs]
    · rw [if_neg (by simpa using hxs), h.head, List.head?_append_of_ne_nil _ hxs]
  next A y B he := by
    rcases split_append he with ⟨E, rfl, rfl⟩ | ⟨E, rfl, hB⟩
    · have hyx : y ≠ x := by
        rintro rfl
        exact hx (by simp)
      rw [Function.update_of_ne hyx]
      cases E with
      | nil =>
        rw [setAt_of_eq _ _ (by simp)]
        rfl
      | cons e E =>
        have hy : y ∉ e :: E := (notMem_of_nodup h.nodup).2
        have hlast : (A ++ y :: e :: E).getLast? ≠ some y := by
          rw [List.getLast?_append_of_ne_nil _ (by simp), List.getLast?_cons_cons]
          exact getLast?_ne_some hy
        rw [setAt_of_ne _ _ hlast, h.next A y (e :: E) rfl]
        rfl
    · cases E with
      | nil =>
        obtain ⟨rfl, rfl⟩ := List.cons.inj hB
        rw [Function.update_self]
        rfl
      | cons e E => exact absurd (List.cons.inj hB).2 (by simp)

/-- Taking out the node behind `q`, by one assignment. -/
theorem unlinkAfter [DecidableEq α] {A B : List α} {q p : α}
    (h : IsSList nxt hd (A ++ q :: p :: B)) :
    IsSList (Function.update nxt q (nxt p)) hd (A ++ q :: B) where
  nodup := by
    have := h.nodup
    rw [show A ++ q :: p :: B = (A ++ [q]) ++ p :: B by simp] at this
    simpa using nodup_remove this
  head := by
    rw [h.head]
    cases A <;> rfl
  next C y D he := by
    have hq := notMem_of_nodup h.nodup
    have hnd : (A ++ q :: B).Nodup := by
      have := h.nodup
      rw [show A ++ q :: p :: B = (A ++ [q]) ++ p :: B by simp] at this
      simpa using nodup_remove this
    by_cases hyq : y = q
    · subst hyq
      obtain ⟨rfl, rfl⟩ := split_unique hnd he
      rw [Function.update_self]
      exact h.next (A ++ [y]) p B (by simp)
    · rw [Function.update_of_ne hyq]
      rcases split_append he with ⟨E, rfl, rfl⟩ | ⟨E, rfl, hB⟩
      · have := h.next C y (E ++ q :: p :: B) (by simp)
        rw [this]
        cases E <;> rfl
      · cases E with
        | nil => exact absurd (List.cons.inj hB).1.symm hyq
        | cons e E =>
          obtain ⟨rfl, rfl⟩ := List.cons.inj hB
          exact h.next (A ++ q :: p :: E) y D (by simp)

end IsSList

/-- The pointers of a doubly linked list represent one list only. -/
theorem IsDList.unique {nxt prv : α → Option α} {hd tl : Option α} {xs ys : List α}
    (h : IsDList nxt prv hd tl xs) (h' : IsDList nxt prv hd tl ys) : xs = ys :=
  IsSList.unique ⟨h.nodup, h.head, h.next⟩ ⟨h'.nodup, h'.head, h'.next⟩

/-- The node `p` is on the path of the pointers from `hd`. -/
def Reachable (nxt : α → Option α) (hd : Option α) (p : α) : Prop :=
  ∃ k, (fun o : Option α => o.bind nxt)^[k] hd = some p

namespace IsSList

variable {nxt : α → Option α} {hd : Option α} {xs : List α}

theorem iterate_next (h : IsSList nxt hd xs) (k : ℕ) :
    (fun o : Option α => o.bind nxt)^[k] hd = xs[k]? := by
  induction k with
  | zero => rw [Function.iterate_zero_apply, h.head, List.head?_eq_getElem?]
  | succ k ih =>
    rw [Function.iterate_succ_apply', ih]
    cases hk : xs[k]? with
    | none =>
      have := List.getElem?_eq_none_iff.mp hk
      rw [Option.bind_none, eq_comm, List.getElem?_eq_none_iff]
      omega
    | some y =>
      obtain ⟨hlt, rfl⟩ := List.getElem?_eq_some_iff.mp hk
      have he : xs = xs.take k ++ xs[k] :: xs.drop (k + 1) := by simp
      rw [Option.bind_some, h.next _ _ _ he, List.head?_drop]

/-- The nodes of the list are the ones that the pointers reach. -/
theorem reachable_iff (h : IsSList nxt hd xs) {p : α} : Reachable nxt hd p ↔ p ∈ xs := by
  simp only [Reachable, h.iterate_next, List.mem_iff_getElem?]

end IsSList

/-! ## Walking along the pointers -/

/-- `while (p && go(p)) p = nxt(p);` with a bound on the number of tests; `none`
when the bound is reached. -/
def walk (nxt : α → Option α) (go : α → Bool) : ℕ → Option α → Option (Option α)
  | 0, _ => none
  | _ + 1, none => some none
  | fuel + 1, some p => if go p then walk nxt go fuel (nxt p) else some (some p)

/-- Walking forward from the start of the part `B` of a list stops at the first
node of `B` that fails the test. -/
theorem walk_forward {nxt prv : α → Option α} {hd tl : Option α} (go : α → Bool) :
    ∀ {fuel : ℕ} {A B : List α}, IsDList nxt prv hd tl (A ++ B) → B.length < fuel →
      walk nxt go fuel B.head? = some (B.dropWhile go).head? := by
  intro fuel
  induction fuel with
  | zero => intro A B _ hf; exact absurd hf (Nat.not_lt_zero _)
  | succ fuel ih =>
    intro A B h hf
    cases B with
    | nil => rfl
    | cons b B =>
      rw [List.head?_cons, walk, List.dropWhile_cons]
      cases hb : go b with
      | false => simp
      | true =>
        rw [if_pos rfl, if_pos rfl, h.next A b B rfl]
        refine ih (A := A ++ [b]) (by simpa using h) ?_
        simpa using hf

/-- Walking backward from the end of the part `A` of a list stops at the last node
of `A` that fails the test. -/
theorem walk_backward {nxt prv : α → Option α} {hd tl : Option α} (go : α → Bool) :
    ∀ {fuel : ℕ} {A B : List α}, IsDList nxt prv hd tl (A ++ B) → A.length < fuel →
      walk prv go fuel A.getLast? = some (A.rdropWhile go).getLast? := by
  intro fuel
  induction fuel with
  | zero => intro A B _ hf; exact absurd hf (Nat.not_lt_zero _)
  | succ fuel ih =>
    intro A B h hf
    rcases List.eq_nil_or_concat A with rfl | ⟨A, a, rfl⟩
    · rfl
    · rw [List.concat_eq_append] at h hf ⊢
      rw [List.getLast?_append_of_ne_nil _ (by simp), List.getLast?_singleton, walk,
        List.rdropWhile_concat]
      cases ha : go a with
      | false => simp
      | true =>
        rw [if_pos rfl, if_pos rfl, h.prev A a B (by simp)]
        refine ih (B := a :: B) (by simpa using h) ?_
        simpa using hf

/-- `for (p = hd, prev = NULL; p; p = p->next) { if (stop(p)) return; prev = p; }` with a bound on the
number of rounds: where the loop ends, and the node before. -/
def search (nxt : α → Option α) (stop : α → Bool) :
    ℕ → Option α → Option α → Option (Option α × Option α)
  | 0, _, _ => none
  | _ + 1, none, prev => some (none, prev)
  | fuel + 1, some p, prev =>
      if stop p then some (some p, prev) else search nxt stop fuel (nxt p) (some p)

/-- The search from the start of the part `B` of a list ends at the first node of `B` that it looks
for, or behind the last one. -/
theorem IsSList.search_spec {nxt : α → Option α} {hd : Option α} (stop : α → Bool) :
    ∀ {B A : List α} {fuel : ℕ}, IsSList nxt hd (A ++ B) → B.length < fuel →
      ((∀ x ∈ B, stop x = false) ∧
        search nxt stop fuel B.head? A.getLast? = some (none, (A ++ B).getLast?)) ∨
      ∃ C p D, B = C ++ p :: D ∧ stop p = true ∧ (∀ x ∈ C, stop x = false) ∧
        search nxt stop fuel B.head? A.getLast? = some (some p, (A ++ C).getLast?) := by
  intro B
  induction B with
  | nil =>
    intro A fuel _ hf
    obtain ⟨fuel, rfl⟩ := Nat.exists_eq_add_one_of_ne_zero (Nat.ne_of_gt hf)
    exact Or.inl ⟨by simp, by simp [search]⟩
  | cons b B ih =>
    intro A fuel h hf
    obtain ⟨fuel, rfl⟩ := Nat.exists_eq_add_one_of_ne_zero (Nat.ne_of_gt (Nat.zero_lt_of_lt hf))
    rw [List.head?_cons, search]
    cases hb : stop b with
    | true => exact Or.inr ⟨[], b, B, rfl, hb, by simp, by simp⟩
    | false =>
      have hnext : nxt b = B.head? := h.next A b B rfl
      have hlast : some b = (A ++ [b]).getLast? := List.getLast?_concat.symm
      rw [if_neg Bool.false_ne_true, hnext, hlast]
      have hf' : B.length < fuel := Nat.lt_of_succ_lt_succ hf
      rcases ih (A := A ++ [b]) (by simpa using h) hf' with
        ⟨hall, hs⟩ | ⟨C, p, D, rfl, hp, hC, hs⟩
      · exact Or.inl ⟨List.forall_mem_cons.mpr ⟨hb, hall⟩, by rw [hs]; simp⟩
      · exact Or.inr ⟨b :: C, p, D, rfl, hp, List.forall_mem_cons.mpr ⟨hb, hC⟩, by rw [hs]; simp⟩

end Linked
