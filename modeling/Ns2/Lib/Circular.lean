import Ns2.Lib.Linked

/-!
# Circular singly linked lists

A circular list keeps a pointer to its last node; each node points to the node after it, and the
last one to the first.

* `IsCircular nxt last xs` — the map `nxt` and the pointer `last` represent the list `xs`.
* `IsCircular.rotate` — the same cycle read from another node.
* `IsCircular.cons`, `IsCircular.singleton` — a node is put between the last one and the first.
* `IsCircular.remove` — a node is taken out through the node before it.
* `IsCircular.last_remove` — where the pointer to the last node goes then.
* `walkFrom`, `IsCircular.walkFrom_eq` — the loop that looks for a node, once around.
-/

namespace Linked

variable {α : Type*}

/-- `nxt` and `last` represent the circular list of the nodes `xs`. -/
structure IsCircular (nxt : α → Option α) (last : Option α) (xs : List α) : Prop where
  /-- No node occurs twice. -/
  nodup : xs.Nodup
  /-- The pointer to the last node. -/
  last_eq : last = xs.getLast?
  /-- Each node points to the node after it, and the last one to the first. -/
  next : ∀ A x B, xs = A ++ x :: B → nxt x = (B ++ xs).head?

namespace IsCircular

variable {nxt : α → Option α} {last : Option α} {a l p x : α} {A B xs : List α}

theorem nil : IsCircular nxt none ([] : List α) := ⟨List.nodup_nil, rfl, by simp⟩

theorem singleton (h : nxt a = some a) : IsCircular nxt (some a) [a] where
  nodup := List.nodup_singleton a
  last_eq := rfl
  next := by
    intro A x B hxs
    cases A with
    | nil =>
        obtain ⟨rfl, rfl⟩ := List.cons.inj hxs
        exact h
    | cons c A => simp at hxs

theorem last_eq_none_iff (h : IsCircular nxt last xs) : last = none ↔ xs = [] := by
  rw [h.last_eq, List.getLast?_eq_none_iff]

/-- The last node is the one with nothing after it. -/
theorem eq_last_iff (h : IsCircular nxt (some l) (A ++ x :: B)) : x = l ↔ B = [] := by
  have hlast : some l = (x :: B).getLast? := by
    rw [h.last_eq, List.getLast?_append_of_ne_nil _ (List.cons_ne_nil x B)]
  constructor
  · rintro rfl
    by_contra hB
    obtain ⟨b, B, rfl⟩ := List.exists_cons_of_ne_nil hB
    rw [List.getLast?_cons_cons] at hlast
    exact (notMem_of_nodup h.nodup).2 (List.mem_of_getLast? hlast.symm)
  · rintro rfl
    exact (Option.some.inj hlast).symm

/-- The last node points to the first one. -/
theorem next_last (h : IsCircular nxt (some l) xs) : nxt l = xs.head? := by
  obtain ⟨A, rfl⟩ := List.getLast?_eq_some_iff.1 h.last_eq.symm
  exact h.next A l [] rfl

/-- The cycle can be read from any node. -/
theorem rotate (h : IsCircular nxt last (A ++ B)) : IsCircular nxt (B ++ A).getLast? (B ++ A) where
  nodup := List.nodup_append_comm.1 h.nodup
  last_eq := rfl
  next := by
    intro C x D hxs
    rcases split_append hxs with ⟨E, rfl, rfl⟩ | ⟨E, rfl, rfl⟩
    · rw [h.next (A ++ C) x E (by simp)]
      cases E <;> cases A <;> simp
    · rw [h.next E x (D ++ B) (by simp)]
      cases D <;> cases B <;> simp

/-- Where a node points whose predecessor in the cycle is known. -/
theorem next_of_infix (h : IsCircular nxt last xs) (hpa : [p, a] <:+: xs ++ xs.take 1) :
    nxt p = some a ∧ p ∈ xs ∧ a ∈ xs := by
  obtain ⟨C, D, hCD⟩ := hpa
  rcases split_append (A := xs) (B := xs.take 1) (C := C) (y := p) (D := a :: D)
    (by rw [← hCD]; simp) with ⟨E, hE, hD⟩ | ⟨E, hC, hE⟩
  · have hhead : (E ++ xs).head? = some a := by
      cases E with
      | nil =>
          cases xs with
          | nil => simp at hE
          | cons c xs => simpa using congrArg List.head? hD.symm
      | cons e E => simpa using congrArg List.head? hD.symm
    refine ⟨by rw [h.next C p E hE, hhead], by simp [hE], ?_⟩
    have hmem := List.mem_of_head? hhead
    rcases List.mem_append.1 hmem with hmem | hmem
    · simp [hE, hmem]
    · exact hmem
  · -- at most one node is read twice
    have hlen := congrArg List.length hE
    simp only [List.length_take, List.length_append, List.length_cons] at hlen
    omega

/-- The node before the first one is the last one. -/
theorem eq_last_of_next (h : IsCircular nxt last (a :: xs)) (hp : p ∈ a :: xs)
    (hpa : nxt p = some a) : last = some p := by
  obtain ⟨A, B, hAB⟩ := List.append_of_mem hp
  have hnext := h.next A p B hAB
  cases B with
  | nil => rw [h.last_eq, hAB, List.getLast?_append_cons, List.getLast?_singleton]
  | cons b B =>
      -- the first node would come a second time
      rw [hpa, List.cons_append, List.head?_cons, Option.some_inj] at hnext
      have hnd := h.nodup
      cases A with
      | nil =>
          obtain ⟨rfl, rfl⟩ := List.cons.inj hAB
          simp [hnext] at hnd
      | cons c A =>
          obtain ⟨rfl, rfl⟩ := List.cons.inj hAB
          simp [hnext] at hnd

variable [DecidableEq α]

/-- A new node between the last one and the first. -/
theorem cons (h : IsCircular nxt (some l) xs) (ha : a ∉ xs) :
    IsCircular (Function.update (Function.update nxt a (nxt l)) l (some a)) (some l) (a :: xs) where
  nodup := List.nodup_cons.2 ⟨ha, h.nodup⟩
  last_eq := by
    rw [List.getLast?_cons, ← h.last_eq]
    rfl
  next := by
    intro A x B hxs
    have hl : l ∈ xs := List.mem_of_getLast? h.last_eq.symm
    have hne : xs ≠ [] := List.ne_nil_of_mem hl
    cases A with
    | nil =>
        obtain ⟨rfl, rfl⟩ := List.cons.inj hxs
        have hal : a ≠ l := fun hal => ha (hal ▸ hl)
        rw [Function.update_of_ne hal, Function.update_self, h.next_last,
          List.head?_append_of_ne_nil _ hne]
    | cons c A =>
        obtain ⟨rfl, rfl⟩ := List.cons.inj hxs
        have hxa : x ≠ a := fun hxa => ha (by simp [hxa])
        have hlast := h.eq_last_iff
        by_cases hxl : x = l
        · rw [hxl, Function.update_self, hlast.1 hxl]
          rfl
        · have hB : B ≠ [] := fun hB => hxl (hlast.2 hB)
          rw [Function.update_of_ne hxl, Function.update_of_ne hxa, h.next A x B rfl,
            List.head?_append_of_ne_nil _ hB, List.head?_append_of_ne_nil _ hB]

/-- The first node is taken out. -/
theorem tail (h : IsCircular nxt (some l) (a :: xs)) (hne : xs ≠ []) :
    IsCircular (Function.update nxt l (nxt a)) (some l) xs where
  nodup := (List.nodup_cons.1 h.nodup).2
  last_eq := by
    obtain ⟨b, xs, rfl⟩ := List.exists_cons_of_ne_nil hne
    rw [h.last_eq, List.getLast?_cons_cons]
  next := by
    intro A x B hxs
    have hnext : nxt a = xs.head? := by
      rw [h.next [] a xs rfl, List.head?_append_of_ne_nil _ hne]
    have hlast : x = l ↔ B = [] := by
      subst hxs
      exact IsCircular.eq_last_iff (A := a :: A) h
    by_cases hxl : x = l
    · rw [hxl, Function.update_self, hnext, hlast.1 hxl]
      rfl
    · have hB : B ≠ [] := fun hB => hxl (hlast.2 hB)
      rw [Function.update_of_ne hxl, h.next (a :: A) x B (by rw [hxs]; rfl),
        List.head?_append_of_ne_nil _ hB, List.head?_append_of_ne_nil _ hB]

/-- A node is taken out through the node before it. -/
theorem remove (h : IsCircular nxt last (A ++ a :: B)) (hp : p ∈ A ++ a :: B)
    (hpa : nxt p = some a) :
    IsCircular (Function.update nxt p (nxt a)) (A ++ B).getLast? (A ++ B) := by
  -- read from the node that goes, the node before it is the last one
  have hrot : IsCircular nxt (a :: (B ++ A)).getLast? (a :: (B ++ A)) := h.rotate
  have hlast := hrot.eq_last_of_next (p := p) (by simpa [or_left_comm, or_comm] using hp) hpa
  rw [hlast] at hrot
  by_cases hne : B ++ A = []
  · obtain ⟨rfl, rfl⟩ := List.append_eq_nil_iff.1 hne
    exact nil
  · exact (hrot.tail hne).rotate

/-- The pointer to the last node moves back if the last node is the one that goes; a node that still
points to itself afterwards was alone. -/
theorem last_remove (h : IsCircular nxt (some l) (A ++ a :: B)) (hp : p ∈ A ++ a :: B)
    (hpa : nxt p = some a) :
    (if Function.update nxt p (nxt a) (if l = a then p else l) = some a then none
      else some (if l = a then p else l)) = (A ++ B).getLast? := by
  have hrot : IsCircular nxt (a :: (B ++ A)).getLast? (a :: (B ++ A)) := h.rotate
  have hlast := hrot.eq_last_of_next (p := p) (by simpa [or_left_comm, or_comm] using hp) hpa
  have hrem := h.remove hp hpa
  by_cases hne : A ++ B = []
  · -- the node is alone
    obtain ⟨rfl, rfl⟩ := List.append_eq_nil_iff.1 hne
    have hpa' : a = p := by simpa using hlast
    have hla : a = l := h.eq_last_iff.2 rfl
    subst hpa' hla
    simp [hpa]
  · have hl' : (A ++ B).getLast? = some (if l = a then p else l) := by
      by_cases hB : B = []
      · have hA : A ≠ [] := by simpa [hB] using hne
        rw [if_pos (h.eq_last_iff.2 hB).symm, ← hlast, hB, List.append_nil, List.nil_append]
        obtain ⟨c, A, rfl⟩ := List.exists_cons_of_ne_nil hA
        rw [List.getLast?_cons_cons]
      · have hla : l ≠ a := fun hla => hB (h.eq_last_iff.1 hla.symm)
        obtain ⟨b, B, rfl⟩ := List.exists_cons_of_ne_nil hB
        rw [if_neg hla, h.last_eq, List.getLast?_append_cons, List.getLast?_append_cons,
          List.getLast?_cons_cons]
    rw [hl'] at hrem
    rw [hl', if_neg]
    rw [hrem.next_last]
    exact head?_ne_some (by simpa using notMem_of_nodup h.nodup)

end IsCircular

/-! ## Once around -/

section Walk

variable [DecidableEq α]

/-- `do { cur = cur->next; if (found(cur)) return cur; } while (cur != last); return NULL;` -/
def walkFrom (nxt : α → Option α) (l : α) (found : α → Bool) : ℕ → α → Option (Option α)
  | 0, _ => none
  | n + 1, cur =>
      match nxt cur with
      | none => none
      | some c =>
          if found c then some (some c)
          else if c = l then some none
          else walkFrom nxt l found n c

/-- Once around, the loop finds the first node it looks for. -/
theorem walkFrom_eq {nxt : α → Option α} {l : α} {xs : List α} (h : IsCircular nxt (some l) xs)
    (found : α → Bool) : ∀ (B : List α) {A : List α} {cur : α} {n : ℕ}, xs = A ++ B → B ≠ [] →
    nxt cur = B.head? → B.length ≤ n → walkFrom nxt l found n cur = some (B.find? found) := by
  intro B
  induction B with
  | nil => exact fun _ hB => absurd rfl hB
  | cons b B ih =>
      intro A cur n hxs _ hcur hn
      obtain ⟨n, rfl⟩ := Nat.exists_eq_add_one_of_ne_zero (Nat.ne_of_gt (Nat.zero_lt_of_lt hn))
      rw [List.head?_cons] at hcur
      rw [walkFrom, hcur]
      subst hxs
      by_cases hb : found b = true
      · simp [hb]
      · by_cases hl : b = l
        · have hB : B = [] := h.eq_last_iff.1 hl
          simp [hb, ← hl, hB]
        · have hB : B ≠ [] := fun hB => hl (h.eq_last_iff.2 hB)
          have hnext : nxt b = B.head? := by
            rw [h.next A b B rfl, List.head?_append_of_ne_nil _ hB]
          have hwalk := ih (A := A ++ [b]) (by simp) hB hnext (Nat.le_of_succ_le_succ hn)
          simp [hb, hl, hwalk]

end Walk

end Linked
