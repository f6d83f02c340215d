import Mathlib

/-!
# Circular doubly linked lists

Two maps `nxt` and `prv` represent a circular list of nodes when each node of the
cycle points forward to the node after it and that one points back.

* `Adj nxt prv x y` — `y` is after `x`.
* `IsCycle nxt prv xs` — `nxt` and `prv` represent the cycle `xs`; where it starts
  does not matter (`IsCycle.rotate`).
* `IsCycle.next`, `IsCycle.prev` — where the pointers of the first node lead.
* `IsCycle.insert` — a node is put in front of the first one, that is at the end.
* `IsCycle.remove` — a node is taken out, wherever it is.
-/

namespace Linked

variable {α : Type*}

/-- `y` is after `x`. -/
def Adj (nxt prv : α → Option α) (x y : α) : Prop := nxt x = some y ∧ prv y = some x

/-- `nxt` and `prv` represent the cycle of the nodes `xs`. -/
structure IsCycle (nxt prv : α → Option α) (xs : List α) : Prop where
  /-- No node occurs twice. -/
  nodup : xs.Nodup
  /-- Each node is linked to the node after it, and the last one to the first. -/
  chain : Cycle.Chain (Adj nxt prv) (xs : Cycle α)

/-- A chain stays one if no pointer of it changes, except at its two ends. -/
theorem isChain_frame {R S : α → α → Prop} {a p : α} {xs : List α} (hnd : xs.Nodup)
    (ha : xs.head? = some a) (hp : xs.getLast? = some p) (h : xs.IsChain R)
    (hframe : ∀ x y, x ∈ xs → y ∈ xs → x ≠ p → y ≠ a → R x y → S x y) : xs.IsChain S := by
  rw [List.isChain_iff_forall_rel_of_append_cons_cons] at h ⊢
  intro x y A B heq
  refine hframe x y (by simp [heq]) (by simp [heq]) ?_ ?_ (h heq)
  · rintro rfl
    have hlast : (y :: B).getLast? = some x := by
      rw [heq, List.getLast?_append_of_ne_nil _ (List.cons_ne_nil _ _),
        List.getLast?_cons_cons] at hp
      exact hp
    have hmem : x ∈ y :: B := List.mem_of_getLast? hlast
    have hnd' : (x :: y :: B).Nodup := (List.nodup_append.mp (heq ▸ hnd)).2.1
    exact (List.nodup_cons.mp hnd').1 hmem
  · rintro rfl
    cases A with
    | nil =>
      rw [heq] at ha hnd
      have hxy : x = y := Option.some.inj ha
      rw [hxy] at hnd
      simp at hnd
    | cons c A =>
      rw [heq] at ha hnd
      have hcy : c = y := Option.some.inj ha
      rw [hcy] at hnd
      simp at hnd

namespace IsCycle

variable {nxt prv : α → Option α} {a b p q : α} {t A B xs : List α}

/-- Where the cycle starts does not matter. -/
theorem rotate (h : IsCycle nxt prv (A ++ B)) : IsCycle nxt prv (B ++ A) := by
  refine ⟨List.nodup_append_comm.mp h.nodup, ?_⟩
  have heq : ((A ++ B : List α) : Cycle α) = ((B ++ A : List α) : Cycle α) :=
    Cycle.coe_eq_coe.mpr List.isRotated_append
  exact heq ▸ h.chain

/-- The links of the cycle as a chain that ends where it starts. -/
theorem isChain (h : IsCycle nxt prv (a :: t)) : (a :: (t ++ [a])).IsChain (Adj nxt prv) :=
  (Cycle.chain_coe_cons _ _ _).mp h.chain

/-- A cycle from the links inside it and the link from its end to its start. -/
theorem of_isChain (hnd : (a :: t).Nodup) (h : (a :: t).IsChain (Adj nxt prv))
    (hp : (a :: t).getLast? = some p) (hpa : Adj nxt prv p a) : IsCycle nxt prv (a :: t) := by
  refine ⟨hnd, (Cycle.chain_coe_cons _ _ _).mpr ?_⟩
  have happ : (a :: t ++ [a]).IsChain (Adj nxt prv) := by
    refine List.isChain_append.mpr ⟨h, List.isChain_singleton a, ?_⟩
    intro x hx y hy
    rw [hp] at hx
    obtain rfl : p = x := by simpa using hx
    obtain rfl : a = y := by simpa using hy
    exact hpa
  exact happ

/-- The links inside the cycle. -/
theorem inside (h : IsCycle nxt prv (a :: t)) : (a :: t).IsChain (Adj nxt prv) :=
  (show (a :: t ++ [a]).IsChain (Adj nxt prv) from h.isChain).left_of_append

/-- The link from the end of the cycle to its start. -/
theorem closing (h : IsCycle nxt prv (a :: t)) (hp : (a :: t).getLast? = some p) :
    Adj nxt prv p a :=
  (List.isChain_append.mp (show (a :: t ++ [a]).IsChain (Adj nxt prv) from h.isChain)).2.2
    p hp a rfl

/-- The first node points forward to the node after it. -/
theorem next (h : IsCycle nxt prv (a :: t)) : nxt a = (t ++ [a]).head? := by
  have hchain := h.isChain
  cases t with
  | nil => exact (List.isChain_cons_cons.mp hchain).1.1
  | cons b t => exact (List.isChain_cons_cons.mp hchain).1.1

/-- The first node points back to the last one. -/
theorem prev (h : IsCycle nxt prv (a :: t)) : prv a = (a :: t).getLast? := by
  have hlast := List.getLast?_eq_some_getLast (List.cons_ne_nil a t)
  rw [hlast]
  exact (h.closing hlast).2

/-- A node that is linked to itself. -/
theorem exists_prev (h : IsCycle nxt prv (a :: t)) : ∃ p, prv a = some p :=
  ⟨_, h.prev.trans (List.getLast?_eq_some_getLast (List.cons_ne_nil a t))⟩

theorem singleton (hn : nxt a = some a) (hp : prv a = some a) : IsCycle nxt prv [a] :=
  of_isChain (List.nodup_singleton a) (List.isChain_singleton a) rfl ⟨hn, hp⟩

/-- Other maps that agree on the nodes represent the cycle as well. -/
theorem congr {nxt' prv' : α → Option α} (h : IsCycle nxt prv xs)
    (hn : ∀ x ∈ xs, nxt' x = nxt x) (hp : ∀ x ∈ xs, prv' x = prv x) : IsCycle nxt' prv' xs := by
  cases xs with
  | nil => exact ⟨h.nodup, trivial⟩
  | cons a t =>
    have hlast := List.getLast?_eq_some_getLast (List.cons_ne_nil a t)
    have hmem : (a :: t).getLast (List.cons_ne_nil a t) ∈ a :: t := List.getLast_mem _
    have hclose := h.closing hlast
    refine of_isChain h.nodup ?_ hlast ⟨(hn _ hmem).trans hclose.1,
      (hp a List.mem_cons_self).trans hclose.2⟩
    refine isChain_frame h.nodup rfl hlast h.inside fun x y hx hy _ _ hxy => ?_
    exact ⟨(hn x hx).trans hxy.1, (hp y hy).trans hxy.2⟩

/-- Where the pointers of a node of the cycle lead. -/
theorem pointers (h : IsCycle nxt prv (A ++ q :: B)) :
    nxt q = (B ++ A ++ [q]).head? ∧ prv q = (q :: (B ++ A)).getLast? :=
  have hrot : IsCycle nxt prv (q :: (B ++ A)) := h.rotate
  ⟨hrot.next, hrot.prev⟩

variable [DecidableEq α]

/-- A new node at the end of the cycle, in front of its first node. -/
theorem insert (h : IsCycle nxt prv (a :: t)) (hq : q ∉ a :: t) (hp : prv a = some p) :
    IsCycle (Function.update (Function.update nxt q (some a)) p (some q))
      (Function.update (Function.update prv q (some p)) a (some q)) (a :: (t ++ [q])) := by
  have hlast : (a :: t).getLast? = some p := h.prev.symm.trans hp
  have hpm : p ∈ a :: t := List.mem_of_getLast? hlast
  have hpq : q ≠ p := fun hpq => hq (hpq ▸ hpm)
  have haq : q ≠ a := fun haq => hq (haq ▸ List.mem_cons_self)
  have hne : ∀ x ∈ a :: t, x ≠ q := fun x hx hxq => hq (hxq ▸ hx)
  have hnd : (a :: t ++ [q]).Nodup := List.nodup_append.mpr
    ⟨h.nodup, List.nodup_singleton q, fun x hx y hy hxy => hq (by
      rw [← List.mem_singleton.mp hy, ← hxy]
      exact hx)⟩
  refine of_isChain (p := q) hnd ?_ ?_ ⟨?_, ?_⟩
  · refine (@List.isChain_append _ _ (a :: t) [q]).mpr ⟨?_, List.isChain_singleton q, ?_⟩
    · refine isChain_frame h.nodup rfl hlast h.inside fun x y hx hy hxp hya hxy => ⟨?_, ?_⟩
      · rw [Function.update_of_ne hxp, Function.update_of_ne (hne x hx)]
        exact hxy.1
      · rw [Function.update_of_ne hya, Function.update_of_ne (hne y hy)]
        exact hxy.2
    · intro x hx y hy
      rw [hlast] at hx
      obtain rfl : p = x := by simpa using hx
      obtain rfl : q = y := by simpa using hy
      refine ⟨Function.update_self _ _ _, ?_⟩
      rw [Function.update_of_ne haq, Function.update_self]
  · exact List.getLast?_concat (l := a :: t)
  · rw [Function.update_of_ne hpq, Function.update_self]
  · exact Function.update_self _ _ _

/-- The first node is taken out. -/
theorem remove_head (h : IsCycle nxt prv (q :: b :: t)) (hp : prv q = some p) :
    IsCycle (Function.update nxt p (some b)) (Function.update prv b (some p)) (b :: t) := by
  have hlast : (b :: t).getLast? = some p := by
    rw [← hp, h.prev, List.getLast?_cons_cons]
  have hnd := (List.nodup_cons.mp h.nodup).2
  refine of_isChain hnd ?_ hlast ⟨Function.update_self _ _ _, Function.update_self _ _ _⟩
  refine isChain_frame hnd rfl hlast (List.isChain_cons_cons.mp h.inside).2
    fun x y _ _ hxp hyb hxy => ⟨?_, ?_⟩
  · rw [Function.update_of_ne hxp]
    exact hxy.1
  · rw [Function.update_of_ne hyb]
    exact hxy.2

/-- A node is taken out that is not alone. -/
theorem remove (h : IsCycle nxt prv (A ++ q :: B)) (hn : nxt q = some b) (hp : prv q = some p)
    (hne : b ≠ q) :
    IsCycle (Function.update nxt p (some b)) (Function.update prv b (some p)) (A ++ B) := by
  have hrot : IsCycle nxt prv (q :: (B ++ A)) := h.rotate
  have hnext := hrot.next
  cases hBA : B ++ A with
  | nil =>
    rw [hBA, hn] at hnext
    exact absurd (Option.some.inj hnext) hne
  | cons c t =>
    rw [hBA] at hrot hnext
    rw [hn] at hnext
    obtain rfl : b = c := Option.some.inj hnext
    exact (hBA ▸ hrot.remove_head hp : IsCycle _ _ (B ++ A)).rotate

end IsCycle

end Linked
