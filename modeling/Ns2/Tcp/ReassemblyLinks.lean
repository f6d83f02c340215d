import Ns2.Tcp.ReassemblyQueue

/-!
# The pointers of a reassembly queue

What the pointer operations of `rq.cc` do to the two lists and to the cache of free
nodes, in terms of the nodes the lists hold and not of single assignments.

* `Shape l xs fs` — the pointers `l` hold the nodes `xs` in FIFO order, the same nodes
  on the LIFO, and the free nodes `fs`.
* `Shape.unlink`, `Shape.delete` — `fremove` and `sremove`, then `deleteseginfo`.
* `Shape.new`, `Shape.linkIn` — `newseginfo`, then the insertion between two neighbours.
* `Shape.freeAll` — `clear` frees every node.
-/

namespace Ns2.Tcp

open Linked

/-- The nodes `xs` are queued, the nodes `fs` are free. -/
structure Shape (l : Links) (xs fs : List Ptr) : Prop where
  /-- The FIFO holds the nodes in order, linked both ways. -/
  fifo : IsDList l.next_ l.prev_ l.head_ l.tail_ xs
  /-- The LIFO holds the same nodes, linked both ways. -/
  lifo : ∃ ys : List Ptr, ys.Perm xs ∧ IsDList l.snext_ l.sprev_ l.top_ l.bottom_ ys
  /-- The free list. -/
  free : IsSList l.next_ l.freelist_ fs
  /-- No queued node is free. -/
  apart : ∀ x ∈ xs, x ∉ fs
  /-- Every node has been handed out by `new`. -/
  old : ∀ x, x ∈ xs ∨ x ∈ fs → x < l.fresh

namespace Shape

variable {l : Links} {xs fs A B : List Ptr} {p n : Ptr}

theorem length_le (h : Shape l xs fs) : xs.length ≤ l.fresh := by
  have hsub : xs ⊆ List.range l.fresh := fun x hx => List.mem_range.mpr (h.old x (Or.inl hx))
  simpa using (h.fifo.nodup.subperm hsub).length_le

theorem empty_links (l : Links) (hh : l.head_ = none) (ht : l.tail_ = none) (hp : l.top_ = none)
    (hb : l.bottom_ = none) (hf : IsSList l.next_ l.freelist_ fs) (hold : ∀ x ∈ fs, x < l.fresh) :
    Shape l [] fs where
  fifo := by rw [hh, ht]; exact IsDList.empty
  lifo := ⟨[], List.Perm.nil, by rw [hp, hb]; exact IsDList.empty⟩
  free := hf
  apart := by simp
  old x hx := hold x (hx.resolve_left (by simp))

theorem top_eq_none (h : Shape l [] fs) : l.top_ = none := by
  obtain ⟨ys, hperm, hys⟩ := h.lifo
  rw [hys.head, hperm.eq_nil, List.head?_nil]

/-! ## Taking nodes out -/

/-- `fremove` and `sremove` take a node off both lists. -/
theorem unlink (h : Shape l (A ++ p :: B) fs) : Shape ((l.fremove p).sremove p) (A ++ B) fs where
  fifo := h.fifo.unlink
  lifo := by
    obtain ⟨ys, hperm, hys⟩ := h.lifo
    obtain ⟨C, D, rfl⟩ := List.append_of_mem (hperm.mem_iff.mpr (by simp : p ∈ A ++ p :: B))
    refine ⟨C ++ D, ?_, hys.unlink⟩
    exact (List.perm_cons p).mp
      (List.perm_middle.symm.trans (hperm.trans List.perm_middle))
  free := by
    refine h.free.congr fun x hx => setAt_of_ne _ _ fun hprev => ?_
    -- the only node redirected is the one before `p`, which is queued
    rw [h.fifo.prev A p B rfl] at hprev
    exact h.apart x (List.mem_append_left _ (List.mem_of_getLast? hprev)) hx
  apart x hx := h.apart x (by
    rcases List.mem_append.mp hx with hx | hx <;> simp [hx])
  old x hx := h.old x (by
    rcases hx with hx | hx
    · rcases List.mem_append.mp hx with hx | hx <;> simp [hx]
    · exact Or.inr hx)

/-- `deleteseginfo` puts a node that is on no list on the free list. -/
theorem delete (h : Shape l xs fs) (hx : p ∉ xs) (hf : p ∉ fs) (hold : p < l.fresh) :
    Shape (l.deleteseginfo p) xs (p :: fs) where
  fifo := h.fifo.congr
    (fun x hxs => Function.update_of_ne (ne_of_mem_of_not_mem hxs hx) _ _) (fun _ _ => rfl)
  lifo := h.lifo
  free := h.free.cons hf
  apart x hxs := by
    rw [List.mem_cons, not_or]
    exact ⟨ne_of_mem_of_not_mem hxs hx, h.apart x hxs⟩
  old x hx' := by
    rcases hx' with hx' | hx'
    · exact h.old x (Or.inl hx')
    · rcases List.mem_cons.mp hx' with rfl | hx'
      · exact hold
      · exact h.old x (Or.inr hx')

/-- Taking a node off both lists and freeing it. -/
theorem remove (h : Shape l (A ++ p :: B) fs) :
    Shape (((l.fremove p).sremove p).deleteseginfo p) (A ++ B) (p :: fs) := by
  obtain ⟨hA, hB⟩ := notMem_of_nodup h.fifo.nodup
  refine h.unlink.delete ?_ (h.apart p (by simp)) (h.old p (by simp))
  rw [List.mem_append, not_or]
  exact ⟨hA, hB⟩

/-- Taking two neighbours off both lists and freeing them. -/
theorem removeTwo {r : Ptr} (h : Shape l (A ++ n :: r :: B) fs) :
    Shape ((((((l.sremove n).fremove n).sremove r).fremove r).deleteseginfo n).deleteseginfo r)
      (A ++ B) (r :: n :: fs) := by
  have hn := notMem_of_nodup h.fifo.nodup
  have hr := notMem_of_nodup h.unlink.fifo.nodup
  have hnr : r ≠ n := fun he => hn.2 (he ▸ List.mem_cons_self)
  refine (h.unlink.unlink.delete ?_ (h.apart n (by simp)) (h.old n (by simp))).delete ?_ ?_
    (h.old r (by simp))
  · rw [List.mem_append, not_or]
    exact ⟨hn.1, fun hB => hn.2 (List.mem_cons_of_mem r hB)⟩
  · rw [List.mem_append, not_or]
    exact hr
  · rw [List.mem_cons, not_or]
    exact ⟨hnr, h.apart r (by simp)⟩

/-! ## Putting a node in -/

/-- `newseginfo` hands out a node that is on no list. -/
theorem new (h : Shape l xs fs) :
    ∃ fs', Shape l.newseginfo.2 xs fs' ∧ l.newseginfo.1 ∉ xs ∧ l.newseginfo.1 ∉ fs' ∧
      l.newseginfo.1 < l.newseginfo.2.fresh := by
  cases fs with
  | nil =>
    have hnone : l.freelist_ = none := by rw [h.free.head, List.head?_nil]
    have hnew : l.newseginfo = (l.fresh, { l with fresh := l.fresh + 1 }) := by
      rw [Links.newseginfo, hnone]
    rw [hnew]
    refine ⟨[], ⟨h.fifo, h.lifo, h.free, h.apart, fun x hx => ?_⟩, ?_, by simp, Nat.lt_succ_self _⟩
    · exact Nat.lt_succ_of_lt (h.old x hx)
    · exact fun hx => lt_irrefl _ (h.old _ (Or.inl hx))
  | cons f fs =>
    have hsome : l.freelist_ = some f := by rw [h.free.head, List.head?_cons]
    have hnew : l.newseginfo = (f, { l with freelist_ := l.next_ f }) := by
      rw [Links.newseginfo, hsome]
    rw [hnew]
    refine ⟨fs, ⟨h.fifo, h.lifo, h.free.tail, fun x hx hxf => ?_, fun x hx => ?_⟩, ?_, ?_, ?_⟩
    · exact h.apart x hx (List.mem_cons_of_mem _ hxf)
    · exact h.old x (hx.imp_right (List.mem_cons_of_mem _))
    · exact fun hx => h.apart f hx List.mem_cons_self
    · exact (List.nodup_cons.mp h.free.nodup).1
    · exact h.old f (Or.inr List.mem_cons_self)

/-- The assignments after `endfast:` put a node between its neighbours and on top of
the LIFO. -/
theorem linkIn (h : Shape l (A ++ B) fs) (hn : n ∉ A ++ B) (hf : n ∉ fs) (hold : n < l.fresh) :
    Shape (l.linkIn n A.getLast? B.head?) (A ++ n :: B) fs where
  fifo := h.fifo.insert hn
  lifo := by
    obtain ⟨ys, hperm, hys⟩ := h.lifo
    refine ⟨n :: ys, (hperm.cons n).trans List.perm_middle.symm, ?_⟩
    have := hys.insert (A := []) (B := ys) (n := n) (fun hy => hn (hperm.mem_iff.mp hy))
    rw [← hys.head] at this
    exact this
  free := by
    refine h.free.congr fun x hx => ?_
    have hxn : x ≠ n := ne_of_mem_of_not_mem hx hf
    refine (setAt_of_ne _ _ fun hlast => ?_).trans (Function.update_of_ne hxn _ _)
    exact h.apart x (List.mem_append_left _ (List.mem_of_getLast? hlast)) hx
  apart x hx := by
    rcases List.mem_append.mp hx with hx | hx
    · exact h.apart x (List.mem_append_left _ hx)
    · rcases List.mem_cons.mp hx with rfl | hx
      · exact hf
      · exact h.apart x (List.mem_append_right _ hx)
  old x hx := by
    rcases hx with hx | hx
    · rcases List.mem_append.mp hx with hx | hx
      · exact h.old x (Or.inl (List.mem_append_left _ hx))
      · rcases List.mem_cons.mp hx with rfl | hx
        · exact hold
        · exact h.old x (Or.inl (List.mem_append_right _ hx))
    · exact h.old x (Or.inr hx)

/-! ## Freeing everything -/

/-- The loop of `clear` frees the nodes from the head on. -/
theorem freeAll :
    ∀ {fuel : ℕ} {l : Links} {xs fs : List Ptr}, IsSList l.next_ l.head_ xs →
      IsSList l.next_ l.freelist_ fs → (∀ x ∈ xs, x ∉ fs) → xs.length < fuel →
      ∃ l' fs', ReassemblyQueue.freeAll fuel l = some l' ∧ l'.head_ = none ∧
        IsSList l'.next_ l'.freelist_ fs' ∧ (∀ x ∈ fs', x ∈ xs ∨ x ∈ fs) ∧
        l'.tail_ = l.tail_ ∧ l'.top_ = l.top_ ∧ l'.bottom_ = l.bottom_ ∧ l'.fresh = l.fresh := by
  intro fuel
  induction fuel with
  | zero => intro l xs fs _ _ _ hf; exact absurd hf (Nat.not_lt_zero _)
  | succ fuel ih =>
    intro l xs fs hxs hfs hdisj hf
    cases xs with
    | nil =>
      have hnone : l.head_ = none := by rw [hxs.head, List.head?_nil]
      exact ⟨l, fs, by rw [ReassemblyQueue.freeAll, hnone], hnone, hfs,
        fun x hx => Or.inr hx, rfl, rfl, rfl, rfl⟩
    | cons p xs =>
      have hsome : l.head_ = some p := by rw [hxs.head, List.head?_cons]
      have hp : p ∉ xs := (List.nodup_cons.mp hxs.nodup).1
      obtain ⟨l', fs', h1, h2, h3, h4, h5⟩ :=
        ih (l := { l with head_ := l.next_ p }.deleteseginfo p) 
          (hxs.tail.congr fun x hx => Function.update_of_ne (ne_of_mem_of_not_mem hx hp) _ _)
          (hfs.cons (hdisj p List.mem_cons_self))
          (fun x hx => by
            rw [List.mem_cons, not_or]
            exact ⟨ne_of_mem_of_not_mem hx hp, hdisj x (List.mem_cons_of_mem _ hx)⟩)
          (by simpa using hf)
      refine ⟨l', fs', by rw [ReassemblyQueue.freeAll, hsome]; exact h1, h2, h3, fun x hx => ?_, h5⟩
      rcases h4 x hx with hx | hx
      · exact Or.inl (List.mem_cons_of_mem _ hx)
      · rcases List.mem_cons.mp hx with rfl | hx
        · exact Or.inl List.mem_cons_self
        · exact Or.inr hx

end Shape

end Ns2.Tcp
