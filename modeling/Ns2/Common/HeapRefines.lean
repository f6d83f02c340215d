import Ns2.Common.HeapScheduler
import Ns2.Lib.InOrder
import Ns2.Lib.Simulation

/-!
# The heap and the order of insertion

* `Stamped`, `Heap.Holds` — the elements of the heap, in the order of their keys, are the
  events of the queue.
* `Heap.Holds.insert`, `extractMin`, `delete` — what each operation does to the queue.
* `StampFits` — the counter has not wrapped around since the insertion of a pending event of
  the same time.
* `heap_in_order` — under this condition the heap returns the events in the order of time and
  insertion; `not_heap_in_order` — after `2 ^ 32` insertions it may fail to.
-/

namespace Ns2.Common

open BinHeap Simulation

/-- Elements in the order of their keys, with the events of a queue. -/
structure Stamped (elems : List HeapElem) (l : List Event) : Prop where
  /-- The events, in the same order. -/
  events : elems.map HeapElem.he_elem = l
  /-- The key of an element is the time of its event. -/
  keys : ∀ x ∈ elems, x.he_key = x.he_elem.time_
  /-- The order. -/
  sorted : elems.Pairwise fun x y => Heap.key x < Heap.key y

namespace Heap

/-- The heap is ordered, and has the events of a queue. -/
structure Holds (c : Heap) (l : List Event) : Prop where
  /-- The order of the heap. -/
  ordered : Ordered key c.h_elems c.h_size
  /-- The elements. -/
  elems : ∃ elems : List HeapElem, contents c.h_elems c.h_size = elems ∧ Stamped elems l

variable {c : Heap} {l : List Event} {e : Event}

/-! ## The operations -/

/-- `heap_insert` puts an event behind those of its time, if their stamps are smaller. -/
theorem Holds.insert (h : c.Holds l) (hl : Stable.IsSorted Event.time_ l)
    (hfit : ∀ i < c.h_size, (c.h_elems i).he_key = e.time_ → (c.h_elems i).he_s_key < c.h_s_key) :
    (c.heapInsert e.time_ e).Holds (ListScheduler.insert l e) := by
  obtain ⟨elems, hcontents, hevents, hkeys, hsorted⟩ := h.elems
  obtain ⟨A, B, hsplit, hins, hA, hB⟩ := ListScheduler.insert_split hl e
  rw [hsplit] at hevents
  obtain ⟨A', B', rfl, rfl, rfl⟩ := List.map_eq_append_iff.mp hevents
  have hspec := insertLoop_spec ⟨e.time_, c.h_s_key, e⟩ c.h_elems c.h_size
    (h.ordered.push ⟨e.time_, c.h_s_key, e⟩) (Nat.lt_succ_self _)
  refine ⟨hspec.1, A' ++ ⟨e.time_, c.h_s_key, e⟩ :: B', ?_, ?_, ?_, ?_⟩
  · refine hspec.2.trans ?_
    rw [contents_push, hcontents, Multiset.cons_coe, Multiset.coe_eq_coe]
    exact List.perm_middle.symm
  · rw [hins, List.map_append, List.map_cons]
  · intro x hx
    rcases List.mem_append.mp hx with hx | hx
    · exact hkeys x (List.mem_append_left _ hx)
    rcases List.mem_cons.mp hx with rfl | hx
    · rfl
    · exact hkeys x (List.mem_append_right _ hx)
  · obtain ⟨h1, h2, h3⟩ := List.pairwise_append.mp hsorted
    refine List.pairwise_append.mpr ⟨h1, List.pairwise_cons.mpr ⟨fun b hb => ?_, h2⟩, ?_⟩
    · have hlt := hB b.he_elem (List.mem_map_of_mem hb)
      rw [← hkeys b (List.mem_append_right _ hb)] at hlt
      exact (keyLessThan_iff ⟨e.time_, c.h_s_key, e⟩ b).mp (.inl hlt)
    · intro a ha b hb
      rcases List.mem_cons.mp hb with rfl | hb
      · -- an event of the same time has a smaller stamp
        have hmem := List.mem_append_left B' ha
        have hle := hA a.he_elem (List.mem_map_of_mem ha)
        rw [← hkeys a hmem] at hle
        refine (keyLessThan_iff a _).mp (hle.lt_or_eq.imp id fun heq => ⟨heq, ?_⟩)
        obtain ⟨i, hi, rfl⟩ := mem_contents.mp (hcontents ▸ Multiset.mem_coe.mpr hmem)
        exact hfit i hi heq
      · exact h3 a ha b hb

/-- The element at the root is that of the first event. -/
theorem Holds.root {x : HeapElem} {xs : List HeapElem} (h : Ordered key c.h_elems c.h_size)
    (hcontents : contents c.h_elems c.h_size = (x :: xs : List HeapElem))
    (hsorted : (x :: xs).Pairwise fun x y => key x < key y) :
    c.h_size ≠ 0 ∧ c.h_elems 0 = x := by
  obtain ⟨i, hi, hix⟩ := mem_contents.mp (hcontents ▸ Multiset.mem_coe.mpr List.mem_cons_self)
  have hpos : 0 < c.h_size := by omega
  refine ⟨hpos.ne', ?_⟩
  have hroot : c.h_elems 0 ∈ x :: xs := by
    rw [← Multiset.mem_coe, ← hcontents]
    exact mem_contents.mpr ⟨0, hpos, rfl⟩
  rcases List.mem_cons.mp hroot with heq | hmem
  · exact heq
  · have hle := h.root_le i hi
    rw [hix] at hle
    exact absurd ((List.pairwise_cons.mp hsorted).1 _ hmem) (not_lt.mpr hle)

/-- `heap_extract_min` takes the first event. -/
theorem Holds.extractMin (h : c.Holds l) :
    c.heapExtractMin.1.Holds (ListScheduler.deque l).1 ∧
      c.heapExtractMin.2 = (ListScheduler.deque l).2 := by
  obtain ⟨elems, hcontents, rfl, hkeys, hsorted⟩ := h.elems
  cases elems with
  | nil =>
    have hsize : c.h_size = 0 := by
      have := congrArg Multiset.card hcontents
      rwa [card_contents] at this
    rw [heapExtractMin, if_pos hsize]
    exact ⟨h, rfl⟩
  | cons x xs =>
    obtain ⟨hsize, hx⟩ := Holds.root h.ordered hcontents hsorted
    have hpos : 0 < c.h_size := Nat.pos_of_ne_zero hsize
    obtain ⟨h1, h2⟩ := c.heapExtractMin_spec (h.ordered.off hpos) hsize
    rw [hx, hcontents, ← Multiset.cons_coe, Multiset.cons_inj_right] at h2
    refine ⟨⟨h1, xs, h2, rfl, fun y hy => hkeys y (List.mem_cons_of_mem x hy),
      (List.pairwise_cons.mp hsorted).2⟩, ?_⟩
    rw [heapExtractMin, if_neg hsize, hx]
    rfl

/-- `heap_delete` takes out that event, and nothing when it is not there. -/
theorem Holds.delete (h : c.Holds l) (hl : l.Pairwise Precedes) (e : Event) :
    (c.heapDelete e).Holds (l.erase e) := by
  obtain ⟨elems, hcontents, rfl, hkeys, hsorted⟩ := h.elems
  rcases c.heapMember_spec e with ⟨hzero, hnot⟩ | ⟨i, hi, hmember, hie⟩
  · have hmem : e ∉ elems.map HeapElem.he_elem := by
      intro hmem
      obtain ⟨x, hx, hxe⟩ := List.mem_map.mp hmem
      obtain ⟨i, hi, rfl⟩ := mem_contents.mp (hcontents ▸ Multiset.mem_coe.mpr hx)
      exact hnot i hi hxe
    rw [heapDelete, if_pos hzero, List.erase_of_not_mem hmem]
    exact h
  · have hne : c.heapMember e ≠ 0 := by omega
    rw [heapDelete, if_neg hne, hmember, Nat.add_sub_cancel]
    obtain ⟨h1, h2, h3⟩ := deleteLoop_spec c.h_elems i (h.ordered.off hi) hi
    obtain ⟨h4, h5⟩ := heapExtractMin_spec { c with h_elems := deleteLoop c.h_elems i } h1
      (by simp only; omega)
    have hmem : c.h_elems i ∈ elems := by
      rw [← Multiset.mem_coe, ← hcontents]
      exact mem_contents.mpr ⟨i, hi, rfl⟩
    obtain ⟨A, B, rfl⟩ := List.append_of_mem hmem
    have hperm : ((A ++ c.h_elems i :: B : List HeapElem) : Multiset HeapElem) =
        c.h_elems i ::ₘ ((A ++ B : List HeapElem) : Multiset HeapElem) := by
      rw [Multiset.cons_coe, Multiset.coe_eq_coe]
      exact List.perm_middle
    simp only [h2, h3, hcontents, hperm, Multiset.cons_inj_right] at h5
    have hsub : (A ++ B).Sublist (A ++ c.h_elems i :: B) :=
      (List.sublist_cons_self _ _).append_left A
    refine ⟨h4, A ++ B, h5, ?_, fun x hx => hkeys x (hsub.subset hx), hsorted.sublist hsub⟩
    rw [List.map_append, List.map_cons, hie] at hl
    have hA : e ∉ A.map HeapElem.he_elem := fun hin => (hl.sides.1 e hin).ne rfl
    rw [List.map_append, List.map_append, List.map_cons, hie, List.erase_append_right _ hA,
      List.erase_cons_head]

end Heap

/-! ## Runs -/

/-- The next stamp is larger than those of the pending events of the same time. -/
def StampFits (s : Numbered Heap) : Request → Prop
  | .schedule time_ => ∀ i < s.queue.h_size, (s.queue.h_elems i).he_key = time_ →
      (s.queue.h_elems i).he_s_key < s.queue.h_s_key
  | .deque => True
  | .cancel _ => True

/-- The heap has the events of the queue. -/
structure HeapRefines (s : Numbered Heap) (s' : Numbered (List Event)) : Prop where
  /-- The next event gets the same number. -/
  uid_ : s.uid_ = s'.uid_
  /-- The events. -/
  holds : s.queue.Holds s'.queue
  /-- The queue is in the order of time and insertion. -/
  inOrder : InOrder s'

/-- Every request that meets the condition does the same to both. -/
theorem HeapRefines.serve {s : Numbered Heap} {s' : Numbered (List Event)}
    (h : HeapRefines s s') (q : Request) (hq : StampFits s q) :
    HeapRefines (HeapScheduler.serve s q).1 (orderedServe s' q).1 ∧
      (HeapScheduler.serve s q).2 = (orderedServe s' q).2 := by
  obtain ⟨u, c⟩ := s
  obtain ⟨u', l⟩ := s'
  obtain ⟨huid, hl, hord⟩ := h
  simp only at huid hl
  subst huid
  cases q with
  | schedule time_ =>
    exact ⟨⟨rfl, hl.insert (e := ⟨u, time_⟩) hord.sorted hq, hord.insert time_⟩, rfl⟩
  | deque =>
    obtain ⟨h1, h2⟩ := hl.extractMin
    refine ⟨⟨rfl, h1, hord.sublist ?_⟩, h2⟩
    cases l with
    | nil => exact List.Sublist.refl _
    | cons e l => exact List.sublist_cons_self e l
  | cancel e =>
    rw [HeapScheduler.serve, HeapScheduler.cancel, orderedServe]
    split
    · exact ⟨⟨rfl, hl, hord⟩, rfl⟩
    · exact ⟨⟨rfl, hl.delete hord.ordered e, hord.sublist List.erase_sublist⟩, rfl⟩

theorem heapRefines_new (h_elems : ℕ → HeapElem) : HeapRefines ⟨1, Heap.new h_elems⟩ ⟨1, []⟩ := by
  refine ⟨rfl, ⟨fun j _ hj => absurd hj (Nat.not_lt_zero j), [], rfl, rfl, by simp, ?_⟩,
    List.Pairwise.nil, by simp⟩
  exact List.Pairwise.nil

/-- All stamps are smaller than the next one. -/
def Heap.Below (c : Heap) : Prop := ∀ x ∈ contents c.h_elems c.h_size, x.he_s_key < c.h_s_key

theorem Heap.Below.extractMin {c : Heap} (h : c.Below)
    (hord : OrderedOff Heap.key c.h_elems c.h_size 0) :
    c.heapExtractMin.1.Below ∧ c.heapExtractMin.1.h_s_key = c.h_s_key := by
  by_cases hsize : c.h_size = 0
  · rw [Heap.heapExtractMin, if_pos hsize]
    exact ⟨h, rfl⟩
  · have hcontents := (c.heapExtractMin_spec hord hsize).2
    have hkey : c.heapExtractMin.1.h_s_key = c.h_s_key := by rw [Heap.heapExtractMin, if_neg hsize]
    refine ⟨fun x hx => ?_, hkey⟩
    rw [hkey]
    exact h x (hcontents ▸ Multiset.mem_cons_of_mem hx)

/-- Before the counter wraps around, every new stamp is the largest. -/
theorem Heap.Below.serve {s : Numbered Heap} (h : s.queue.Below)
    (hord : Ordered Heap.key s.queue.h_elems s.queue.h_size)
    (hkey : s.queue.h_s_key + 1 < 2 ^ 32) (q : Request) :
    (HeapScheduler.serve s q).1.queue.Below ∧
      (HeapScheduler.serve s q).1.queue.h_s_key ≤ s.queue.h_s_key + 1 := by
  obtain ⟨u, c⟩ := s
  cases q with
  | schedule time_ =>
    have hnext : (c.heapInsert time_ ⟨u, time_⟩).h_s_key = c.h_s_key + 1 := Nat.mod_eq_of_lt hkey
    have hcontents := (Heap.insertLoop_spec ⟨time_, c.h_s_key, ⟨u, time_⟩⟩ c.h_elems c.h_size
      (hord.push _) (Nat.lt_succ_self _)).2
    rw [contents_push] at hcontents
    refine ⟨fun x hx => ?_, hnext.le⟩
    refine lt_of_lt_of_eq (Nat.lt_succ_of_le ?_) hnext.symm
    rcases Multiset.mem_cons.mp (hcontents ▸ hx : x ∈ _) with rfl | hx
    · exact le_rfl
    · exact (h x hx).le
  | deque =>
    by_cases hsize : c.h_size = 0
    · rw [HeapScheduler.serve, HeapScheduler.deque, Heap.heapExtractMin, if_pos hsize]
      exact ⟨h, Nat.le_succ _⟩
    · obtain ⟨h1, h2⟩ := h.extractMin (hord.off (Nat.pos_of_ne_zero hsize))
      exact ⟨h1, h2.trans_le (Nat.le_succ _)⟩
  | cancel e =>
    rw [HeapScheduler.serve, HeapScheduler.cancel]
    split
    · exact ⟨h, Nat.le_succ _⟩
    rcases c.heapMember_spec e with ⟨hzero, -⟩ | ⟨i, hi, hmember, -⟩
    · rw [Heap.heapDelete, if_pos hzero]
      exact ⟨h, Nat.le_succ _⟩
    · have hne : c.heapMember e ≠ 0 := by omega
      rw [Heap.heapDelete, if_neg hne, hmember, Nat.add_sub_cancel]
      obtain ⟨h1, h2, -⟩ := Heap.deleteLoop_spec c.h_elems i (hord.off hi) hi
      have hbelow : Heap.Below { c with h_elems := Heap.deleteLoop c.h_elems i } :=
        fun x hx => h x (h2 ▸ hx)
      obtain ⟨h3, h4⟩ := hbelow.extractMin h1
      exact ⟨h3, h4.trans_le (Nat.le_succ _)⟩

/-- Runs in which the counter does not wrap around meet the condition. -/
theorem allSteps_stampFits : ∀ (requests : List Request) {s : Numbered Heap}
    {s' : Numbered (List Event)}, HeapRefines s s' → s.queue.Below →
      s.queue.h_s_key + requests.length < 2 ^ 32 →
      Run.AllSteps (fun s q => (HeapScheduler.serve s q).1) StampFits s requests := by
  intro requests
  induction requests with
  | nil => exact fun _ _ _ => trivial
  | cons q requests ih =>
    intro s s' h hbelow hlen
    rw [List.length_cons] at hlen
    have hfits : StampFits s q := by
      cases q with
      | schedule time_ => exact fun i hi _ => hbelow _ (mem_contents.mpr ⟨i, hi, rfl⟩)
      | deque => trivial
      | cancel e => trivial
    obtain ⟨h1, h2⟩ := hbelow.serve h.holds.ordered (by omega) q
    exact ⟨hfits, ih (h.serve q hfits).1 h1 ((Nat.add_le_add_right h2 _).trans_lt (by omega))⟩

/-- **The heap returns the events in the order of time and insertion.**  In every run in which
each event gets a stamp that is larger than those of the pending events of its time, the heap
returns the same events as the queue in this order, and holds the same events. -/
theorem heap_in_order (h_elems : ℕ → HeapElem) (requests : List Request)
    (h : Run.AllSteps (fun s q => (HeapScheduler.serve s q).1) StampFits
      ⟨1, Heap.new h_elems⟩ requests) :
    HeapRefines (outputs HeapScheduler.serve ⟨1, Heap.new h_elems⟩ requests).1
        (outputs orderedServe ⟨1, []⟩ requests).1 ∧
      (outputs HeapScheduler.serve ⟨1, Heap.new h_elems⟩ requests).2 =
        (outputs orderedServe ⟨1, []⟩ requests).2 :=
  outputs_rel (fun _ _ q hs hq => hs.serve q hq) requests _ _ (heapRefines_new h_elems) h

/-- Three events, two of one time and an earlier one that is cancelled. -/
theorem heap_in_order_cancel :
    (outputs HeapScheduler.serve ⟨1, Heap.new fun _ => ⟨0, 0, ⟨0, 0⟩⟩⟩
        [.schedule 5, .schedule 5, .schedule 3, .cancel ⟨3, 3⟩, .deque, .deque]).2 =
      [none, none, none, some ⟨-3, 3⟩, some ⟨1, 5⟩, some ⟨2, 5⟩] :=
  (heap_in_order _ _ (allSteps_stampFits _ (heapRefines_new _)
    (fun x hx => absurd hx (Multiset.notMem_zero x)) (by simp [Heap.new]))).2.trans
      (by decide +kernel)

/-! ## The counter wraps around -/

/-- Events that are scheduled and leave before the next one. -/
def oneByOne (n : ℕ) : List Request := (List.replicate n [.schedule 0, .deque]).flatten

/-- `2 ^ 32 - 1` such events, and then two of one time. -/
def wrapAround : List Request := oneByOne (2 ^ 32 - 1) ++ [.schedule 1, .schedule 1, .deque]

theorem oneByOne_succ (n : ℕ) : oneByOne (n + 1) = [.schedule 0, .deque] ++ oneByOne n := by
  rw [oneByOne, List.replicate_succ, List.flatten_cons, oneByOne]

theorem orderedServe_oneByOne (n : ℕ) (u : ℤ) :
    (outputs orderedServe ⟨u, []⟩ (oneByOne n)).1 = ⟨u + n, []⟩ := by
  induction n generalizing u with
  | zero => simp [oneByOne, outputs]
  | succ n ih =>
    rw [oneByOne_succ, outputs_append]
    refine (ih (u + 1)).trans ?_
    push_cast
    rw [add_assoc, add_comm 1]

/-- An event in an empty heap goes to the root. -/
theorem heapInsert_empty {c : Heap} (hc : c.h_size = 0) (t : ℚ) (e : Event) :
    (c.heapInsert t e).h_elems 0 = ⟨t, c.h_s_key, e⟩ ∧ (c.heapInsert t e).h_size = 1 ∧
      (c.heapInsert t e).h_s_key = (c.h_s_key + 1) % 2 ^ 32 := by
  rw [Heap.heapInsert, hc]
  unfold Heap.insertLoop
  simp

theorem serve_oneByOne (n : ℕ) (s : Numbered Heap) (hs : s.queue.h_size = 0)
    (hkey : s.queue.h_s_key + n < 2 ^ 32) :
    let s' := (outputs HeapScheduler.serve s (oneByOne n)).1
    s'.uid_ = s.uid_ + n ∧ s'.queue.h_size = 0 ∧ s'.queue.h_s_key = s.queue.h_s_key + n := by
  induction n generalizing s with
  | zero => simpa [oneByOne, outputs] using hs
  | succ n ih =>
    obtain ⟨-, h1, h2⟩ := heapInsert_empty hs 0 ⟨s.uid_, 0⟩
    rw [Nat.mod_eq_of_lt (by omega)] at h2
    have hsize : ((s.queue.heapInsert 0 ⟨s.uid_, 0⟩).heapExtractMin.1).h_size = 0 := by
      simp [Heap.heapExtractMin, h1]
    have hnext : ((s.queue.heapInsert 0 ⟨s.uid_, 0⟩).heapExtractMin.1).h_s_key =
        s.queue.h_s_key + 1 := by
      simp [Heap.heapExtractMin, h1, h2]
    have hrest := ih ⟨s.uid_ + 1, (s.queue.heapInsert 0 ⟨s.uid_, 0⟩).heapExtractMin.1⟩ hsize
      (by simp only [hnext]; omega)
    rw [oneByOne_succ, outputs_append]
    simp only [hnext] at hrest
    obtain ⟨h3, h4, h5⟩ := hrest
    refine ⟨h3.trans ?_, h4, h5.trans (by omega)⟩
    push_cast
    ring

/-- The second one of two events of one time leaves first, when it gets the stamp zero. -/
theorem serve_wrap {s : Numbered Heap} (hs : s.queue.h_size = 0)
    (hkey : s.queue.h_s_key = 2 ^ 32 - 1) :
    (outputs HeapScheduler.serve s [.schedule 1, .schedule 1, .deque]).2.getLast? =
      some (some ⟨s.uid_ + 1, 1⟩) := by
  obtain ⟨h0, h1, h2⟩ := heapInsert_empty hs 1 ⟨s.uid_, 1⟩
  have hnext : (s.queue.heapInsert 1 ⟨s.uid_, 1⟩).h_s_key = 0 := by
    rw [h2, hkey]
    norm_num
  have hless : Heap.keyLessThan 1 0 1 (2 ^ 32 - 1) := .inr ⟨rfl, by norm_num⟩
  have hsecond : ((s.queue.heapInsert 1 ⟨s.uid_, 1⟩).heapInsert 1 ⟨s.uid_ + 1, 1⟩).h_elems 0 =
      ⟨1, 0, ⟨s.uid_ + 1, 1⟩⟩ := by
    rw [Heap.heapInsert, h1, hnext]
    unfold Heap.insertLoop
    rw [show parent 1 = 0 from rfl, h0, hkey, if_pos ⟨one_pos, hless⟩]
    unfold Heap.insertLoop
    simp
  have hsize : ((s.queue.heapInsert 1 ⟨s.uid_, 1⟩).heapInsert 1 ⟨s.uid_ + 1, 1⟩).h_size ≠ 0 :=
    Nat.succ_ne_zero _
  simp only [outputs, HeapScheduler.serve, HeapScheduler.insert, HeapScheduler.deque]
  rw [Heap.heapExtractMin, if_neg hsize, hsecond]
  rfl

/-- After `2 ^ 32 - 1` insertions two events of one time are returned in the wrong order. -/
theorem not_heap_in_order :
    ¬ ∀ (h_elems : ℕ → HeapElem) (requests : List Request),
      (outputs HeapScheduler.serve ⟨1, Heap.new h_elems⟩ requests).2 =
        (outputs orderedServe ⟨1, []⟩ requests).2 := by
  intro h
  have hlast := congrArg List.getLast? (h (fun _ => ⟨0, 0, ⟨0, 0⟩⟩) wrapAround)
  rw [wrapAround, outputs_append, outputs_append] at hlast
  obtain ⟨huid, hsize, hkey⟩ := serve_oneByOne (2 ^ 32 - 1)
    ⟨1, Heap.new fun _ => ⟨0, 0, ⟨0, 0⟩⟩⟩ rfl (by simp [Heap.new])
  have hheap := serve_wrap hsize (hkey.trans (by simp [Heap.new]))
  rw [huid] at hheap
  simp only [List.getLast?_append, hheap, orderedServe_oneByOne] at hlast
  simp [outputs, orderedServe, ListScheduler.insert, ListScheduler.deque] at hlast

end Ns2.Common
