import Ns2.Common.HeapScheduler
import Ns2.Lib.Run

/-!
# The binary heap is a priority queue

Any sequence of calls of `heap_insert`, `heap_extract_min` and `heap_delete`, whatever the keys
and the elements.

* `Heap.elements` — what is stored.
* `Heap.Valid` — the invariant: the heap is ordered, and its array has room for it.
* `Heap.Serves` — what one call has to do.
* `Heap.Valid.exec`, `Heap.Valid.serves` — one call keeps the invariant, and does that.
* `heap_priority_queue` — every run.
-/

namespace Ns2.Common

open BinHeap

/-- A call of a function of the heap. -/
inductive HeapOp where
  /-- `heap_insert(key, elem)`. -/
  | insert (key : ℚ) (elem : Event)
  /-- `heap_extract_min()`. -/
  | extractMin
  /-- `heap_delete(elem)`. -/
  | delete (elem : Event)

namespace Heap

/-- The constructor `Heap(size)`, in any memory. -/
def ofSize (size : ℕ) (h_elems : ℕ → HeapElem) : Heap :=
  { h_elems := h_elems, h_s_key := 0, h_size := 0, h_maxsize := size }

/-- The heap after a call. -/
def exec (c : Heap) : HeapOp → Heap
  | .insert key elem => c.heapInsert key elem
  | .extractMin => c.heapExtractMin.1
  | .delete elem => c.heapDelete elem

/-- What `heap_delete(elem)` returns. -/
def heapDeleteResult (c : Heap) (elem : Event) : ℕ := if c.heapMember elem = 0 then 0 else 1

/-- The elements stored, with their keys. -/
def elements (c : Heap) : Multiset HeapElem := contents c.h_elems c.h_size

/-- The heap is ordered, and the places in use are allocated. -/
structure Valid (c : Heap) : Prop where
  /-- No element has a smaller key than its parent. -/
  ordered : Ordered key c.h_elems c.h_size
  /-- The array has room. -/
  room : c.h_size ≤ c.h_maxsize
  /-- The array can be doubled. -/
  pos : 0 < c.h_maxsize

/-- `x` has a smallest key of the elements stored. -/
def IsMin (c : Heap) (x : HeapElem) : Prop := ∀ y ∈ c.elements, key x ≤ key y

/-- What a call does: an insertion adds one element; the smallest one is extracted, and nothing
when there is none; a deletion removes one element with that pointer, if there is one. -/
def Serves (c : Heap) : HeapOp → Prop
  | .insert k elem => (c.exec (.insert k elem)).elements = ⟨k, c.h_s_key, elem⟩ ::ₘ c.elements
  | .extractMin =>
    (c.elements = 0 → c.heapExtractMin = (c, none)) ∧
    (c.elements ≠ 0 → ∃ x, c.IsMin x ∧ c.heapExtractMin.2 = some x.he_elem ∧
      c.elements = x ::ₘ (c.exec .extractMin).elements)
  | .delete elem =>
    ((∀ x ∈ c.elements, x.he_elem ≠ elem) →
      c.heapDeleteResult elem = 0 ∧ c.exec (.delete elem) = c) ∧
    ((∃ x ∈ c.elements, x.he_elem = elem) → c.heapDeleteResult elem = 1 ∧
      ∃ x, x.he_elem = elem ∧ c.elements = x ::ₘ (c.exec (.delete elem)).elements)

variable {c : Heap} {elem : Event}

theorem mem_elements {x : HeapElem} : x ∈ c.elements ↔ ∃ i < c.h_size, c.h_elems i = x :=
  mem_contents

theorem elements_eq_zero : c.elements = 0 ↔ c.h_size = 0 := by
  rw [← Multiset.card_eq_zero, elements, card_contents]

/-- The root has the smallest key. -/
theorem Valid.isMin_root (h : c.Valid) : c.IsMin (c.h_elems 0) := by
  intro y hy
  obtain ⟨i, hi, rfl⟩ := mem_elements.mp hy
  exact h.ordered.root_le i hi

/-! ## One call -/

/-- `heap_insert`. -/
theorem Valid.insert (h : c.Valid) (k : ℚ) (elem : Event) :
    (c.heapInsert k elem).Valid ∧
      (c.heapInsert k elem).elements = ⟨k, c.h_s_key, elem⟩ ::ₘ c.elements := by
  obtain ⟨h1, h2⟩ := insertLoop_spec ⟨k, c.h_s_key, elem⟩ c.h_elems c.h_size
    (h.ordered.push ⟨k, c.h_s_key, elem⟩) (Nat.lt_succ_self _)
  have hroom := h.room
  have hpos := h.pos
  refine ⟨⟨h1, ?_, ?_⟩, h2.trans (contents_push _ _ _)⟩
  · rw [heapInsert]
    simp only
    split_ifs
    · omega
    · omega
  · rw [heapInsert]
    simp only
    split_ifs
    · omega
    · exact hpos

/-- The size after the root is taken out. -/
theorem heapExtractMin_sizes (c : Heap) :
    c.heapExtractMin.1.h_size ≤ c.h_size ∧ c.heapExtractMin.1.h_maxsize = c.h_maxsize := by
  rw [heapExtractMin]
  split_ifs
  · exact ⟨le_rfl, rfl⟩
  · exact ⟨Nat.sub_le _ _, rfl⟩

/-- `heap_extract_min`. -/
theorem Valid.extractMin (h : c.Valid) (hsize : c.h_size ≠ 0) :
    c.heapExtractMin.1.Valid ∧ c.elements = c.h_elems 0 ::ₘ c.heapExtractMin.1.elements := by
  obtain ⟨h1, h2⟩ := c.heapExtractMin_spec (h.ordered.off (Nat.pos_of_ne_zero hsize)) hsize
  obtain ⟨hle, hmax⟩ := heapExtractMin_sizes c
  refine ⟨⟨h1, ?_, ?_⟩, h2.symm⟩
  · rw [hmax]
    exact hle.trans h.room
  · rw [hmax]
    exact h.pos

/-- `heap_delete` of an element that is there: it goes to the root, and leaves. -/
theorem Valid.delete {i : ℕ} (h : c.Valid) (hi : i < c.h_size)
    (hmember : c.heapMember elem = i + 1) :
    (c.heapDelete elem).Valid ∧ c.elements = c.h_elems i ::ₘ (c.heapDelete elem).elements := by
  have hne : c.heapMember elem ≠ 0 := by omega
  obtain ⟨h1, h2, h3⟩ := deleteLoop_spec c.h_elems i (h.ordered.off hi) hi
  have hsize : ({ c with h_elems := deleteLoop c.h_elems i } : Heap).h_size ≠ 0 := by
    simp only
    omega
  obtain ⟨h4, h5⟩ := heapExtractMin_spec { c with h_elems := deleteLoop c.h_elems i } h1 hsize
  obtain ⟨hle, hmax⟩ := heapExtractMin_sizes { c with h_elems := deleteLoop c.h_elems i }
  rw [heapDelete, if_neg hne, hmember, Nat.add_sub_cancel]
  refine ⟨⟨h4, ?_, ?_⟩, ?_⟩
  · rw [hmax]
    exact hle.trans h.room
  · rw [hmax]
    exact h.pos
  · simp only [h2, h3] at h5
    exact h5.symm

/-- Every call keeps the invariant. -/
theorem Valid.exec (h : c.Valid) (o : HeapOp) : (c.exec o).Valid := by
  cases o with
  | insert k elem => exact (h.insert k elem).1
  | extractMin =>
    by_cases hsize : c.h_size = 0
    · rw [Heap.exec, heapExtractMin, if_pos hsize]
      exact h
    · exact (h.extractMin hsize).1
  | delete elem =>
    rcases c.heapMember_spec elem with ⟨hzero, -⟩ | ⟨i, hi, hmember, -⟩
    · rw [Heap.exec, heapDelete, if_pos hzero]
      exact h
    · exact (h.delete hi hmember).1

/-- Every call does what it has to. -/
theorem Valid.serves (h : c.Valid) (o : HeapOp) : c.Serves o := by
  cases o with
  | insert k elem => exact (h.insert k elem).2
  | extractMin =>
    constructor
    · intro hempty
      rw [heapExtractMin, if_pos (elements_eq_zero.mp hempty)]
    · intro hne
      have hsize : c.h_size ≠ 0 := fun hzero => hne (elements_eq_zero.mpr hzero)
      refine ⟨c.h_elems 0, h.isMin_root, ?_, (h.extractMin hsize).2⟩
      rw [heapExtractMin, if_neg hsize]
  | delete elem =>
    rcases c.heapMember_spec elem with ⟨hzero, habsent⟩ | ⟨i, hi, hmember, heq⟩
    · refine ⟨fun _ => ⟨if_pos hzero, if_pos hzero⟩, ?_⟩
      rintro ⟨x, hx, hxe⟩
      obtain ⟨i, hi, rfl⟩ := mem_elements.mp hx
      exact absurd hxe (habsent i hi)
    · have hne : c.heapMember elem ≠ 0 := by omega
      refine ⟨fun habsent => absurd heq (habsent _ (mem_elements.mpr ⟨i, hi, rfl⟩)), fun _ => ?_⟩
      exact ⟨if_neg hne, c.h_elems i, heq, (h.delete hi hmember).2⟩

theorem valid_ofSize {size : ℕ} (hsize : 0 < size) (h_elems : ℕ → HeapElem) :
    (ofSize size h_elems).Valid :=
  ⟨fun _ _ hj => absurd hj (Nat.not_lt_zero _), Nat.zero_le _, hsize⟩

end Heap

/-! ## Runs -/

/-- **The heap is a priority queue.**  Before every call of every run the elements are an ordered
heap in an array with room for it, and the call does what it has to do. -/
theorem heap_priority_queue (size : ℕ) (hsize : 0 < size) (h_elems : ℕ → HeapElem)
    (calls : List HeapOp) :
    Run.AllSteps Heap.exec (fun c o => c.Valid ∧ c.Serves o) (Heap.ofSize size h_elems) calls ∧
      (calls.foldl Heap.exec (Heap.ofSize size h_elems)).Valid := by
  constructor
  · exact Run.allSteps_of_invariant (I := Heap.Valid) (fun c o h => ⟨h, h.serves o⟩)
      (fun c o h => h.exec o) calls _ (Heap.valid_ofSize hsize h_elems)
  · exact List.foldlRecOn (motive := Heap.Valid) calls _ (Heap.valid_ofSize hsize h_elems)
      fun c h o _ => h.exec o

/-- Three insertions, a deletion and an extraction. -/
def growingCalls : List HeapOp :=
  [.insert 3 ⟨1, 3⟩, .insert 2 ⟨2, 2⟩, .insert 2 ⟨3, 2⟩, .delete ⟨1, 3⟩, .extractMin]

/-- A heap with room for one element, which grows. -/
theorem heap_priority_queue_grows :
    Run.AllSteps Heap.exec (fun c o => c.Valid ∧ c.Serves o)
        (Heap.ofSize 1 fun _ => ⟨0, 0, ⟨0, 0⟩⟩) growingCalls ∧
      (growingCalls.foldl Heap.exec (Heap.ofSize 1 fun _ => ⟨0, 0, ⟨0, 0⟩⟩)).Valid :=
  heap_priority_queue 1 one_pos _ _

end Ns2.Common
