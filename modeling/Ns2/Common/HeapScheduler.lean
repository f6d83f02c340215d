import Ns2.Common.Requests
import Ns2.Lib.Heap

/-!
# The heap scheduler

`HeapScheduler` of `common/scheduler.h`, with the class `Heap` of `common/heap.h`.  Every
element has a stamp, the value of the counter `h_s_key` at its insertion, that orders the
events of one time.  The counter is an `unsigned int`: it is kept modulo `2 ^ 32`.

* `Heap.heapInsert`, `heapExtractMin`, `heapMember`, `heapDelete` — the source functions.
* `HeapScheduler.serve` — one request.
-/

namespace Ns2.Common

open BinHeap

/-- `struct Heap_elem`. -/
structure HeapElem where
  /-- The key: the time of the event. -/
  he_key : ℚ
  /-- The secondary key: the stamp. -/
  he_s_key : ℕ
  /-- The event. -/
  he_elem : Event
  deriving DecidableEq, Repr

/-- A `Heap`. -/
structure Heap where
  /-- The array; the first `h_size` places are in use. -/
  h_elems : ℕ → HeapElem
  /-- The next stamp. -/
  h_s_key : ℕ
  /-- Number of elements. -/
  h_size : ℕ
  /-- Number of places allocated. -/
  h_maxsize : ℕ

namespace Heap

/-- `KEY_LESS_THAN`. -/
def keyLessThan (k1 : ℚ) (ks1 : ℕ) (k2 : ℚ) (ks2 : ℕ) : Prop := k1 < k2 ∨ (k1 = k2 ∧ ks1 < ks2)

instance (k1 : ℚ) (ks1 : ℕ) (k2 : ℚ) (ks2 : ℕ) : Decidable (keyLessThan k1 ks1 k2 ks2) :=
  inferInstanceAs (Decidable (_ ∨ _))

/-- The constructor, in any memory. -/
def new (h_elems : ℕ → HeapElem) : Heap :=
  { h_elems := h_elems, h_s_key := 0, h_size := 0, h_maxsize := 32 }

/-- `swap`. -/
def swap (h_elems : ℕ → HeapElem) (i j : ℕ) : ℕ → HeapElem := h_elems ∘ Equiv.swap i j

/-- The loop of `heap_insert`: elements with larger keys move down.  With the array comes
the free place. -/
def insertLoop (key : ℚ) (s_key : ℕ) (h_elems : ℕ → HeapElem) (i : ℕ) : (ℕ → HeapElem) × ℕ :=
  if i > 0 ∧ keyLessThan key s_key (h_elems (parent i)).he_key (h_elems (parent i)).he_s_key then
    insertLoop key s_key (Function.update h_elems i (h_elems (parent i))) (parent i)
  else (h_elems, i)
termination_by i
decreasing_by exact parent_lt (by omega)

/-- `heap_insert(key, elem)`. -/
def heapInsert (c : Heap) (key : ℚ) (elem : Event) : Heap :=
  let r := insertLoop key c.h_s_key c.h_elems c.h_size
  { h_elems := Function.update r.1 r.2 ⟨key, c.h_s_key, elem⟩
    h_s_key := (c.h_s_key + 1) % 2 ^ 32
    h_size := c.h_size + 1
    h_maxsize := if c.h_maxsize = c.h_size then c.h_maxsize * 2 else c.h_maxsize }

/-- The place `heap_extract_min` compares place `i` with: a child, or `i` itself when it
has none. -/
def child (h_elems : ℕ → HeapElem) (h_size i : ℕ) : ℕ :=
  let l := left i
  let r := right i
  if r < h_size then
    if keyLessThan (h_elems l).he_key (h_elems l).he_s_key (h_elems r).he_key (h_elems r).he_s_key
    then l else r
  else if l < h_size then l else i

theorem child_spec (h_elems : ℕ → HeapElem) (h_size i : ℕ) :
    child h_elems h_size i = i ∧ h_size ≤ left i ∨
      child h_elems h_size i < h_size ∧ 0 < child h_elems h_size i ∧
        parent (child h_elems h_size i) = i := by
  have hl := lt_left i
  have hr := left_lt_right i
  unfold child
  simp only
  split_ifs with h1 h2 h3
  · exact .inr ⟨by omega, by omega, parent_left i⟩
  · exact .inr ⟨h1, by omega, parent_right i⟩
  · exact .inr ⟨h3, by omega, parent_left i⟩
  · exact .inl ⟨rfl, not_lt.mp h3⟩

/-- The loop of `heap_extract_min`. -/
def heapify (h_elems : ℕ → HeapElem) (h_size i : ℕ) : ℕ → HeapElem :=
  if i < h_size then
    let x := child h_elems h_size i
    if x ≠ i ∧ keyLessThan (h_elems x).he_key (h_elems x).he_s_key
        (h_elems i).he_key (h_elems i).he_s_key then
      heapify (swap h_elems i x) h_size x
    else h_elems
  else h_elems
termination_by h_size - i
decreasing_by
  rename_i hi hx
  rcases child_spec h_elems h_size i with ⟨hc, -⟩ | ⟨hc, hpos, hp⟩
  · exact absurd hc hx.1
  · have := parent_lt hpos
    omega

/-- `heap_extract_min()`. -/
def heapExtractMin (c : Heap) : Heap × Option Event :=
  if c.h_size = 0 then (c, none)
  else
    let size := c.h_size - 1
    ({ c with
        h_elems := heapify (Function.update c.h_elems 0 (c.h_elems size)) size 0
        h_size := size }, some (c.h_elems 0).he_elem)

/-- `heap_member(elem)`: one more than the index of the element, or zero. -/
def heapMember (c : Heap) (elem : Event) : ℕ :=
  match (List.range c.h_size).find? fun i => (c.h_elems i).he_elem = elem with
  | some i => i + 1
  | none => 0

/-- The loop of `heap_delete`: the element goes to the root. -/
def deleteLoop (h_elems : ℕ → HeapElem) (i : ℕ) : ℕ → HeapElem :=
  if 0 < i then deleteLoop (swap h_elems i (parent i)) (parent i) else h_elems
termination_by i
decreasing_by exact parent_lt ‹_›

/-- `heap_delete(elem)`. -/
def heapDelete (c : Heap) (elem : Event) : Heap :=
  if c.heapMember elem = 0 then c
  else ({ c with h_elems := deleteLoop c.h_elems (c.heapMember elem - 1) } : Heap).heapExtractMin.1

end Heap

namespace HeapScheduler

/-- `insert(e)`. -/
def insert (hp_ : Heap) (e : Event) : Heap := hp_.heapInsert e.time_ e

/-- `deque()`. -/
def deque (hp_ : Heap) : Heap × Option Event := hp_.heapExtractMin

/-- `cancel(e)`. -/
def cancel (hp_ : Heap) (e : Event) : Heap × Event :=
  if e.uid_ ≤ 0 then (hp_, e) else (hp_.heapDelete e, { e with uid_ := -e.uid_ })

/-- One request to the heap; the output is the event that has left. -/
def serve (s : Numbered Heap) : Request → Numbered Heap × Option Event
  | .schedule time_ => (⟨s.uid_ + 1, insert s.queue ⟨s.uid_, time_⟩⟩, none)
  | .deque => (⟨s.uid_, (deque s.queue).1⟩, (deque s.queue).2)
  | .cancel e => (⟨s.uid_, (cancel s.queue e).1⟩, some (cancel s.queue e).2)

end HeapScheduler

namespace Heap

/-! ## The loops -/

/-- Both keys of an element. -/
def key (x : HeapElem) : ℚ ×ₗ ℕ := toLex (x.he_key, x.he_s_key)

theorem keyLessThan_iff (x y : HeapElem) :
    keyLessThan x.he_key x.he_s_key y.he_key y.he_s_key ↔ key x < key y := by
  rw [keyLessThan, key, key, Prod.Lex.toLex_lt_toLex]

variable {g : ℕ → HeapElem} {n i : ℕ} {e : HeapElem}

/-- The loop of `heap_insert` finds the place of a new element. -/
theorem insertLoop_spec (e : HeapElem) (g : ℕ → HeapElem) (i : ℕ)
    (h : UpReady key (Function.update g i e) n i) (hi : i < n) :
    let r := insertLoop e.he_key e.he_s_key g i
    Ordered key (Function.update r.1 r.2 e) n ∧
      contents (Function.update r.1 r.2 e) n = contents (Function.update g i e) n := by
  induction g, i using insertLoop.induct e.he_key e.he_s_key with
  | case1 g i hlt ih =>
    obtain ⟨hpos, hless⟩ := hlt
    have hp := parent_lt hpos
    have hmove := h.move hpos hi (by
      rw [Function.update_self, Function.update_of_ne hp.ne]
      exact (keyLessThan_iff _ _).mp hless)
    rw [← update_parent g e hpos] at hmove
    obtain ⟨h1, h2⟩ := ih hmove (hp.trans hi)
    unfold insertLoop
    rw [if_pos ⟨hpos, hless⟩]
    refine ⟨h1, h2.trans ?_⟩
    rw [update_parent g e hpos, contents_swap _ hi (hp.trans hi)]
  | case2 g i hstop =>
    unfold insertLoop
    rw [if_neg hstop]
    refine ⟨h.finish fun hpos => ?_, rfl⟩
    rw [Function.update_self, Function.update_of_ne (parent_lt hpos).ne, ← not_lt,
      ← keyLessThan_iff]
    exact fun hless => hstop ⟨hpos, hless⟩

/-- The child that is compared has the smallest key of the children. -/
theorem child_le (g : ℕ → HeapElem) (n i : ℕ) :
    ∀ j, 0 < j → j < n → parent j = i → key (g (child g n i)) ≤ key (g j) := by
  intro j hj hjn hpar
  have hr := left_lt_right i
  unfold child
  simp only
  split_ifs with h1 h2 h3
  · rcases eq_left_or_right hj hpar with rfl | rfl
    · exact le_rfl
    · exact ((keyLessThan_iff _ _).mp h2).le
  · rw [keyLessThan_iff, not_lt] at h2
    rcases eq_left_or_right hj hpar with rfl | rfl
    · exact h2
    · exact le_rfl
  · rcases eq_left_or_right hj hpar with rfl | rfl
    · exact le_rfl
    · exact absurd hjn h1
  · rcases eq_left_or_right hj hpar with rfl | rfl
    · exact absurd hjn h3
    · exact absurd (hr.trans hjn) h3

/-- The loop of `heap_extract_min` restores the order below a place. -/
theorem heapify_spec (g : ℕ → HeapElem) (n i : ℕ) (h : DownReady key g n i) :
    Ordered key (heapify g n i) n ∧ contents (heapify g n i) n = contents g n := by
  induction g, i using heapify.induct n with
  | case1 g i hi x hx ih =>
    obtain ⟨hne, hless⟩ := hx
    rcases child_spec g n i with ⟨hc, -⟩ | ⟨hc, hpos, hpar⟩
    · exact absurd hc hne
    obtain ⟨h1, h2⟩ := ih (h.move hpos hc hpar (child_le g n i) ((keyLessThan_iff _ _).mp hless))
    unfold heapify
    rw [if_pos hi]
    simp only
    rw [if_pos ⟨hne, hless⟩]
    exact ⟨h1, h2.trans (contents_swap g hi hc)⟩
  | case2 g i hi x hx =>
    unfold heapify
    rw [if_pos hi]
    simp only
    rw [if_neg hx]
    refine ⟨h.finish fun j hj hjn hpar => ?_, rfl⟩
    have hmin := child_le g n i j hj hjn hpar
    by_cases hne : child g n i = i
    · rwa [hne] at hmin
    · rw [not_and, keyLessThan_iff, not_lt] at hx
      exact (hx hne).trans hmin
  | case3 g i hi =>
    unfold heapify
    rw [if_neg hi]
    refine ⟨h.finish fun j hj hjn hpar => ?_, rfl⟩
    have := parent_lt hj
    omega

/-- The loop of `heap_delete` brings an element to the root. -/
theorem deleteLoop_spec (g : ℕ → HeapElem) (i : ℕ) (h : OrderedOff key g n i) (hi : i < n) :
    OrderedOff key (deleteLoop g i) n 0 ∧ contents (deleteLoop g i) n = contents g n ∧
      deleteLoop g i 0 = g i := by
  induction g, i using deleteLoop.induct with
  | case1 g i hpos ih =>
    have hp := (parent_lt hpos).trans hi
    obtain ⟨h1, h2, h3⟩ := ih (h.swap_parent hpos hi) hp
    unfold deleteLoop
    rw [if_pos hpos]
    refine ⟨h1, h2.trans (contents_swap g hi hp), h3.trans ?_⟩
    rw [swap, Function.comp_apply, Equiv.swap_apply_right]
  | case2 g i hpos =>
    obtain rfl : i = 0 := by omega
    unfold deleteLoop
    rw [if_neg hpos]
    exact ⟨h, rfl, rfl⟩

/-- `heap_extract_min` takes the root out, whatever it is. -/
theorem heapExtractMin_spec (c : Heap) (h : OrderedOff key c.h_elems c.h_size 0)
    (hsize : c.h_size ≠ 0) :
    Ordered key c.heapExtractMin.1.h_elems c.heapExtractMin.1.h_size ∧
      c.h_elems 0 ::ₘ contents c.heapExtractMin.1.h_elems c.heapExtractMin.1.h_size =
        contents c.h_elems c.h_size := by
  obtain ⟨n, hn⟩ := Nat.exists_eq_succ_of_ne_zero hsize
  rw [heapExtractMin, if_neg hsize]
  simp only [hn, Nat.succ_eq_add_one, Nat.add_sub_cancel] at h ⊢
  obtain ⟨h1, h2⟩ := heapify_spec _ n 0 h.replace_root
  exact ⟨h1, by rw [h2, contents_replace_root]⟩

theorem heapMember_spec (c : Heap) (elem : Event) :
    (c.heapMember elem = 0 ∧ ∀ i < c.h_size, (c.h_elems i).he_elem ≠ elem) ∨
      ∃ i < c.h_size, c.heapMember elem = i + 1 ∧ (c.h_elems i).he_elem = elem := by
  rw [heapMember]
  cases hfind : (List.range c.h_size).find? fun i => (c.h_elems i).he_elem = elem with
  | none =>
    refine .inl ⟨rfl, fun i hi => ?_⟩
    simpa using List.find?_eq_none.mp hfind i (List.mem_range.mpr hi)
  | some i =>
    refine .inr ⟨i, List.mem_range.mp (List.mem_of_find?_eq_some hfind), rfl, ?_⟩
    simpa using List.find?_some hfind

end Heap

end Ns2.Common
