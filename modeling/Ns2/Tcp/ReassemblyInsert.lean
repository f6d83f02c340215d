import Ns2.Tcp.ReassemblyClear

/-!
# Inserting into a reassembly queue

The last part of `ReassemblyQueue::add`: a new node goes in between two neighbours it
does not overlap, and `coalesce` joins it with those it touches.

* `Inserted q xs s e q' xs'` — what inserting `[s, e)` comes to: the cover grows by the
  range, and `rcv_nxt_` is moved over the block that holds it.
* `FlagsKept q xs s e g q' xs'` — no flag of a number in the queue is lost, and those of the
  range are added.
* `InsertedWith` — both, the flags if the hole that the range fills allows it.
* `insertNode_spec` — the node stays a block of its own.
* `fillHole_spec`, `joinPrev_spec`, `joinNext_spec` — the three cases of `coalesce`.
* `coalesce_cases` — which of them it is.
* `endfast_spec` — all of it, from the label `endfast:` on.
-/

namespace Ns2.Tcp.ReassemblyQueue

open Linked Intervals

variable {q : ReassemblyQueue} {xs A B M : List Ptr} {s e : ℤ} {x p n r : Ptr}
  {g : TcpFlag} {f : ℕ} {i : ℤ}

/-- A queue whose blocks are where `lo` and `hi` say holds what `lo` and `hi` describe. -/
theorem holds_of_agree {lo hi : Ptr → ℤ} (hl : ∃ fs, Shape q.toLinks xs fs)
    (hb : Separated lo hi xs) (hc : q.total_ = total lo hi xs)
    (hag : ∀ x ∈ xs, q.startseq_ x = lo x ∧ q.endseq_ x = hi x) :
    q.Holds xs ∧ q.covered xs = cover lo hi xs :=
  ⟨⟨hl, hb.congr hag, by rw [hc, total_congr hag]⟩, cover_congr hag⟩

/-- `rcv_nxt_` after a block `b` of the queue has been looked at. -/
def PointAt (q q' : ReassemblyQueue) (b : Ptr) : Prop :=
  q'.rcv_nxt_ = if q'.startseq_ b ≤ q.rcv_nxt_ then q'.endseq_ b else q.rcv_nxt_

/-- The result of putting in `[s, e)` next to or between blocks it does not overlap. -/
structure Inserted (q : ReassemblyQueue) (xs : List Ptr) (s e : ℤ) (q' : ReassemblyQueue)
    (xs' : List Ptr) : Prop where
  /-- The new queue is in order. -/
  holds : q'.Holds xs'
  /-- The cover has grown by the range. -/
  cover : q'.covered xs' = q.covered xs ∪ Set.Ico s e
  /-- One block holds the range, and `rcv_nxt_` has been moved over it. -/
  point : ∃ b ∈ xs', q'.startseq_ b ≤ s ∧ e ≤ q'.endseq_ b ∧ q.PointAt q' b

/-- Blocks that are where `lo` and `hi` say, after `rcv_nxt_` has looked at `b`. -/
theorem inserted_of_agree {lo hi : Ptr → ℤ} {xs' : List Ptr} {q₂ : ReassemblyQueue} {b : Ptr}
    (hl : ∃ fs, Shape q₂.toLinks xs' fs) (hb : Separated lo hi xs')
    (hc : q₂.total_ = total lo hi xs')
    (hag : ∀ x ∈ xs', q₂.startseq_ x = lo x ∧ q₂.endseq_ x = hi x)
    (hcover : Intervals.cover lo hi xs' = q.covered xs ∪ Set.Ico s e) (hmem : b ∈ xs')
    (hlo : lo b ≤ s) (hhi : e ≤ hi b) (hnxt : q₂.rcv_nxt_ = q.rcv_nxt_) :
    Inserted q xs s e (q₂.advanceTo b) xs' := by
  obtain ⟨hholds, hcov⟩ := holds_of_agree hl hb hc hag
  obtain ⟨h1, h2⟩ := hag b hmem
  refine ⟨⟨hholds.links, hholds.blocks, hholds.count⟩, hcov.trans hcover, b, hmem, ?_, ?_, ?_⟩
  · exact h1.le.trans hlo
  · exact hhi.trans h2.ge
  · show (if q₂.rcv_nxt_ ≥ q₂.startseq_ b then _ else _) = _
    rw [hnxt]
    rfl

/-! ## Flags -/

/-- The numbers of a range, each with the flags `g`. -/
def flaggedRange (s e : ℤ) (g : TcpFlag) : Set (ℤ × ℕ) :=
  {a | s ≤ a.1 ∧ a.1 < e ∧ g.testBit a.2}

/-- The queue has kept its flags, and the range has got the flags `g`. -/
def FlagsKept (q : ReassemblyQueue) (xs : List Ptr) (s e : ℤ) (g : TcpFlag)
    (q' : ReassemblyQueue) (xs' : List Ptr) : Prop :=
  q.flagged xs ∪ flaggedRange s e g ⊆ q'.flagged xs'

/-- If the range fills the hole between two blocks, the flags of the second are among those of
the first and of the range. -/
def HoleFlags (q : ReassemblyQueue) (A B : List Ptr) (s e : ℤ) (g : TcpFlag) : Prop :=
  ∀ p r, A.getLast? = some p → B.head? = some r → q.endseq_ p = s → q.startseq_ r = e →
    ∀ j, (q.pflags_ r).testBit j → (q.pflags_ p ||| g).testBit j

/-- The result of putting in a range, with its flags. -/
structure InsertedWith (q : ReassemblyQueue) (A B : List Ptr) (s e : ℤ) (g : TcpFlag)
    (q' : ReassemblyQueue) (xs' : List Ptr) : Prop extends Inserted q (A ++ B) s e q' xs' where
  /-- The flags. -/
  flags : q.HoleFlags A B s e g → FlagsKept q (A ++ B) s e g q' xs'

/-- Flags are kept if every block, and the range, goes into a block with at least its flags. -/
theorem flagsKept_of_blocks {q' : ReassemblyQueue} {xs' : List Ptr}
    (hx : ∀ x ∈ xs, ∃ y ∈ xs', q'.startseq_ y ≤ q.startseq_ x ∧ q.endseq_ x ≤ q'.endseq_ y ∧
      ∀ j, (q.pflags_ x).testBit j → (q'.pflags_ y).testBit j)
    (hg : ∃ y ∈ xs', q'.startseq_ y ≤ s ∧ e ≤ q'.endseq_ y ∧
      ∀ j, g.testBit j → (q'.pflags_ y).testBit j) : FlagsKept q xs s e g q' xs' := by
  rintro ⟨n, j⟩ (⟨x, hmem, h1, h2, h3⟩ | ⟨h1, h2, h3⟩)
  · obtain ⟨y, hy, hlo, hhi, hflags⟩ := hx x hmem
    exact ⟨y, hy, hlo.trans h1, h2.trans_le hhi, hflags j h3⟩
  · obtain ⟨y, hy, hlo, hhi, hflags⟩ := hg
    exact ⟨y, hy, hlo.trans h1, h2.trans_le hhi, hflags j h3⟩

/-! ## The new node -/

/-- The state after the insertion of a node: its pointers, and its neighbours' data. -/
theorem insertNode_shape (h : q.Holds (A ++ B)) :
    (∃ fs, Shape (q.insertNode A.getLast? B.head? s e g f i).toLinks
      (A ++ q.newseginfo.1 :: B) fs) ∧ q.newseginfo.1 ∉ A ++ B := by
  obtain ⟨fs, hs⟩ := h.links
  obtain ⟨fs', h1, h2, h3, h4⟩ := hs.new
  exact ⟨⟨fs', h1.linkIn h2 h3 h4⟩, h2⟩

/-- No merge: the new node is a block of its own. -/
theorem insertNode_spec (h : q.Holds (A ++ B)) (hse : s < e) (hA : ∀ a ∈ A, q.endseq_ a < s)
    (hB : ∀ b ∈ B, e < q.startseq_ b) :
    Inserted q (A ++ B) s e
      ((q.insertNode A.getLast? B.head? s e g f i).advanceTo q.newseginfo.1)
      (A ++ q.newseginfo.1 :: B) := by
  obtain ⟨hshape, hn⟩ := insertNode_shape (s := s) (e := e) (g := g) (f := f) (i := i) h
  generalize hnew : q.newseginfo.1 = n at *
  rw [List.mem_append, not_or] at hn
  have hagA : ∀ y ∈ A, Function.update q.startseq_ n s y = q.startseq_ y ∧
      Function.update q.endseq_ n e y = q.endseq_ y :=
    fun y hy => ⟨update_congr hn.1 y hy, update_congr hn.1 y hy⟩
  have hagB : ∀ y ∈ B, Function.update q.startseq_ n s y = q.startseq_ y ∧
      Function.update q.endseq_ n e y = q.endseq_ y :=
    fun y hy => ⟨update_congr hn.2 y hy, update_congr hn.2 y hy⟩
  have hsep : Separated (Function.update q.startseq_ n s) (Function.update q.endseq_ n e)
      (A ++ n :: B) := by
    refine (h.blocks.left.congr hagA).middle (h.blocks.right.congr hagB) ?_ ?_ ?_ ?_
    · intro a ha b hb
      rw [(hagA a ha).2, (hagB b hb).1]
      exact h.blocks.hi_lt_lo ha hb
    · rwa [Function.update_self, Function.update_self]
    · intro a ha
      rw [(hagA a ha).2, Function.update_self]
      exact hA a ha
    · intro b hb
      rw [(hagB b hb).1, Function.update_self]
      exact hB b hb
  have hcount : q.total_ + (e - s)
      = total (Function.update q.startseq_ n s) (Function.update q.endseq_ n e) (A ++ n :: B) := by
    rw [total_append, total_cons, total_congr hagA, total_congr hagB, Function.update_self,
      Function.update_self, h.count, total_append]
    ring
  refine inserted_of_agree hshape hsep hcount (fun y _ => ?_) ?_ (by simp) ?_ ?_ rfl
  · rw [← hnew]
    exact ⟨rfl, rfl⟩
  · rw [covered, cover_append, cover_append, cover_cons, cover_congr hagA, cover_congr hagB,
      Function.update_self, Function.update_self, Set.union_comm (Set.Ico s e), Set.union_assoc]
  · rw [Function.update_self]
  · rw [Function.update_self]

theorem insertNode_flags (hn : q.newseginfo.1 ∉ A ++ B) :
    FlagsKept q (A ++ B) s e g (q.insertNode A.getLast? B.head? s e g f i)
      (A ++ q.newseginfo.1 :: B) := by
  refine flagsKept_of_blocks (fun x hx => ?_) ?_
  · have hne : x ≠ q.newseginfo.1 := ne_of_mem_of_not_mem hx hn
    refine ⟨x, by rw [List.mem_append] at hx; simp [hx.imp_right Or.inr], ?_⟩
    simp [insertNode, Function.update_of_ne hne]
  · refine ⟨q.newseginfo.1, by simp, ?_⟩
    simp [insertNode]

/-! ## `coalesce` -/

/-- The new node fills the hole between two blocks. -/
theorem fillHole_spec (h : q.Holds (A ++ p :: r :: B)) (hp : q.endseq_ p = s)
    (hr : q.startseq_ r = e) {q₁ : ReassemblyQueue}
    (hq₁ : q₁ = q.insertNode (some p) (some r) s e g f i) :
    Inserted q (A ++ p :: r :: B) s e ((q₁.fillHole p q.newseginfo.1 r).1.advanceTo p)
      (A ++ p :: B) := by
  have h' : q.Holds ((A ++ [p]) ++ r :: B) := by simpa using h
  obtain ⟨⟨fs, hshape⟩, hn⟩ :=
    insertNode_shape (s := s) (e := e) (g := g) (f := f) (i := i) h'
  rw [List.getLast?_concat, List.head?_cons, ← hq₁] at hshape
  have hrem := hshape.removeTwo
  rw [List.append_assoc, List.singleton_append] at hrem hn
  have hsep : Separated q.startseq_ q.endseq_ (A ++ p :: B) :=
    h.blocks.sublist (((List.sublist_cons_self r B).cons_cons p).append_left A)
  have hppos := h.blocks.pos p (by simp)
  have hrpos := h.blocks.pos r (by simp)
  have hpr : q.endseq_ p < q.startseq_ r := h'.blocks.hi_lt_lo (by simp) (by simp)
  have hset := hsep.setHi (e := q.endseq_ r) (by omega)
    (List.pairwise_cons.mp h'.blocks.right.gap).1
  obtain ⟨hpA, hpB⟩ := hsep.notMem
  refine inserted_of_agree ⟨_, hrem⟩ hset ?_ (fun y hy => ?_) ?_ (by simp) ?_ ?_ (by rw [hq₁]; rfl)
  · have hcount := h.count
    rw [total_append, total_cons, total_cons] at hcount
    rw [total_setHi hpA hpB, total_append, total_cons, hq₁]
    show q.total_ + (e - s) = _
    omega
  · have hyn : y ≠ q.newseginfo.1 := by
      refine ne_of_mem_of_not_mem ?_ hn
      simp only [List.mem_append, List.mem_cons] at hy ⊢
      tauto
    have hrn : r ≠ q.newseginfo.1 := ne_of_mem_of_not_mem (by simp) hn
    rw [hq₁]
    refine ⟨Function.update_of_ne hyn _ _, ?_⟩
    show Function.update (Function.update q.endseq_ _ e) p (Function.update q.endseq_ _ e r) y = _
    rw [Function.update_of_ne hrn]
    by_cases hyp : y = p
    · rw [hyp, Function.update_self, Function.update_self]
    · rw [Function.update_of_ne hyp, Function.update_of_ne hyp, Function.update_of_ne hyn]
  · rw [cover_setHi hpA hpB hppos.le (by omega), covered, cover_append, cover_append,
      cover_cons, cover_cons, cover_cons, hp, ← hr, ← Set.Ico_union_Ico_eq_Ico (b := q.startseq_ r)
        (by omega) hrpos.le]
    simp only [Set.union_assoc, Set.union_comm, Set.union_left_comm]
  · omega
  · rw [Function.update_self]
    omega

/-- A hole that is filled: the flags of the block after it are lost with its node. -/
theorem fillHole_flags (h : q.Holds (A ++ p :: r :: B)) (hp : q.endseq_ p = s)
    (hr : q.startseq_ r = e) (hn : q.newseginfo.1 ∉ A ++ p :: r :: B) {q₁ : ReassemblyQueue}
    (hq₁ : q₁ = q.insertNode (some p) (some r) s e g f i)
    (hf : ∀ j, (q.pflags_ r).testBit j → (q.pflags_ p ||| g).testBit j) :
    FlagsKept q (A ++ p :: r :: B) s e g (q₁.fillHole p q.newseginfo.1 r).1 (A ++ p :: B) := by
  have h' : q.Holds ((A ++ [p]) ++ r :: B) := by simpa using h
  have hppos := h.blocks.pos p (by simp)
  have hrpos := h.blocks.pos r (by simp)
  have hpr : q.endseq_ p < q.startseq_ r := h'.blocks.hi_lt_lo (by simp) (by simp)
  have hpn : p ≠ q.newseginfo.1 := ne_of_mem_of_not_mem (by simp) hn
  have hrn : r ≠ q.newseginfo.1 := ne_of_mem_of_not_mem (by simp) hn
  subst hq₁
  refine flagsKept_of_blocks (fun x hx => ?_) ⟨p, by simp, ?_⟩
  · have hxn : x ≠ q.newseginfo.1 := ne_of_mem_of_not_mem hx hn
    by_cases hxp : x = p
    · subst hxp
      refine ⟨x, by simp, ?_⟩
      simp only [fillHole, insertNode, Function.update_self, Function.update_of_ne hxn,
        Function.update_of_ne hrn]
      exact ⟨le_rfl, by omega, fun j => testBit_or_left⟩
    · by_cases hxr : x = r
      · subst hxr
        refine ⟨p, by simp, ?_⟩
        simp only [fillHole, insertNode, Function.update_self, Function.update_of_ne hpn,
          Function.update_of_ne hrn]
        exact ⟨by omega, le_rfl, hf⟩
      · refine ⟨x, by simp_all, ?_⟩
        simp [fillHole, insertNode, Function.update_of_ne hxn, Function.update_of_ne hxp]
  · simp only [fillHole, insertNode, Function.update_self, Function.update_of_ne hpn,
      Function.update_of_ne hrn]
    exact ⟨by omega, by omega, fun j => testBit_or_right⟩

/-- The new node joins the block before it. -/
theorem joinPrev_spec (h : q.Holds (A ++ p :: B)) (hse : s < e) (hp : q.endseq_ p = s)
    (hB : ∀ b ∈ B, e < q.startseq_ b) {q₁ : ReassemblyQueue}
    (hq₁ : q₁ = q.insertNode (some p) B.head? s e g f i) :
    Inserted q (A ++ p :: B) s e ((q₁.joinPrev p q.newseginfo.1).1.advanceTo p) (A ++ p :: B) := by
  have h' : q.Holds ((A ++ [p]) ++ B) := by simpa using h
  obtain ⟨⟨fs, hshape⟩, hn⟩ :=
    insertNode_shape (s := s) (e := e) (g := g) (f := f) (i := i) h'
  rw [List.getLast?_concat, ← hq₁] at hshape
  have hrem := hshape.remove
  rw [List.append_assoc, List.singleton_append] at hrem hn
  have hppos := h.blocks.pos p (by simp)
  have hset := h.blocks.setHi (e := e) (by omega) hB
  obtain ⟨hpA, hpB⟩ := h.blocks.notMem
  refine inserted_of_agree ⟨_, hrem⟩ hset ?_ (fun y hy => ?_) ?_ (by simp) ?_ ?_ (by rw [hq₁]; rfl)
  · rw [total_setHi hpA hpB, hp, ← h.count, hq₁]
    rfl
  · have hyn : y ≠ q.newseginfo.1 := ne_of_mem_of_not_mem hy hn
    rw [hq₁]
    refine ⟨Function.update_of_ne hyn _ _, ?_⟩
    show Function.update (Function.update q.endseq_ _ e) p (Function.update q.endseq_ _ e _) y = _
    rw [Function.update_self]
    by_cases hyp : y = p
    · rw [hyp, Function.update_self, Function.update_self]
    · rw [Function.update_of_ne hyp, Function.update_of_ne hyp, Function.update_of_ne hyn]
  · rw [cover_setHi hpA hpB hppos.le (by omega), hp]
    rfl
  · omega
  · rw [Function.update_self]

theorem joinPrev_flags (h : q.Holds (A ++ p :: B)) (hse : s < e) (hp : q.endseq_ p = s)
    (hn : q.newseginfo.1 ∉ A ++ p :: B) {q₁ : ReassemblyQueue}
    (hq₁ : q₁ = q.insertNode (some p) B.head? s e g f i) :
    FlagsKept q (A ++ p :: B) s e g (q₁.joinPrev p q.newseginfo.1).1 (A ++ p :: B) := by
  have hppos := h.blocks.pos p (by simp)
  have hpn : p ≠ q.newseginfo.1 := ne_of_mem_of_not_mem (by simp) hn
  subst hq₁
  refine flagsKept_of_blocks (fun x hx => ⟨x, hx, ?_⟩) ⟨p, by simp, ?_⟩
  · have hxn : x ≠ q.newseginfo.1 := ne_of_mem_of_not_mem hx hn
    by_cases hxp : x = p
    · subst hxp
      simp only [joinPrev, insertNode, Function.update_self, Function.update_of_ne hxn]
      exact ⟨le_rfl, by omega, fun j => testBit_or_left⟩
    · simp [joinPrev, insertNode, Function.update_of_ne hxn, Function.update_of_ne hxp]
  · simp only [joinPrev, insertNode, Function.update_self, Function.update_of_ne hpn]
    exact ⟨by omega, le_rfl, fun j => testBit_or_right⟩

/-- The new node joins the block after it. -/
theorem joinNext_spec (h : q.Holds (A ++ r :: B)) (hse : s < e) (hr : q.startseq_ r = e)
    (hA : ∀ a ∈ A, q.endseq_ a < s) {q₁ : ReassemblyQueue}
    (hq₁ : q₁ = q.insertNode A.getLast? (some r) s e g f i) :
    Inserted q (A ++ r :: B) s e ((q₁.joinNext q.newseginfo.1 r).1.advanceTo r) (A ++ r :: B) := by
  obtain ⟨⟨fs, hshape⟩, hn⟩ :=
    insertNode_shape (s := s) (e := e) (g := g) (f := f) (i := i) h
  rw [List.head?_cons, ← hq₁] at hshape
  have hrem := hshape.remove
  have hrpos := h.blocks.pos r (by simp)
  have hset := h.blocks.setLo (s := s) (by omega) hA
  obtain ⟨hrA, hrB⟩ := h.blocks.notMem
  refine inserted_of_agree ⟨_, hrem⟩ hset ?_ (fun y hy => ?_) ?_ (by simp) ?_ ?_ (by rw [hq₁]; rfl)
  · rw [total_setLo hrA hrB, hr, ← h.count, hq₁]
    rfl
  · have hyn : y ≠ q.newseginfo.1 := ne_of_mem_of_not_mem hy hn
    rw [hq₁]
    refine ⟨?_, Function.update_of_ne hyn _ _⟩
    show Function.update (Function.update q.startseq_ _ s) r (Function.update q.startseq_ _ s _) y = _
    rw [Function.update_self]
    by_cases hyr : y = r
    · rw [hyr, Function.update_self, Function.update_self]
    · rw [Function.update_of_ne hyr, Function.update_of_ne hyr, Function.update_of_ne hyn]
  · rw [cover_setLo hrA hrB (by omega) hrpos.le, hr]
    rfl
  · rw [Function.update_self]
  · omega

theorem joinNext_flags (h : q.Holds (A ++ r :: B)) (hse : s < e) (hr : q.startseq_ r = e)
    (hn : q.newseginfo.1 ∉ A ++ r :: B) {q₁ : ReassemblyQueue}
    (hq₁ : q₁ = q.insertNode A.getLast? (some r) s e g f i) :
    FlagsKept q (A ++ r :: B) s e g (q₁.joinNext q.newseginfo.1 r).1 (A ++ r :: B) := by
  have hrpos := h.blocks.pos r (by simp)
  have hrn : r ≠ q.newseginfo.1 := ne_of_mem_of_not_mem (by simp) hn
  subst hq₁
  refine flagsKept_of_blocks (fun x hx => ⟨x, hx, ?_⟩) ⟨r, by simp, ?_⟩
  · have hxn : x ≠ q.newseginfo.1 := ne_of_mem_of_not_mem hx hn
    by_cases hxr : x = r
    · subst hxr
      simp only [joinNext, insertNode, Function.update_self, Function.update_of_ne hxn]
      exact ⟨by omega, le_rfl, fun j => testBit_or_left⟩
    · simp [joinNext, insertNode, Function.update_of_ne hxn, Function.update_of_ne hxr]
  · simp only [joinNext, insertNode, Function.update_self, Function.update_of_ne hrn]
    exact ⟨le_rfl, by omega, fun j => testBit_or_right⟩

/-! ## `endfast` -/

/-- The new range touches a neighbour. -/
def TouchesNeighbour (q : ReassemblyQueue) (A B : List Ptr) (s e : ℤ) : Prop :=
  (∃ a, A.getLast? = some a ∧ q.endseq_ a = s) ∨ ∃ b, B.head? = some b ∧ q.startseq_ b = e

/-- In a sorted list, only the last block can end at the start of a range after it. -/
theorem endseq_lt_of_last (h : Separated q.startseq_ q.endseq_ A) (hA : ∀ a ∈ A, q.endseq_ a ≤ s)
    (hlast : ∀ a, A.getLast? = some a → q.endseq_ a ≠ s) : ∀ a ∈ A, q.endseq_ a < s := by
  rcases List.eq_nil_or_concat A with rfl | ⟨A, x, rfl⟩
  · simp
  · rw [List.concat_eq_append] at h hA hlast ⊢
    intro a ha
    have h1 := h.hi_le_last ha
    have h2 := hA x (by simp)
    have h3 := hlast x (by simp)
    omega

theorem lt_startseq_of_head (h : Separated q.startseq_ q.endseq_ B)
    (hB : ∀ b ∈ B, e ≤ q.startseq_ b) (hhead : ∀ b, B.head? = some b → q.startseq_ b ≠ e) :
    ∀ b ∈ B, e < q.startseq_ b := by
  cases B with
  | nil => simp
  | cons x B =>
    intro b hb
    have h1 := h.lo_head_le hb
    have h2 := hB x List.mem_cons_self
    have h3 := hhead x rfl
    omega

/-- The case that `coalesce` takes, for a range that touches a neighbour. -/
theorem coalesce_cases (h : q.Holds (A ++ B)) (hA : ∀ a ∈ A, q.endseq_ a ≤ s)
    (hB : ∀ b ∈ B, e ≤ q.startseq_ b) (ht : q.TouchesNeighbour A B s e) {q₁ : ReassemblyQueue}
    (hq₁ : q₁ = q.insertNode A.getLast? B.head? s e g f i) :
    (∃ r B', B = r :: B' ∧ q.startseq_ r = e ∧ (∀ a ∈ A, q.endseq_ a < s) ∧
      q₁.coalesce A.getLast? q.newseginfo.1 B.head?
        = some ((q₁.joinNext q.newseginfo.1 r).1.advanceTo r, (q₁.joinNext q.newseginfo.1 r).2)) ∨
    (∃ A' p, A = A' ++ [p] ∧ q.endseq_ p = s ∧ (∀ b ∈ B, e < q.startseq_ b) ∧
      q₁.coalesce A.getLast? q.newseginfo.1 B.head?
        = some ((q₁.joinPrev p q.newseginfo.1).1.advanceTo p, (q₁.joinPrev p q.newseginfo.1).2)) ∨
    ∃ A' p r B', A = A' ++ [p] ∧ B = r :: B' ∧ q.endseq_ p = s ∧ q.startseq_ r = e ∧
      q₁.coalesce A.getLast? q.newseginfo.1 B.head?
        = some ((q₁.fillHole p q.newseginfo.1 r).1.advanceTo p,
            (q₁.fillHole p q.newseginfo.1 r).2) := by
  have hltA := endseq_lt_of_last h.blocks.left hA
  have hltB := lt_startseq_of_head h.blocks.right hB
  obtain ⟨-, hn⟩ := insertNode_shape (s := s) (e := e) (g := g) (f := f) (i := i) h
  have hns : q₁.startseq_ q.newseginfo.1 = s := by rw [hq₁]; exact Function.update_self _ _ _
  have hne : q₁.endseq_ q.newseginfo.1 = e := by rw [hq₁]; exact Function.update_self _ _ _
  have hold : ∀ y ∈ A ++ B, q₁.startseq_ y = q.startseq_ y ∧ q₁.endseq_ y = q.endseq_ y := by
    intro y hy
    rw [hq₁]
    exact ⟨update_congr hn y hy, update_congr hn y hy⟩
  rcases List.eq_nil_or_concat A with rfl | ⟨A, p, rfl⟩
  · -- nothing before: the range touches the head
    cases B with
    | nil => simp [TouchesNeighbour] at ht
    | cons r B =>
      have hr : q.startseq_ r = e := by simpa [TouchesNeighbour] using ht
      have hcond : q₁.endseq_ q.newseginfo.1 = q₁.startseq_ r := by
        rw [hne, (hold r (by simp)).1, hr]
      exact Or.inl ⟨r, B, rfl, hr, by simp, if_pos hcond⟩
  · rw [List.concat_eq_append] at *
    rw [List.getLast?_concat]
    have hp : q₁.endseq_ p = q₁.startseq_ q.newseginfo.1 ↔ q.endseq_ p = s := by
      rw [hns, (hold p (by simp)).2]
    rcases B with _ | ⟨r, B⟩
    · have hps : q.endseq_ p = s := by simpa [TouchesNeighbour] using ht
      exact Or.inr (Or.inl ⟨A, p, rfl, hps, by simp, if_pos (hp.mpr hps)⟩)
    · have hr : q₁.endseq_ q.newseginfo.1 = q₁.startseq_ r ↔ q.startseq_ r = e := by
        rw [hne, (hold r (by simp)).1]
        exact eq_comm
      by_cases hps : q.endseq_ p = s
      · by_cases hre : q.startseq_ r = e
        · refine Or.inr (Or.inr ⟨A, p, r, B, rfl, rfl, hps, hre, ?_⟩)
          exact (if_pos (hp.mpr hps)).trans (if_pos (hr.mpr hre))
        · refine Or.inr (Or.inl ⟨A, p, rfl, hps, hltB fun b hb => ?_, ?_⟩)
          · rwa [← Option.some.inj hb]
          · exact (if_pos (hp.mpr hps)).trans (if_neg (mt hr.mp hre))
      · have hre : q.startseq_ r = e := by simpa [TouchesNeighbour, hps] using ht
        refine Or.inl ⟨r, B, rfl, hre, hltA fun a ha => ?_, ?_⟩
        · rw [List.getLast?_concat] at ha
          rwa [← Option.some.inj ha]
        · exact (if_neg (mt hp.mp hps)).trans (if_pos (hr.mpr hre))

/-- `coalesce`, called for a range that touches a neighbour. -/
theorem coalesce_spec (h : q.Holds (A ++ B)) (hse : s < e) (hA : ∀ a ∈ A, q.endseq_ a ≤ s)
    (hB : ∀ b ∈ B, e ≤ q.startseq_ b) (ht : q.TouchesNeighbour A B s e) {q₁ : ReassemblyQueue}
    (hq₁ : q₁ = q.insertNode A.getLast? B.head? s e g f i) :
    ∃ q' flag xs', q₁.coalesce A.getLast? q.newseginfo.1 B.head? = some (q', flag) ∧
      InsertedWith q A B s e g q' xs' := by
  obtain ⟨-, hn⟩ := insertNode_shape (s := s) (e := e) (g := g) (f := f) (i := i) h
  rcases coalesce_cases h hA hB ht hq₁ with ⟨r, B, rfl, hr, hlt, hres⟩ |
    ⟨A, p, rfl, hp, hlt, hres⟩ | ⟨A, p, r, B, rfl, rfl, hp, hr, hres⟩
  · exact ⟨_, _, _, hres, joinNext_spec h hse hr hlt hq₁, fun _ => joinNext_flags h hse hr hn hq₁⟩
  · have hassoc : A ++ [p] ++ B = A ++ p :: B := by simp
    rw [hassoc] at h hn
    rw [List.getLast?_concat] at hq₁
    refine ⟨_, _, A ++ p :: B, hres, ?_, fun _ => ?_⟩
    · exact hassoc ▸ joinPrev_spec h hse hp hlt hq₁
    · exact hassoc ▸ joinPrev_flags h hse hp hn hq₁
  · have hassoc : A ++ [p] ++ r :: B = A ++ p :: r :: B := by simp
    rw [hassoc] at h hn
    rw [List.getLast?_concat] at hq₁
    refine ⟨_, _, A ++ p :: B, hres, ?_, fun hf => ?_⟩
    · exact hassoc ▸ fillHole_spec h hp hr hq₁
    · have hfr := hf p r (by simp) rfl hp hr
      exact hassoc ▸ fillHole_flags h hp hr hn hq₁ hfr

/-- **From `endfast:` on.**  The new range goes between its neighbours and is joined
with those it touches. -/
theorem endfast_spec {w : Bool} (h : q.Holds (A ++ B)) (hse : s < e)
    (hA : ∀ a ∈ A, q.endseq_ a ≤ s) (hB : ∀ b ∈ B, e ≤ q.startseq_ b)
    (hm : w = true ↔ q.TouchesNeighbour A B s e) :
    ∃ q' flag xs', q.endfast A.getLast? B.head? s e g f i w = some (q', flag) ∧
      InsertedWith q A B s e g q' xs' := by
  cases w with
  | false =>
    have hno : ¬ q.TouchesNeighbour A B s e := fun ht => Bool.false_ne_true (hm.mpr ht)
    rw [TouchesNeighbour, not_or] at hno
    obtain ⟨-, hn⟩ := insertNode_shape (s := s) (e := e) (g := g) (f := f) (i := i) h
    refine ⟨_, g, _, ?_, insertNode_spec (g := g) (f := f) (i := i) h hse
      (endseq_lt_of_last h.blocks.left hA fun a ha he => hno.1 ⟨a, ha, he⟩)
      (lt_startseq_of_head h.blocks.right hB fun b hb he => hno.2 ⟨b, hb, he⟩),
      fun _ => insertNode_flags (f := f) (i := i) hn⟩
    simp [endfast, advanceTo, insertNode]
  | true => exact coalesce_spec h hse hA hB (hm.mp rfl) rfl

end Ns2.Tcp.ReassemblyQueue
