import Ns2.Lib.Run
import Ns2.Tcp.ReassemblyAdd

/-!
# Runs of a reassembly queue

The queue with everything its owners do to it: segments and SACK blocks are added, it
is cleared up to a sequence number, and the owner moves its own sequence number.

* `Op`, `step`, `exec` — the operations and their runs.
* `exec_spec` — **the queue refines a set of sequence numbers**: after any run the
  representation invariant holds and the cover is what the operations say.
* `pointKept_iff` — the runs in which no `add` moves `rcv_nxt_` backwards are those in
  which every range added reaches `rcv_nxt_` or the first block.
-/

namespace Ns2.Tcp.ReassemblyQueue

open Linked Intervals

/-- What is done to a queue. -/
inductive Op where
  /-- `add(start, end, tiflags, rqflags)` of a range that is not empty. -/
  | add (start stop : ℤ) (tiflags : TcpFlag) (rqflags : ℕ) (h : start < stop)
  /-- `clearto(seq)`. -/
  | clearto (seq : ℤ)
  /-- The owner sets its sequence number and calls `cleartonxt()`, as in
  `SackFullTcpAgent::ack_action`. -/
  | moveTo (rcvnxt : ℤ)
  /-- `init(rcvnxt)`; the same as `clear()` and an assignment, as in
  `SackFullTcpAgent::timeout_action`. -/
  | init (rcvnxt : ℤ)

/-- One operation. -/
def step (q : ReassemblyQueue) : Op → Option ReassemblyQueue
  | .add start stop tiflags rqflags _ => (q.add start stop tiflags rqflags).map Prod.fst
  | .clearto seq => (q.clearto seq).map Prod.fst
  | .moveTo rcvnxt => { q with rcv_nxt_ := rcvnxt }.cleartonxt.map Prod.fst
  | .init rcvnxt => q.init rcvnxt

/-- One operation of a run; nothing is left of a run that has crashed. -/
def exec (q? : Option ReassemblyQueue) (o : Op) : Option ReassemblyQueue := q?.bind (step · o)

/-- What an operation means for the set of sequence numbers in the queue. -/
def Op.effect (S : Set ℤ) : Op → Set ℤ
  | .add start stop _ _ _ => S ∪ Set.Ico start stop
  | .clearto seq => S ∩ Set.Ici seq
  | .moveTo rcvnxt => S ∩ Set.Ici rcvnxt
  | .init _ => ∅

variable {q : ReassemblyQueue} {xs : List Ptr}

/-! ## Refinement -/

/-- Every operation returns and has its effect. -/
theorem step_spec (h : q.Holds xs) (o : Op) :
    ∃ q' xs', q.step o = some q' ∧ q'.Holds xs' ∧ q'.covered xs' = o.effect (q.covered xs) := by
  cases o with
  | add start stop tiflags rqflags hlt =>
    obtain ⟨q', flag, xs', h1, h2⟩ := add_spec (g := tiflags) (f := rqflags) h hlt
    exact ⟨q', xs', by rw [step, h1]; rfl, h2.holds, h2.cover⟩
  | clearto seq =>
    obtain ⟨q', flag, xs', h1, h2, h3, -⟩ := clearto_spec seq h
    exact ⟨q', xs', by rw [step, h1]; rfl, h2, h3⟩
  | moveTo rcvnxt =>
    obtain ⟨q', flag, xs', h1, h2, h3, -⟩ :=
      clearto_spec (q := { q with rcv_nxt_ := rcvnxt }) rcvnxt ⟨h.links, h.blocks, h.count⟩
    exact ⟨q', xs', by rw [step, cleartonxt, h1]; rfl, h2, h3⟩
  | init rcvnxt =>
    obtain ⟨q', h1, h2, -⟩ :=
      clear_spec (q := { q with rcv_nxt_ := rcvnxt }) ⟨h.links, h.blocks, h.count⟩
    exact ⟨q', [], h1, h2, cover_nil⟩

/-- **The representation invariant.**  Every run of operations on a new queue returns,
with the two lists and the byte counter in order and the sequence numbers it should
hold. -/
theorem exec_spec (rcvnxt : ℤ) (ops : List Op) :
    ∃ q xs, ops.foldl exec (some (new rcvnxt)) = some q ∧ q.Holds xs ∧
      q.covered xs = ops.foldl Op.effect ∅ := by
  induction ops using List.reverseRecOn with
  | nil => exact ⟨new rcvnxt, [], rfl, holds_new rcvnxt, cover_nil⟩
  | append_singleton ops o ih =>
    obtain ⟨q, xs, h1, h2, h3⟩ := ih
    obtain ⟨q', xs', h4, h5, h6⟩ := step_spec h2 o
    refine ⟨q', xs', ?_, h5, ?_⟩
    · rw [List.foldl_concat, h1]
      exact h4
    · rw [List.foldl_concat, ← h3, h6]

/-! ## Where `rcv_nxt_` goes -/

/-- No block ends before `rcv_nxt_`. -/
def AheadOf (q : ReassemblyQueue) (xs : List Ptr) : Prop := ∀ x ∈ xs, q.rcv_nxt_ ≤ q.endseq_ x

/-- The range reaches `rcv_nxt_`, or the first block of the queue. -/
def Reaches (q : ReassemblyQueue) (stop : ℤ) : Prop :=
  q.rcv_nxt_ ≤ stop ∨ q.empty = false ∧ q.minseq ≤ stop

variable {q' : ReassemblyQueue} {xs' : List Ptr} {s e : ℤ} {x y : Ptr}

/-- The block that holds a range just added. -/
theorem Added.exists_block (h : Added q xs s e q' xs') (hse : s < e) :
    ∃ b ∈ xs', q'.startseq_ b ≤ s ∧ e ≤ q'.endseq_ b :=
  h.holds.blocks.exists_block hse fun n hn hn' => by
    show n ∈ q'.covered xs'
    rw [h.cover]
    exact Or.inr ⟨hn, hn'⟩

/-- An old block lies in one of the new ones. -/
theorem Added.exists_block_of_mem (h : Added q xs s e q' xs') (hq : q.Holds xs) (hx : x ∈ xs) :
    ∃ c ∈ xs', q'.startseq_ c ≤ q.startseq_ x ∧ q.endseq_ x ≤ q'.endseq_ c :=
  h.holds.blocks.exists_block (hq.blocks.pos x hx) fun n hn hn' => by
    show n ∈ q'.covered xs'
    rw [h.cover]
    exact Or.inl ⟨x, hx, hn, hn'⟩

/-- The end of a block of the new queue is the end of the range or of an old block. -/
theorem Added.endseq_eq (h : Added q xs s e q' xs') (hy : y ∈ xs') :
    q'.endseq_ y = e ∨ ∃ x ∈ xs, q.endseq_ x = q'.endseq_ y := by
  have hpos := h.holds.blocks.pos y hy
  have hend : q'.endseq_ y ∉ q.covered xs ∪ Set.Ico s e := by
    rw [← h.cover]
    exact h.holds.blocks.hi_notMem_cover hy
  have hlast : q'.endseq_ y - 1 ∈ q.covered xs ∪ Set.Ico s e := by
    rw [← h.cover]
    exact ⟨y, hy, by omega, by omega⟩
  rw [Set.mem_union, not_or] at hend
  rcases hlast with ⟨x, hx, h1, h2⟩ | hlast
  · refine Or.inr ⟨x, hx, le_antisymm (not_lt.mp fun hlt => ?_) (by omega)⟩
    exact hend.1 ⟨x, hx, by omega, hlt⟩
  · refine Or.inl (le_antisymm ?_ (not_lt.mp fun hlt => ?_))
    · have := hlast.2
      omega
    · have := hlast.1
      exact hend.2 ⟨by omega, hlt⟩

theorem reaches_iff (h : q.Holds xs) :
    q.Reaches e ↔ q.rcv_nxt_ ≤ e ∨ ∃ x ∈ xs, q.startseq_ x ≤ e := by
  rw [Reaches, minseq, ← Bool.not_eq_true, h.empty_iff, h.head_eq]
  refine or_congr_right ?_
  cases xs with
  | nil => simp
  | cons x xs =>
    simp only [reduceCtorEq, not_false_eq_true, List.head?_cons, Option.elim_some, true_and]
    constructor
    · exact fun hx => ⟨x, List.mem_cons_self, hx⟩
    · rintro ⟨y, hy, hle⟩
      exact (h.blocks.lo_head_le hy).trans hle

/-- A range that reaches leaves no block behind `rcv_nxt_`. -/
theorem Added.le_endseq (h : Added q xs s e q' xs') (hq : q.Holds xs)
    (ha : q.AheadOf xs) (hr : q.Reaches e) : ∀ y ∈ xs', q.rcv_nxt_ ≤ q'.endseq_ y := by
  intro y hy
  rcases h.endseq_eq hy with hend | ⟨x, hx, hend⟩
  · -- the block ends with the range, so the range reaches nothing beyond it
    rcases (reaches_iff hq).mp hr with hr | ⟨f, hf, hfe⟩
    · omega
    · have hfend := ha f hf
      by_contra hlt
      have hmem : e ∈ q'.covered xs' := by
        rw [h.cover]
        exact Or.inl ⟨f, hf, hfe, by omega⟩
      rw [← hend] at hmem
      exact h.holds.blocks.hi_notMem_cover hy hmem
  · rw [← hend]
    exact ha x hx

/-- **One `add`.**  It does not move `rcv_nxt_` backwards exactly when the range reaches
`rcv_nxt_` or the first block; and then no block is left behind. -/
theorem Added.rcv_nxt_le_iff (h : Added q xs s e q' xs') (hse : s < e) (hq : q.Holds xs)
    (ha : q.AheadOf xs) : q.rcv_nxt_ ≤ q'.rcv_nxt_ ↔ q.Reaches e := by
  constructor
  · intro hle
    by_contra hr
    rw [reaches_iff hq, not_or, not_le] at hr
    obtain ⟨hre, hxs⟩ := hr
    have hlo : ∀ x ∈ xs, e < q.startseq_ x := fun x hx => not_le.mp fun hx' => hxs ⟨x, hx, hx'⟩
    obtain ⟨c, hc, hcs, hce⟩ := h.exists_block hse
    -- the range stays a block of its own, before all others
    have hend : q'.endseq_ c = e := by
      by_contra hne
      have hmem : e ∈ q.covered xs ∪ Set.Ico s e := by
        rw [← h.cover]
        exact ⟨c, hc, by omega, by omega⟩
      rcases hmem with ⟨x, hx, h1, -⟩ | hmem
      · have := hlo x hx
        omega
      · exact lt_irrefl _ hmem.2
    rcases h.point with ⟨-, hsub⟩ | ⟨b, hb, hbc, hpoint⟩
    · obtain ⟨x, hx, h1, -⟩ := hsub ⟨le_rfl, hse⟩
      have := hlo x hx
      omega
    · have hfirst : q'.startseq_ b ≤ s ∧ q'.endseq_ b ≤ e := by
        rcases hbc with ⟨h1, h2⟩ | hhead
        · have hbc := h.holds.blocks.eq_of_mem (n := s) hb hc ⟨h1, by omega⟩ ⟨hcs, by omega⟩
          rw [hbc]
          exact ⟨hcs, hend.le⟩
        · obtain ⟨ys, rfl⟩ := List.head?_eq_some_iff.mp hhead
          have h1 := h.holds.blocks.lo_head_le hc
          refine ⟨h1.trans hcs, ?_⟩
          rcases eq_or_ne b c with rfl | hne
          · exact hend.le
          · rcases h.holds.blocks.apart hb hc hne with h2 | h2
            · omega
            · have := h.holds.blocks.pos c hc
              omega
      rw [PointAt, if_pos (by omega)] at hpoint
      omega
  · intro hr
    have hall := h.le_endseq hq ha hr
    rcases h.point with ⟨hpoint, -⟩ | ⟨b, hb, -, hpoint⟩
    · rw [hpoint]
    · rw [hpoint]
      split
      · exact hall b hb
      · exact le_rfl

theorem Added.aheadOf (h : Added q xs s e q' xs') (hq : q.Holds xs)
    (ha : q.AheadOf xs) (hr : q.Reaches e) : q'.AheadOf xs' := by
  have hall := h.le_endseq hq ha hr
  rcases h.point with ⟨hpoint, -⟩ | ⟨b, hb, -, hpoint⟩
  · intro y hy
    rw [hpoint]
    exact hall y hy
  · intro y hy
    rw [hpoint]
    split
    · rename_i hle
      rcases eq_or_ne b y with rfl | hne
      · exact le_rfl
      · have h1 := hall y hy
        have h2 := h.holds.blocks.pos y hy
        rcases h.holds.blocks.apart hb hy hne with h3 | h3
        · omega
        · omega
    · exact hall y hy

/-! ## Runs that keep the point -/

/-- The operation is not an `add` that moves `rcv_nxt_` backwards. -/
def PointKept (q? : Option ReassemblyQueue) : Op → Prop
  | .add start stop tiflags rqflags h =>
    ∀ q ∈ q?, ∀ q' ∈ q.step (.add start stop tiflags rqflags h), q.rcv_nxt_ ≤ q'.rcv_nxt_
  | _ => True

/-- If the operation is an `add`, its range reaches `rcv_nxt_` or the first block. -/
def AddReaches (q? : Option ReassemblyQueue) : Op → Prop
  | .add _ stop _ _ _ => ∀ q ∈ q?, q.Reaches stop
  | _ => True

/-- The invariant of the runs that keep the point. -/
def Ahead (q? : Option ReassemblyQueue) : Prop :=
  ∃ q xs, q? = some q ∧ q.Holds xs ∧ q.AheadOf xs

theorem pointKept_iff_addReaches {q? : Option ReassemblyQueue} (h : Ahead q?) (o : Op) :
    PointKept q? o ↔ AddReaches q? o := by
  obtain ⟨q, xs, rfl, hq, ha⟩ := h
  cases o with
  | add start stop tiflags rqflags hlt =>
    obtain ⟨q', flag, xs', h1, h2⟩ := add_spec (g := tiflags) (f := rqflags) hq hlt
    have hstep : q.step (.add start stop tiflags rqflags hlt) = some q' := by rw [step, h1]; rfl
    have hiff := h2.rcv_nxt_le_iff hlt hq ha
    simpa [PointKept, AddReaches, hstep] using hiff
  | clearto seq => exact Iff.rfl
  | moveTo rcvnxt => exact Iff.rfl
  | init rcvnxt => exact Iff.rfl

theorem Ahead.exec {q? : Option ReassemblyQueue} (h : Ahead q?) (o : Op) (ho : AddReaches q? o) :
    Ahead (exec q? o) := by
  obtain ⟨q, xs, rfl, hq, ha⟩ := h
  cases o with
  | add start stop tiflags rqflags hlt =>
    obtain ⟨q', flag, xs', h1, h2⟩ := add_spec (g := tiflags) (f := rqflags) hq hlt
    refine ⟨q', xs', ?_, h2.holds, h2.aheadOf hq ha (ho q rfl)⟩
    rw [ReassemblyQueue.exec, Option.bind_some, step, h1]
    rfl
  | clearto seq =>
    obtain ⟨q', flag, xs', h1, h2, -, h4, h5, -⟩ := clearto_spec seq hq
    refine ⟨q', xs', ?_, h2, fun x hx => ?_⟩
    · rw [ReassemblyQueue.exec, Option.bind_some, step, h1]
      rfl
    · obtain ⟨h6, h7, -⟩ := h5 x hx
      rw [h4, h7]
      exact ha x h6
  | moveTo rcvnxt =>
    obtain ⟨q', flag, xs', h1, h2, -, h4, h5, -⟩ :=
      clearto_spec (q := { q with rcv_nxt_ := rcvnxt }) rcvnxt ⟨hq.links, hq.blocks, hq.count⟩
    refine ⟨q', xs', ?_, h2, fun x hx => ?_⟩
    · rw [ReassemblyQueue.exec, Option.bind_some, step, cleartonxt, h1]
      rfl
    · rw [h4]
      exact (h5 x hx).2.2.le
  | init rcvnxt =>
    obtain ⟨q', h1, h2, -⟩ :=
      clear_spec (q := { q with rcv_nxt_ := rcvnxt }) ⟨hq.links, hq.blocks, hq.count⟩
    exact ⟨q', [], h1, h2, by simp [AheadOf]⟩

/-- **The sequence point.**  In a run no `add` moves `rcv_nxt_` backwards if and only if
every range added reaches `rcv_nxt_` or the first block of the queue. -/
theorem pointKept_iff (rcvnxt : ℤ) (ops : List Op) :
    Run.AllSteps exec PointKept (some (new rcvnxt)) ops ↔
      Run.AllSteps exec AddReaches (some (new rcvnxt)) ops :=
  Run.allSteps_congr (I := Ahead) (fun _ o h => pointKept_iff_addReaches h o)
    (fun _ o h ho => h.exec o ho) ops _ ⟨new rcvnxt, [], rfl, holds_new rcvnxt, by simp [AheadOf]⟩

/-- A stale SACK block, taken by the sender's empty queue after a timeout, moves the
point from 100 back to 20. -/
theorem not_pointKept_stale :
    ¬ Run.AllSteps exec PointKept (some (new 0)) [.init 100, .add 10 20 0 0 (by decide)] := by
  intro h
  exact absurd (h.2.1 _ rfl _ rfl) (by decide)

end Ns2.Tcp.ReassemblyQueue
