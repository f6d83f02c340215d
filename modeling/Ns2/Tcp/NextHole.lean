import Ns2.Tcp.SackHole
import Ns2.Tcp.ReassemblyRun

/-!
# `nexthole` is exact

What `nexthole` of `tcp/rq.cc` returns on the queues that can be reached, and the search of
`SackFullTcpAgent::nxt_tseq`, which calls it again and again.

* `NextholeExact` — the hole and the counts are the right ones.
* `nexthole_exact` — **they are, after every run and for every number**, and the search comes
  to an end.
-/

namespace Ns2.Tcp

open Intervals Linked

namespace ReassemblyQueue

variable {q : ReassemblyQueue} {xs : List Ptr} {seq : ℤ}

/-- The blocks that lie after a number. -/
def blocksAbove (q : ReassemblyQueue) (n : ℤ) : List Ptr :=
  q.fifoNodes.filter fun p => decide (n < q.startseq_ p)

/-- Up to the end of the last block, `nexthole` returns the first number that no block covers,
with the number of blocks after it and of their bytes; after all blocks it returns -1. -/
structure NextholeExact (q : ReassemblyQueue) (seq : ℤ) : Prop where
  /-- A hole is found. -/
  found : ∀ t, q.tail_ = some t → seq ≤ q.endseq_ t → ∃ hole,
    IsLeast {n | seq ≤ n ∧ ¬ q.Reported n} hole ∧
      q.nexthole seq = some (hole, if q.blocksAbove hole = [] then (-1, -1) else
        (((q.blocksAbove hole).length : ℤ),
          ((q.blocksAbove hole).map fun p => q.endseq_ p - q.startseq_ p).sum))
  /-- There is none. -/
  none : (∀ p ∈ q.fifoNodes, q.endseq_ p < seq) → q.nexthole seq = some (-1, -1, -1)

theorem Holds.nextholeExact (h : q.Holds xs) (seq : ℤ) : q.NextholeExact seq where
  found := by
    intro t htail hle
    have ht : t ∈ xs := List.mem_of_getLast? (h.fifo.tail.symm.trans htail)
    obtain ⟨r, hr⟩ := Option.isSome_iff_exists.mp
      (hole_isSome_iff.mpr ⟨t, ht, Or.inr hle⟩ : (hole q.startseq_ q.endseq_ seq xs).isSome)
    obtain ⟨n, ys⟩ := r
    have hset : {n | seq ≤ n ∧ ¬ q.Reported n} = {n | seq ≤ n ∧ n ∉ q.covered xs} :=
      Set.ext fun n => and_congr_right' (not_congr h.reported_iff)
    have hys : q.blocksAbove n = ys := by
      rw [blocksAbove, h.fifoNodes_eq]
      exact (hole_filter h.blocks hr).symm
    refine ⟨n, hset ▸ hole_isLeast h.blocks hr, ?_⟩
    rw [nexthole_spec h, hr, hys]
    rfl
  none := by
    intro hafter
    rw [h.fifoNodes_eq] at hafter
    have hnone : hole q.startseq_ q.endseq_ seq xs = none := by
      rw [← Option.not_isSome_iff_eq_none, hole_isSome_iff]
      rintro ⟨x, hx, hor⟩
      have := hafter x hx
      have := h.blocks.pos x hx
      omega
    rw [nexthole_spec h, hnone]
    rfl

/-- **`nexthole` is exact.**  Every run of operations on a new queue returns; then for every
number `nexthole` answers with the first hole and the right counts, and a sender with this queue
and a positive `maxseg_` ends its search, wherever it starts. -/
theorem nexthole_exact (rcvnxt : ℤ) (ops : List Op) (a : FullTcpSender) (hseg : 0 < a.maxseg_) :
    ∃ q, ops.foldl exec (some (new rcvnxt)) = some q ∧ ∀ seq, q.NextholeExact seq ∧
      { a with sq_ := q }.holeToFill.isSome ∧
        ∃ fuel, ({ a with sq_ := q }.holeLoop fuel seq).isSome := by
  obtain ⟨q, xs, hrun, hq, -⟩ := exec_spec rcvnxt ops
  have hends := FullTcpSender.holeLoop_isSome (a := { a with sq_ := q }) hq hseg
  refine ⟨q, hrun, ?_⟩
  intro seq
  exact ⟨hq.nextholeExact seq, hends _ _ (Nat.lt_succ_self _), _,
    hends _ seq (Nat.lt_succ_self _)⟩

/-- Two blocks, and a sender with segments of 536 bytes. -/
theorem nexthole_exact_two :
    ∃ q, [.add 10 20 0 0 (by decide), .add 30 40 0 0 (by decide)].foldl exec (some (new 0)) =
        some q ∧ ∀ seq, q.NextholeExact seq ∧
      { (FullTcpSender.default .sack).start with sq_ := q }.holeToFill.isSome ∧
        ∃ fuel, ({ (FullTcpSender.default .sack).start with sq_ := q }.holeLoop fuel seq).isSome :=
  nexthole_exact 0 _ (FullTcpSender.default .sack).start (by decide)

end ReassemblyQueue

end Ns2.Tcp
