import Ns2.Lib.Runs
import Ns2.Tcp.ReassemblyFlags
import Ns2.Tcp.ReassemblyStack
import Ns2.Tcp.SendPacket

/-!
# SACK blocks

`ReassemblyQueue::gensack` of `tcp/rq.cc` writes the blocks in the order of the LIFO, so that
the block of the last segment should come first.

* `GoesFirst` — only blocks that the segment touches are above the one that takes it.
* `head_iff` — what it takes for the block of a segment to be on top.
* `gensack_iff` — the blocks written are maximal runs of the data in the queue, and the first one
  has the last segment if and only if the segment goes first.
* `not_gensack_first` — a segment that extends an old block does not.
-/

namespace Ns2.Tcp.ReassemblyQueue

open Linked Intervals Runs

variable {q q' : ReassemblyQueue} {xs ys zs A B : List Ptr} {s e : ℤ} {c x : Ptr} {g flag : TcpFlag}

/-- The nodes of the LIFO. -/
def lifoNodes (q : ReassemblyQueue) : List Ptr := follow q.snext_ q.bound q.top_

/-- The blocks that a segment touches, other than the one that takes it, are all that is above
that one on the LIFO. -/
def GoesFirst (q : ReassemblyQueue) (s e : ℤ) : Prop :=
  ∀ c ∈ q.lifoNodes, q.Carries (q.unswallowed s e q.lifoNodes) s e c →
    ∀ x ∈ q.lifoNodes.takeWhile fun x => decide (x ≠ c), q.Touches s e x

instance (q : ReassemblyQueue) (s e : ℤ) : Decidable (q.GoesFirst s e) :=
  inferInstanceAs (Decidable (∀ c ∈ q.lifoNodes,
    q.Carries (q.unswallowed s e q.lifoNodes) s e c →
      ∀ x ∈ q.lifoNodes.takeWhile fun x => decide (x ≠ c), q.Touches s e x))

/-! ## The LIFO -/

theorem Holds.stacked (h : q.Holds xs) :
    q.lifoNodes.Perm xs ∧ Stacked q.toLinks q.lifoNodes := by
  obtain ⟨fs, hs⟩ := h.links
  obtain ⟨ys, hperm, hys⟩ := hs.lifo
  have hlen : ys.length < q.bound := hperm.length_eq ▸ h.length_lt_bound
  have heq : q.lifoNodes = ys := by
    rw [lifoNodes, hys.head]
    exact follow_eq (A := []) (fun A' x B' hB => hys.next A' x B' hB) hlen
  rw [heq]
  exact ⟨hperm, hys⟩

theorem Holds.lifoNodes_eq (h : q.Holds xs) (hst : Stacked q.toLinks ys) : q.lifoNodes = ys :=
  h.stacked.2.unique hst

/-- `gensack` writes the first blocks of the LIFO. -/
theorem gensackLoop_eq :
    ∀ {fuel : ℕ} {B A : List Ptr} {m : ℤ}, Stacked q.toLinks (A ++ B) → B.length < fuel → 0 ≤ m →
      q.gensackLoop fuel B.head? m
        = (B.take m.toNat).map fun p => (q.startseq_ p, q.endseq_ p) := by
  intro fuel
  induction fuel with
  | zero =>
    intro B A m _ hlen
    exact absurd hlen (Nat.not_lt_zero _)
  | succ fuel ih =>
    intro B A m hst hlen hm
    cases B with
    | nil => simp [gensackLoop]
    | cons p B =>
      rw [List.head?_cons, gensackLoop]
      by_cases hzero : m = 0
      · rw [if_pos hzero, hzero]
        rfl
      · have hnext : q.snext_ p = B.head? := hst.next A p B rfl
        have hst' : Stacked q.toLinks ((A ++ [p]) ++ B) := by simpa using hst
        obtain ⟨k, rfl⟩ : ∃ k : ℕ, m = (k + 1 : ℕ) := ⟨m.toNat - 1, by omega⟩
        rw [if_neg hzero, hnext, ih hst' (by simpa using hlen) (by omega)]
        have hpred : ((k + 1 : ℕ) - 1 : ℤ).toNat = k := by omega
        rw [hpred, Int.toNat_natCast, List.take_succ_cons, List.map_cons]

theorem gensack_eq (h : q.Holds xs) {m : ℤ} (hm : 0 ≤ m) :
    q.gensack m = (q.lifoNodes.take m.toNat).map fun p => (q.startseq_ p, q.endseq_ p) := by
  obtain ⟨hperm, hst⟩ := h.stacked
  rw [gensack, IsDList.head hst]
  exact gensackLoop_eq (A := []) hst (hperm.length_eq ▸ h.length_lt_bound) hm

/-! ## The block on top -/

/-- The block that has a number of the range is the one that has all of it. -/
theorem Meets.eq_of_mem (hm : q.Meets s e c) (h : q.Holds xs) (hc : c ∈ xs) (hx : x ∈ xs)
    (hs : q.startseq_ x ≤ s) (he : e ≤ q.endseq_ x) : x = c := by
  obtain ⟨k, ⟨h1, h2⟩, h3, h4⟩ := hm
  exact h.blocks.eq_of_mem hx hc (n := k) ⟨hs.trans h1, h2.trans_le he⟩ ⟨h3, h4⟩

/-- Only one block takes the range. -/
theorem Carries.unique {c' : Ptr} (h : q.Carries zs s e c) (h' : q.Carries zs s e c')
    (hq : q.Holds xs) (hsub : zs ⊆ xs) : c = c' := by
  have hle := h.first c' h'.mem h'.touches
  have hge := h'.first c h.mem h.touches
  exact hq.blocks.eq_of_lo_eq (hsub h.mem) (hsub h'.mem) (le_antisymm hle hge)

/-- The node that takes the range is on top when all nodes above it have gone. -/
theorem head_filter_iff {P : Ptr → Prop} [DecidablePred P] (hc : c ∈ ys) :
    (ys.filter fun x => decide (x = c ∨ ¬ P x)).head? = some c
      ↔ ∀ x ∈ ys.takeWhile fun x => decide (x ≠ c), P x := by
  induction ys with
  | nil => simp at hc
  | cons y ys ih =>
    by_cases hyc : y = c
    · subst hyc
      simp
    · have hc' : c ∈ ys := (List.mem_cons.mp hc).resolve_left fun h => hyc h.symm
      rw [List.takeWhile_cons, if_pos (decide_eq_true hyc), List.forall_mem_cons, ← ih hc',
        List.filter_cons]
      by_cases hP : P y
      · rw [if_neg (by simpa [hyc] using hP)]
        exact (and_iff_right hP).symm
      · rw [if_pos (by simp [hP]), List.head?_cons, Option.some_inj]
        exact iff_of_false hyc fun hand => hP hand.1

/-- **The block on top.**  After `add`, it has the range if and only if the range goes first. -/
theorem head_iff (h : q.Holds xs) (hse : s < e) (h' : q'.Holds zs)
    (hcover : q'.covered zs = q.covered xs ∪ Set.Ico s e)
    (hre : Restacked q (q.unswallowed s e q.lifoNodes) q.lifoNodes s e q') :
    (∃ x ∈ q'.lifoNodes.head?, q'.startseq_ x ≤ s ∧ e ≤ q'.endseq_ x) ↔ q.GoesFirst s e := by
  obtain ⟨b, hb, hbs, hbe⟩ := h'.blocks.exists_block hse fun n hn hn' => by
    have hmem : n ∈ q'.covered zs := by
      rw [hcover]
      exact Or.inr ⟨hn, hn'⟩
    exact hmem
  have hperm := h'.stacked.1
  have hsub : q.unswallowed s e q.lifoNodes ⊆ xs := fun x hx =>
    h.stacked.1.mem_iff.mp (List.mem_filter.mp hx).1
  cases hre with
  | fresh n alone stack meets =>
    rw [h'.lifoNodes_eq stack] at hperm ⊢
    have hn : n ∈ zs := hperm.mem_iff.mp List.mem_cons_self
    obtain rfl := meets.eq_of_mem h' hn hb hbs hbe
    refine iff_of_true ⟨b, rfl, hbs, hbe⟩ fun c _ hc => ?_
    exact absurd hc.touches (alone c hc.mem)
  | carried c carries stack meets =>
    rw [h'.lifoNodes_eq stack] at hperm ⊢
    have hcys : c ∈ q.lifoNodes := (List.mem_filter.mp carries.mem).1
    have hc : c ∈ zs := hperm.mem_iff.mp (List.mem_filter.mpr ⟨hcys, decide_eq_true (Or.inl rfl)⟩)
    obtain rfl := meets.eq_of_mem h' hc hb hbs hbe
    have htop : (∃ x ∈ (q.lifoNodes.filter fun x => decide (x = b ∨ ¬ q.Touches s e x)).head?,
        q'.startseq_ x ≤ s ∧ e ≤ q'.endseq_ x)
        ↔ (q.lifoNodes.filter fun x => decide (x = b ∨ ¬ q.Touches s e x)).head? = some b := by
      constructor
      · rintro ⟨x, hx, hxs, hxe⟩
        have hmem := hperm.mem_iff.mp (List.mem_of_head? hx)
        rw [meets.eq_of_mem h' hc hmem hxs hxe] at hx
        exact hx
      · exact fun hhead => ⟨b, hhead, hbs, hbe⟩
    rw [htop, head_filter_iff hcys]
    constructor
    · intro hall c _ hcar
      rwa [← carries.unique hcar h hsub]
    · exact fun hgo => hgo b hcys carries

/-! ## The blocks written -/

/-- A block of the queue is a maximal run of what the queue holds. -/
theorem Holds.isRun (h : q.Holds xs) (hx : x ∈ xs) :
    IsRun (q.covered xs) (q.startseq_ x) (q.endseq_ x) where
  lt := h.blocks.pos x hx
  sub _ h1 h2 := ⟨x, hx, h1, h2⟩
  before := h.blocks.lo_sub_one_notMem_cover hx
  after := h.blocks.hi_notMem_cover hx

/-- Different blocks are apart. -/
theorem Holds.pairwise_apart (h : q.Holds xs) (hys : ys ⊆ xs) (hnd : ys.Nodup) :
    (ys.map fun p => (q.startseq_ p, q.endseq_ p)).Pairwise fun a b => a.2 < b.1 ∨ b.2 < a.1 := by
  refine List.pairwise_map.mpr (hnd.imp_of_mem fun {x y} hx hy hne => ?_)
  exact h.blocks.apart (hys hx) (hys hy) hne

/-- A segment that is not the next one expected is added, and that is all. -/
theorem reass_outOfOrder {state_ : TcpState} (hadd : q.add s e g 0 = some (q', flag)) (hse : s < e)
    (hne : s ≠ q.rcv_nxt_) : q.reass state_ s e g = some (q', 0) := by
  rw [reass, if_neg fun hand => absurd hand.1 hse.ne, hadd, Option.bind_some]
  exact if_pos (Or.inr hne)

/-- **SACK blocks.**  In every queue that is reached, when a segment is added out of order:
`gensack` writes maximal runs of the data in the queue, any two of them apart; and the first one
has the segment, if and only if the segment goes first. -/
theorem gensack_iff (rcvnxt : ℤ) (ops : List Op) (hse : s < e) (g : TcpFlag) {maxsblock : ℤ}
    (hm : 1 ≤ maxsblock) :
    ∃ q q' flag, ops.foldl exec (some (new rcvnxt)) = some q ∧
      q.add s e g 0 = some (q', flag) ∧
      (∀ state_, s ≠ q.rcv_nxt_ → q.reass state_ s e g = some (q', 0)) ∧
      ((∃ b ∈ (q'.gensack maxsblock).head?, b.1 ≤ s ∧ e ≤ b.2) ↔ q.GoesFirst s e) ∧
      (∀ b ∈ q'.gensack maxsblock, IsRun (ops.foldl Op.effect ∅ ∪ Set.Ico s e) b.1 b.2) ∧
      (q'.gensack maxsblock).Pairwise fun a b => a.2 < b.1 ∨ b.2 < a.1 := by
  obtain ⟨q, xs, hrun, h, hcov⟩ := exec_spec rcvnxt ops
  obtain ⟨q', flag, xs', hadd, hadded⟩ := add_spec (g := g) (f := 0) h hse
  have h' := hadded.holds
  have hperm := h'.stacked.1
  obtain ⟨hys, hst⟩ := h.stacked
  have hre : Restacked q (q.unswallowed s e q.lifoNodes) q.lifoNodes s e q' :=
    (add_restacked h hys hst hse hadd).congr fun x => (hys.filter _).mem_iff
  have hsub : (q'.lifoNodes.take maxsblock.toNat) ⊆ xs' := fun x hx =>
    hperm.mem_iff.mp (List.mem_of_mem_take hx)
  refine ⟨q, q', flag, hrun, hadd, fun state_ hne => reass_outOfOrder hadd hse hne, ?_⟩
  rw [gensack_eq h' (by omega)]
  refine ⟨?_, ?_, ?_⟩
  · rw [← head_iff h hse h' hadded.cover hre, List.head?_map, List.head?_take,
      if_neg (show ¬ maxsblock.toNat = 0 by omega)]
    simp
  · intro b hb
    obtain ⟨x, hx, rfl⟩ := List.mem_map.mp hb
    rw [← hcov, ← hadded.cover]
    exact h'.isRun (hsub hx)
  · exact h'.pairwise_apart hsub ((List.take_sublist _ _).nodup h'.stacked.2.nodup)

theorem gensack_iff_extend :
    ∃ q q' flag,
      [Op.add 10 20 0 0 (by decide), .add 30 40 0 0 (by decide)].foldl exec (some (new 0)) = some q ∧
      q.add 40 45 0 0 = some (q', flag) ∧
      (∀ state_, 40 ≠ q.rcv_nxt_ → q.reass state_ 40 45 0 = some (q', 0)) ∧
      ((∃ b ∈ (q'.gensack 3).head?, b.1 ≤ 40 ∧ 45 ≤ b.2) ↔ q.GoesFirst 40 45) ∧
      (∀ b ∈ q'.gensack 3, IsRun ([Op.add 10 20 0 0 (by decide), .add 30 40 0 0 (by decide)].foldl
        Op.effect ∅ ∪ Set.Ico 40 45) b.1 b.2) ∧
      (q'.gensack 3).Pairwise fun a b => a.2 < b.1 ∨ b.2 < a.1 :=
  gensack_iff 0 [.add 10 20 0 0 (by decide), .add 30 40 0 0 (by decide)] (by decide) 0 (by decide)

/-- A segment that extends the older of two blocks: the other one is still on top. -/
theorem not_gensack_first :
    ¬ ∀ (rcvnxt : ℤ) (ops : List Op) (s e : ℤ) (g : TcpFlag) (maxsblock : ℤ)
      (q q' : ReassemblyQueue) (flag : TcpFlag), s < e → 1 ≤ maxsblock →
      ops.foldl exec (some (new rcvnxt)) = some q → q.rcv_nxt_ < s →
      q.add s e g 0 = some (q', flag) → q'.empty = false →
      ∃ b ∈ (q'.gensack maxsblock).head?, b.1 ≤ s ∧ e ≤ b.2 := by
  intro hclaim
  have hrun : (([Op.add 10 20 0 0 (by decide), .add 30 40 0 0 (by decide)].foldl exec
      (some (new 0))).bind fun q => (q.add 20 25 0 0).map fun r =>
        (q.rcv_nxt_, r.1.empty, r.1.gensack 3)) = some (0, false, [(30, 40), (10, 25)]) := by
    decide +kernel
  obtain ⟨q, hq, hrun⟩ := Option.bind_eq_some_iff.mp hrun
  obtain ⟨⟨q', flag⟩, hadd, heq⟩ := Option.map_eq_some_iff.mp hrun
  obtain ⟨hnxt, hrest⟩ := Prod.mk.inj heq
  obtain ⟨hempty, hblocks⟩ := Prod.mk.inj hrest
  obtain ⟨b, hb, hle, -⟩ :=
    hclaim 0 _ 20 25 0 3 q q' flag (by decide) (by decide) hq (by omega) hadd hempty
  rw [hblocks] at hb
  cases hb
  exact absurd hle (by decide)

end Ns2.Tcp.ReassemblyQueue
