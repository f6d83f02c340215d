import Ns2.Lib.FirstGap
import Ns2.Tcp.ReassemblyRun

/-!
# Reassembly at the receiver

`FullTcpAgent::reass` hands a segment to the reassembly queue, and clears the queue up
to `rcv_nxt_` when the segment was the next one expected.

* `TcpState` — the states of a TCP connection.
* `ReassemblyQueue.reass` — the source function.
* `Exact` — the invariant: `rcv_nxt_` is the first number missing, the queue holds what
  was received from there on.
* `reass_exact` — every run of segments that start at or above `rcv_nxt_` keeps it.
-/

namespace Ns2.Tcp

open Linked Intervals

/-- The states `TCPS_CLOSED`, …, `TCPS_FIN_WAIT_2` of `tcp-full.h`, in their order. -/
inductive TcpState where
  | closed
  | listen
  | synSent
  | synReceived
  | established
  | closeWait
  | finWait1
  | closing
  | lastAck
  | finWait2
  deriving DecidableEq, Repr

namespace TcpState

/-- `TCPS_HAVERCVDSYN`. -/
def haveRcvdSyn (s : TcpState) : Bool := s ≠ closed ∧ s ≠ listen ∧ s ≠ synSent

/-- `TCPS_HAVERCVDFIN`. -/
def haveRcvdFin (s : TcpState) : Bool := s = closing ∨ s = closed ∨ s = closeWait

end TcpState

/-- `TH_FIN`. -/
def thFin : TcpFlag := 0x01

/-- `TH_SYN`. -/
def thSyn : TcpFlag := 0x02

/-- `TH_PUSH`. -/
def thPush : TcpFlag := 0x08

/-- `TH_ACK`. -/
def thAck : TcpFlag := 0x10

namespace TcpState

/-- `outflags`. -/
def outflags : TcpState → TcpFlag
  | closed => thAck
  | listen => 0
  | synSent => thSyn
  | synReceived => thSyn ||| thAck
  | established => thAck
  | closeWait => thAck
  | finWait1 => thFin ||| thAck
  | closing => thFin ||| thAck
  | lastAck => thFin ||| thAck
  | finWait2 => thAck

/-- The test `state_ >= TCPS_FIN_WAIT_1`. -/
def geFinWait1 (s : TcpState) : Bool := s = finWait1 ∨ s = closing ∨ s = lastAck ∨ s = finWait2

end TcpState

namespace ReassemblyQueue

/-- `FullTcpAgent::reass`, for a segment of the bytes from `start` to `stop`.  The result
is the queue, with `rcv_nxt_`, and the flags of what is in order now. -/
def reass (q : ReassemblyQueue) (state_ : TcpState) (start stop : ℤ) (tiflags : TcpFlag) :
    Option (ReassemblyQueue × TcpFlag) :=
  if start = stop ∧ tiflags &&& thFin = 0 then none
  else (q.add start stop tiflags 0).bind fun r =>
    -- `fillshole` compares with `rcv_nxt_` as it was before the call of `add`
    if state_.haveRcvdSyn = false ∨ start ≠ q.rcv_nxt_ then some (r.1, 0)
    else if state_ = .synReceived ∧ stop > start then some (r.1, 0)
    else r.1.cleartonxt.map fun c => (c.1, r.2 ||| c.2)

/-- A segment with data, and the state of the connection it finds. -/
structure Segment where
  /-- Sequence number of the first byte. -/
  start : ℤ
  /-- Sequence number after the last byte. -/
  stop : ℤ
  /-- Flags of the TCP header. -/
  tiflags : TcpFlag
  /-- State of the connection. -/
  state_ : TcpState
  /-- There is data. -/
  nonempty : start < stop
  /-- The state is one in which data that is in order is taken off the queue at once. -/
  presents : state_.haveRcvdSyn = true ∧ state_ ≠ .synReceived

/-- The arrival of a segment that is not handled by the fast path. -/
def recvSegment (q? : Option ReassemblyQueue) (g : Segment) : Option ReassemblyQueue :=
  q?.bind fun q => (q.reass g.state_ g.start g.stop g.tiflags).map Prod.fst

/-- The segment starts at or above `rcv_nxt_`: what was received before is trimmed. -/
def Trimmed (q? : Option ReassemblyQueue) (g : Segment) : Prop := ∀ q ∈ q?, q.rcv_nxt_ ≤ g.start

instance (q? : Option ReassemblyQueue) (g : Segment) : Decidable (Trimmed q? g) :=
  match q? with
  | none => isTrue (by simp [Trimmed])
  | some q => decidable_of_iff (q.rcv_nxt_ ≤ g.start) (by simp [Trimmed])

/-- The bytes of some segments. -/
def received (segs : List Segment) : Set ℤ := {n | ∃ g ∈ segs, g.start ≤ n ∧ n < g.stop}

theorem received_concat (segs : List Segment) (g : Segment) :
    received (segs ++ [g]) = received segs ∪ Set.Ico g.start g.stop := by
  ext n
  simp [received, or_and_right, exists_or]

/-- The receiver has got the bytes `R`: `rcv_nxt_` is the first number from `base` on
that is missing, and the queue holds the bytes from there on. -/
structure Exact (base : ℤ) (R : Set ℤ) (q : ReassemblyQueue) (xs : List Ptr) : Prop where
  /-- The queue is in order. -/
  holds : q.Holds xs
  /-- `rcv_nxt_` is the first number missing. -/
  point : IsFirstGap base R q.rcv_nxt_
  /-- The queue holds the rest. -/
  cover : q.covered xs = R ∩ Set.Ici q.rcv_nxt_

variable {q q' : ReassemblyQueue} {xs xs' : List Ptr} {base s e : ℤ} {R : Set ℤ} {x : Ptr}

/-- All blocks start after `rcv_nxt_`. -/
theorem Exact.lt_startseq (h : Exact base R q xs) (hx : x ∈ xs) : q.rcv_nxt_ < q.startseq_ x := by
  have hmem : q.startseq_ x ∈ q.covered xs := ⟨x, hx, le_rfl, h.holds.blocks.pos x hx⟩
  rw [h.cover] at hmem
  refine lt_of_le_of_ne hmem.2 fun heq => h.point.notMem ?_
  rw [heq]
  exact hmem.1

/-- A segment after a hole leaves `rcv_nxt_` alone. -/
theorem Exact.add_above (h : Exact base R q xs) (ha : Added q xs s e q' xs') (hs : q.rcv_nxt_ < s) :
    Exact base (R ∪ Set.Ico s e) q' xs' := by
  have hcover : q'.covered xs' = (R ∪ Set.Ico s e) ∩ Set.Ici q.rcv_nxt_ := by
    have hge : Set.Ico s e ⊆ Set.Ici q.rcv_nxt_ := fun n hn => hs.le.trans hn.1
    rw [ha.cover, h.cover, Set.union_inter_distrib_right, Set.inter_eq_left.mpr hge]
  have hgap : IsFirstGap base (R ∪ Set.Ico s e) q.rcv_nxt_ :=
    h.point.union_of_notMem fun hn => not_le.mpr hs hn.1
  have hnxt : q'.rcv_nxt_ = q.rcv_nxt_ := by
    rcases ha.point with ⟨hp, -⟩ | ⟨b, hb, -, hp⟩
    · exact hp
    · -- the block it looked at starts after the hole
      rw [hp, if_neg]
      intro hle
      have hmem : q'.startseq_ b ∈ q'.covered xs' := ⟨b, hb, le_rfl, ha.holds.blocks.pos b hb⟩
      rw [hcover] at hmem
      rw [le_antisymm hle hmem.2] at hmem
      exact hgap.notMem hmem.1
  refine ⟨ha.holds, ?_, ?_⟩
  · rwa [hnxt]
  · rwa [hnxt]

/-- The segment expected moves `rcv_nxt_` to the end of the block it has become part of;
the block is still on the queue. -/
theorem Exact.add_next (h : Exact base R q xs) (ha : Added q xs s e q' xs') (hse : s < e)
    (hs : q.rcv_nxt_ = s) : IsFirstGap base (R ∪ Set.Ico s e) q'.rcv_nxt_ ∧
      q'.covered xs' = (R ∪ Set.Ico s e) ∩ Set.Ici s ∧ s ≤ q'.rcv_nxt_ := by
  have hcover : q'.covered xs' = (R ∪ Set.Ico s e) ∩ Set.Ici s := by
    have hge : Set.Ico s e ⊆ Set.Ici s := fun n hn => hn.1
    rw [ha.cover, h.cover, hs, Set.union_inter_distrib_right, Set.inter_eq_left.mpr hge]
  rcases ha.point with ⟨-, hsub⟩ | ⟨b, hb, hbc, hp⟩
  · obtain ⟨x, hx, h1, -⟩ := hsub ⟨le_rfl, hse⟩
    have := h.lt_startseq hx
    omega
  · have hle : q'.startseq_ b ≤ s := by
      rcases hbc with ⟨h1, -⟩ | hhead
      · exact h1
      · obtain ⟨c, hc, h1, -⟩ := ha.exists_block hse
        obtain ⟨ys, rfl⟩ := List.head?_eq_some_iff.mp hhead
        exact (ha.holds.blocks.lo_head_le hc).trans h1
    have hpos := ha.holds.blocks.pos b hb
    have hmem : ∀ n, q'.startseq_ b ≤ n → n < q'.endseq_ b → n ∈ (R ∪ Set.Ico s e) ∩ Set.Ici s :=
      fun n h1 h2 => by
        rw [← hcover]
        exact ⟨b, hb, h1, h2⟩
    have hsb : s ≤ q'.startseq_ b := (hmem _ le_rfl hpos).2
    rw [PointAt, hs, if_pos hle] at hp
    rw [hp]
    refine ⟨⟨?_, ?_, ?_⟩, hcover, by omega⟩
    · have := h.point.base_le
      omega
    · intro hn
      have hend := ha.holds.blocks.hi_notMem_cover hb
      refine hend ?_
      show q'.endseq_ b ∈ q'.covered xs'
      rw [hcover]
      exact ⟨hn, by rw [Set.mem_Ici]; omega⟩
    · intro n hn hlt
      rcases lt_or_ge n s with h1 | h1
      · exact Or.inl (h.point.mem_of_lt n hn (by omega))
      · exact (hmem n (by omega) hlt).1

/-- **One segment.**  It is received, and the receiver stays exact. -/
theorem Exact.reass {g : Segment} (h : Exact base R q xs) (hs : q.rcv_nxt_ ≤ g.start) :
    ∃ q' flags xs', q.reass g.state_ g.start g.stop g.tiflags = some (q', flags) ∧
      Exact base (R ∪ Set.Ico g.start g.stop) q' xs' := by
  obtain ⟨q₁, flag, xs₁, hadd, ha⟩ := add_spec (g := g.tiflags) (f := 0) h.holds g.nonempty
  have hne : ¬ (g.start = g.stop ∧ g.tiflags &&& thFin = 0) := fun heq => g.nonempty.ne heq.1
  rw [ReassemblyQueue.reass, if_neg hne, hadd, Option.bind_some]
  rcases hs.eq_or_lt with heq | hlt
  · rw [if_neg (by simp [g.presents.1, heq]), if_neg (fun hs => g.presents.2 hs.1)]
    obtain ⟨hgap, hcover, hle⟩ := h.add_next ha.toAdded g.nonempty heq
    obtain ⟨q₂, flag₂, xs₂, h1, h2, h3, h4, -⟩ := clearto_spec q₁.rcv_nxt_ ha.holds
    refine ⟨q₂, flag ||| flag₂, xs₂, by rw [cleartonxt, h1]; rfl, h2, ?_, ?_⟩
    · rwa [h4]
    · rw [h3, hcover, h4, Set.inter_assoc, Set.inter_eq_right.mpr (Set.Ici_subset_Ici.mpr hle)]
  · rw [if_pos (Or.inr hlt.ne')]
    exact ⟨q₁, 0, xs₁, rfl, h.add_above ha.toAdded hlt⟩

theorem exact_new (rcvnxt : ℤ) : Exact rcvnxt ∅ (new rcvnxt) [] :=
  ⟨holds_new rcvnxt, IsFirstGap.empty rcvnxt, by simp [covered]⟩

/-- **Reassembly is exact.**  Whatever non-empty segments arrive, as long as each starts
at or above `rcv_nxt_` at the time: `rcv_nxt_` is the smallest number from the initial
one on that no segment has covered, and the queue holds the received bytes from there
on, as sorted, disjoint and non-adjacent blocks. -/
theorem reass_exact (rcvnxt : ℤ) (segs : List Segment)
    (h : Run.AllSteps recvSegment Trimmed (some (new rcvnxt)) segs) :
    ∃ q xs, segs.foldl recvSegment (some (new rcvnxt)) = some q ∧
      Exact rcvnxt (received segs) q xs := by
  refine Run.foldl_invariant
    (I := fun gs q? => ∃ q xs, q? = some q ∧ Exact rcvnxt (received gs) q xs)
    ?_ segs [] (some (new rcvnxt)) ⟨new rcvnxt, [], rfl, ?_⟩ h
  · rintro gs _ g ⟨q, xs, rfl, hq⟩ hg
    obtain ⟨q', flags, xs', h1, h2⟩ := hq.reass (hg q rfl)
    refine ⟨q', xs', ?_, ?_⟩
    · rw [recvSegment, Option.bind_some, h1]
      rfl
    · rwa [received_concat]
  · simpa [received] using exact_new rcvnxt

/-- Three segments, the second filling the hole before the first. -/
theorem reass_exact_hole :
    ∃ q xs, [⟨3, 5, 0, .established, by decide, by decide⟩,
        ⟨1, 3, 0, .established, by decide, by decide⟩,
        ⟨7, 8, 0, .established, by decide, by decide⟩].foldl recvSegment (some (new 1)) = some q ∧
      Exact 1 (received [⟨3, 5, 0, .established, by decide, by decide⟩,
        ⟨1, 3, 0, .established, by decide, by decide⟩,
        ⟨7, 8, 0, .established, by decide, by decide⟩]) q xs :=
  reass_exact 1 _ (by decide)

end ReassemblyQueue

end Ns2.Tcp
