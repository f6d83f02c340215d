import Ns2.Queue.DrrCounts

/-!
# Runs of deficit round robin

* `Leave c s s' ps` — the packets `ps` have left, each from the front of its bucket.
* `Good.dropLoop`, `Good.enque` — `enque` keeps the counters right, and it returns.
* `Good.visit`, `Good.dequeLoop` — so does `deque`; each round without a packet
  brings some bucket closer to its turn (`wait`).
* `World`, `Step` — the queue with what has arrived and what has left.
* `drr_exact` — the accounting in every state of every run; `enque` and `deque`
  always return, and `deque` returns a packet if there is one.
-/

namespace Ns2.Queue.DRR

open Function (update)
open Linked

variable {c : Config} {s s' s'' : DRR} {b n : ℕ} {p pkt : Pkt} {rest ps qs : List Pkt}

/-! ## What leaves -/

/-- The packets of a bucket. -/
def ofBucket (c : Config) (b : ℕ) (ps : List Pkt) : List Pkt :=
  ps.filter fun p => c.bucket p = some b

theorem ofBucket_append : ofBucket c b (ps ++ qs) = ofBucket c b ps ++ ofBucket c b qs :=
  List.filter_append _ _

/-- The packets `ps` have left, each from the front of its bucket. -/
structure Leave (c : Config) (s s' : DRR) (ps : List Pkt) : Prop where
  front : ∀ b, ofBucket c b ps ++ s'.queue b = s.queue b
  home : ∀ p ∈ ps, ∃ b, c.bucket p = some b

theorem Leave.refl (h : s'.queue = s.queue) : Leave c s s' [] := by
  refine ⟨fun b => ?_, fun p hp => absurd hp List.not_mem_nil⟩
  rw [h]
  rfl

theorem Leave.trans (h : Leave c s s' ps) (h' : Leave c s' s'' qs) : Leave c s s'' (ps ++ qs) := by
  refine ⟨fun b => ?_, fun p hp => ?_⟩
  · rw [ofBucket_append, List.append_assoc, h'.front b, h.front b]
  · exact (List.mem_append.mp hp).elim (h.home p) (h'.home p)

/-- The first packet of a bucket has left. -/
theorem Leave.take (hc : Counts c s) (hq : s.queue b = p :: rest)
    (hs : SameCounts (s.taken b p rest) s') : Leave c s s' [p] := by
  have hhome := hc.home b p (hq ▸ List.mem_cons_self)
  refine ⟨fun x => ?_, fun r hr => ⟨b, List.mem_singleton.mp hr ▸ hhome⟩⟩
  rw [hs.queue]
  by_cases hx : x = b
  · subst hx
    simp [ofBucket, hhome, taken, hq]
  · have hne : c.bucket p ≠ some x := fun h => hx (Option.some.inj (h.symm.trans hhome))
    simp [ofBucket, hne, taken, hx]

/-! ## `enque` -/

/-- A packet is dropped. -/
theorem Good.dropOne (h : Good c s) (hpos : 0 < s.bytecnt) :
    ∃ s' p, s.dropOne = some (s', p) ∧ Good c s' ∧ Leave c s s' [p] ∧ s'.pktcnt = s.pktcnt - 1 := by
  obtain ⟨l, hring, hmem, hf⟩ := h.active
  obtain ⟨x, hx⟩ := h.counts.exists_queue hpos.ne'
  obtain ⟨a, t, rfl⟩ := List.exists_cons_of_ne_nil (List.ne_nil_of_mem ((hmem x).mpr hx))
  obtain ⟨m, hm, hml, -⟩ := hring.getMaxflow hf
  obtain ⟨p, rest, hq⟩ := List.exists_cons_of_ne_nil ((hmem m).mp hml)
  obtain ⟨hc, hact⟩ := h.take hq
  obtain ⟨s', hs', hgood, hsame⟩ := hact.leaveIfEmpty hc
  have hcurr : s.curr = some a := hring.curr
  refine ⟨s', p, ?_, hgood, Leave.take h.counts hq hsame, ?_⟩
  · unfold DRR.dropOne
    simp only [hcurr, hm, take_cons hq, hs', Option.bind_eq_bind, Option.bind_some]
  · rw [hsame.pktcnt]
    rfl

/-- The loop of `enque`. -/
theorem Good.dropLoop (h : Good c s) (hlimit : 0 ≤ c.blimit_) :
    (∀ s' ps, dropLoop c n s = some (s', ps) →
      Good c s' ∧ Leave c s s' ps ∧ s'.bytecnt ≤ c.blimit_) ∧
    (s.pktcnt ≤ n → ∃ r, dropLoop c n s = some r) := by
  induction n generalizing s with
  | zero =>
    unfold DRR.dropLoop
    split_ifs with hB
    · refine ⟨fun s' ps hr => hr.elim, fun hp => ?_⟩
      obtain ⟨b, hq⟩ := h.counts.exists_queue (by omega)
      have := h.counts.pktcnt_pos hq
      omega
    · refine ⟨?_, fun _ => ⟨_, rfl⟩⟩
      rintro s' ps ⟨⟩
      exact ⟨h, Leave.refl rfl, not_lt.mp hB⟩
  | succ n ih =>
    unfold DRR.dropLoop
    split_ifs with hB
    · obtain ⟨s₁, p, hd, hgood, hleave, hpk⟩ := h.dropOne (by omega)
      simp only [hd, Option.bind_eq_bind, Option.bind_some]
      obtain ⟨hall, hex⟩ := ih hgood
      constructor
      · intro s' ps hr
        obtain ⟨⟨s₂, qs⟩, hloop, heq⟩ := Option.bind_eq_some_iff.mp hr
        cases heq
        obtain ⟨h1, h2, h3⟩ := hall _ _ hloop
        exact ⟨h1, hleave.trans h2, h3⟩
      · intro hp
        obtain ⟨r, hr⟩ := hex (by omega)
        exact ⟨_, by rw [hr]; rfl⟩
    · refine ⟨?_, fun _ => ⟨_, rfl⟩⟩
      rintro s' ps ⟨⟩
      exact ⟨h, Leave.refl rfl, not_lt.mp hB⟩

/-- **`enque`**: with enough rounds it returns; the packet is at the end of its bucket and the
packets dropped have left from the front of theirs. -/
theorem Good.enque (h : Good c s) (hlimit : 0 ≤ c.blimit_) (hb : c.bucket pkt = some b)
    (hsize : 1 ≤ pkt.size) :
    (∀ s' ps, enque c n s pkt = some (s', ps) → Good c s' ∧ s'.bytecnt ≤ c.blimit_ ∧
      (∀ x, ofBucket c x ps ++ s'.queue x = s.queue x ++ ofBucket c x [pkt]) ∧
      ∀ p ∈ ps, ∃ b, c.bucket p = some b) ∧
    (s.pktcnt + 1 ≤ n → ∃ r, enque c n s pkt = some r) := by
  obtain ⟨s₁, hs₁, hgood, hq⟩ := h.arrive hb hsize
  have hpk : s₁.pktcnt = s.pktcnt + 1 := by
    rw [hgood.counts.pktcnt_eq, h.counts.pktcnt_eq, hq]
    have hlt := bucket_lt hb
    have hfun : ∀ x, ((update s.queue b (s.queue b ++ [pkt]) x).length : ℤ) =
        update (fun x => ((s.queue x).length : ℤ)) b ((s.queue b).length + 1) x := by
      intro x
      by_cases hx : x = b
      · subst hx
        simp
      · simp [hx]
    simp only [hfun]
    rw [sum_update hlt]
    ring
  obtain ⟨hall, hex⟩ := hgood.dropLoop (n := n) hlimit
  unfold DRR.enque
  simp only [hb, Option.bind_eq_bind, Option.bind_some, hs₁]
  refine ⟨fun s' ps hr => ?_, fun hn => hex (hpk ▸ hn)⟩
  obtain ⟨h1, h2, h3⟩ := hall s' ps hr
  refine ⟨h1, h3, fun x => ?_, h2.home⟩
  rw [h2.front x, hq]
  by_cases hx : x = b
  · subst hx
    simp [ofBucket, hb]
  · simp [ofBucket, hb, hx, Ne.symm hx]

/-! ## `deque` -/

/-- What keeps the first packet of a bucket waiting. -/
def need (s : DRR) (b : ℕ) : ℕ :=
  match (s.queue b).head? with
  | none => 0
  | some p => 2 * (p.size - s.deficitCounter b).toNat + if s.turn b then 1 else 0

/-- What keeps the first packets of all buckets waiting. -/
def wait (c : Config) (s : DRR) : ℕ := ∑ b ∈ Finset.range c.buckets_, s.need b

/-- The wait gets shorter if one packet waits for less, and the others wait as before. -/
theorem wait_lt (hb : b < c.buckets_) (hsame : ∀ x, x ≠ b → s'.need x = s.need x)
    (hless : s'.need b < s.need b) : s'.wait c < s.wait c := by
  refine Finset.sum_lt_sum (fun x _ => ?_) ⟨b, Finset.mem_range.mpr hb, hless⟩
  by_cases hx : x = b
  · subst hx
    exact hless.le
  · exact (hsame x hx).le

/-- The fields that the quantum does not touch. -/
theorem grant_spec (s : DRR) (c : Config) (b : ℕ) :
    (s.grant c b).queue = s.queue ∧ SameCounts s (s.grant c b) ∧
      (s.grant c b).curr = s.curr ∧ (s.grant c b).next = s.next ∧ (s.grant c b).prev = s.prev ∧
      (s.grant c b).flwcnt = s.flwcnt ∧
      (∀ x, x ≠ b → (s.grant c b).deficitCounter x = s.deficitCounter x ∧
        (s.grant c b).turn x = s.turn x) ∧
      (s.grant c b).deficitCounter b =
        if s.turn b then s.deficitCounter b else s.deficitCounter b + c.quantum_ := by
  unfold DRR.grant
  split_ifs with ht
  · exact ⟨rfl, ⟨rfl, rfl, rfl, rfl, rfl⟩, rfl, rfl, rfl, rfl, fun x _ => ⟨rfl, rfl⟩, rfl⟩
  · refine ⟨rfl, ⟨rfl, rfl, rfl, rfl, rfl⟩, rfl, rfl, rfl, rfl, fun x hx => ⟨?_, ?_⟩, ?_⟩
    · exact Function.update_of_ne hx _ _
    · exact Function.update_of_ne hx _ _
    · exact Function.update_self _ _ _

/-- **One round of `deque`**: a packet leaves, or the wait gets shorter. -/
theorem Good.visit (h : Good c s) (hquantum : 0 < c.quantum_) (hpos : s.bytecnt ≠ 0) :
    ∃ s' r, s.visit c = some (s', r) ∧ Good c s' ∧ Leave c s s' r.toList ∧
      s'.bytecnt ≤ s.bytecnt ∧ (r = none → s'.bytecnt = s.bytecnt ∧ s'.wait c < s.wait c) := by
  obtain ⟨l, hring, hmem, hf⟩ := h.active
  obtain ⟨x, hx⟩ := h.counts.exists_queue hpos
  obtain ⟨a, t, rfl⟩ := List.exists_cons_of_ne_nil (List.ne_nil_of_mem ((hmem x).mpr hx))
  have hcurr : s.curr = some a := hring.curr
  obtain ⟨p, rest, hq⟩ := List.exists_cons_of_ne_nil ((hmem a).mp List.mem_cons_self)
  have hsize := h.counts.size a p (hq ▸ List.mem_cons_self)
  have hlt := h.counts.lt_of_mem (hq ▸ List.mem_cons_self : p ∈ s.queue a)
  obtain ⟨hgq, hgs, hgc, hgn, hgp, hgf, hgo, hgd⟩ := grant_spec s c a
  unfold DRR.visit
  simp only [hcurr, Option.bind_eq_bind, Option.bind_some]
  have hhead : ((s.grant c a).queue a).head? = some p := by
    rw [hgq, hq]
    rfl
  rw [hhead]
  simp only [Option.bind_some]
  by_cases hfit : (s.grant c a).deficitCounter a ≥ p.size
  · rw [if_pos hfit]
    -- the packet is sent
    have hgood : Good c { s.grant c a with
        deficitCounter := update (s.grant c a).deficitCounter a
          ((s.grant c a).deficitCounter a - p.size) } := by
      refine ⟨h.counts.congr ⟨hgs.queue, hgs.pkts, hgs.bcount, hgs.bytecnt, hgs.pktcnt⟩,
        a :: t, hring.congr hgc hgn hgp, fun x => ?_, hgf.trans hf⟩
      rw [hmem x]
      simp only [hgq]
    have hqueue : ({ s.grant c a with
        deficitCounter := update (s.grant c a).deficitCounter a
          ((s.grant c a).deficitCounter a - p.size) }).queue a = p :: rest := by
      simp only [hgq, hq]
    obtain ⟨hc, hact⟩ := hgood.take hqueue
    obtain ⟨s', hs', hgood', hsame⟩ := hact.retire hc
    rw [take_cons hqueue]
    simp only [Option.bind_some, hs']
    refine ⟨s', some p, rfl, hgood', ?_, ?_, fun hr => absurd hr (Option.some_ne_none p)⟩
    · have hl := Leave.take hgood.counts hqueue hsame
      refine ⟨fun x => ?_, hl.home⟩
      have hx := hl.front x
      simp only [hgq] at hx
      exact hx
    · rw [hsame.bytecnt]
      show (s.grant c a).bytecnt - p.size ≤ s.bytecnt
      rw [hgs.bytecnt]
      omega
  · rw [if_neg hfit]
    -- it is the turn of the next bucket
    refine ⟨_, none, rfl, ⟨h.counts.congr ⟨hgs.queue, hgs.pkts, hgs.bcount, hgs.bytecnt,
      hgs.pktcnt⟩, t ++ [a], hring.advance ?_ hgn hgp, fun x => ?_, ?_⟩, Leave.refl hgs.queue,
      hgs.bytecnt.le, fun _ => ⟨hgs.bytecnt, ?_⟩⟩
    · simp only [hgn]
    · simp only [hgq]
      rw [← hmem x]
      simp [or_comm]
    · simp only [hgf, hf, List.length_append, List.length_cons, List.length_nil]
    · refine wait_lt hlt (fun x hxa => ?_) ?_
      · obtain ⟨h1, h2⟩ := hgo x hxa
        simp only [need, hgq, h1, Function.update_of_ne hxa, h2]
      · simp only [need, hgq, hq, List.head?_cons, Function.update_self, Bool.false_eq_true,
          if_false, hgd] at hfit ⊢
        split_ifs at hfit ⊢ <;> omega

/-- The loop of `deque`. -/
theorem Good.dequeLoop (h : Good c s) (hquantum : 0 < c.quantum_) (hpos : s.bytecnt ≠ 0) :
    (∀ s' p, dequeLoop c n s = some (s', p) →
      Good c s' ∧ Leave c s s' [p] ∧ s'.bytecnt ≤ s.bytecnt) ∧
    (s.wait c < n → ∃ r, dequeLoop c n s = some r) := by
  induction n generalizing s with
  | zero =>
    exact ⟨fun s' p hr => absurd hr (Option.some_ne_none _).symm,
      fun hn => absurd hn (Nat.not_lt_zero _)⟩
  | succ n ih =>
    obtain ⟨s₁, r, hv, hgood, hleave, hle, hnone⟩ := h.visit hquantum hpos
    unfold DRR.dequeLoop
    rw [hv]
    cases r with
    | some p =>
      simp only
      refine ⟨?_, fun _ => ⟨_, rfl⟩⟩
      rintro s' q ⟨⟩
      exact ⟨hgood, hleave, hle⟩
    | none =>
      simp only
      obtain ⟨hB, hw⟩ := hnone rfl
      obtain ⟨hall, hex⟩ := ih hgood (hB ▸ hpos)
      refine ⟨fun s' p hr => ?_, fun hn => hex (by omega)⟩
      obtain ⟨h1, h2, h3⟩ := hall s' p hr
      exact ⟨h1, hleave.trans h2, h3.trans hle⟩

/-- **`deque`**: with enough rounds it returns; a packet leaves if there is one. -/
theorem Good.deque (h : Good c s) (hquantum : 0 < c.quantum_) :
    (∀ s' r, deque c n s = some (s', r) →
      Good c s' ∧ Leave c s s' r.toList ∧ s'.bytecnt ≤ s.bytecnt ∧
        (r = none → ∀ b, s.queue b = [])) ∧
    (s.wait c < n → ∃ r, deque c n s = some r) := by
  unfold DRR.deque
  split_ifs with hB
  · refine ⟨?_, fun _ => ⟨_, rfl⟩⟩
    rintro s' r ⟨⟩
    refine ⟨h, Leave.refl rfl, le_rfl, fun _ b => ?_⟩
    by_contra hq
    exact (h.counts.bytecnt_pos hq).ne' hB
  · obtain ⟨hall, hex⟩ := h.dequeLoop (n := n) hquantum hB
    constructor
    · intro s' r hr
      obtain ⟨⟨s₁, p⟩, hloop, heq⟩ := Option.map_eq_some_iff.mp hr
      cases heq
      obtain ⟨h1, h2, h3⟩ := hall _ _ hloop
      exact ⟨h1, h2, h3, fun hnone => absurd hnone (Option.some_ne_none p)⟩
    · intro hn
      obtain ⟨r, hr⟩ := hex hn
      exact ⟨_, by rw [hr]; rfl⟩

/-! ## Runs -/

/-- How a packet leaves the queue. -/
inductive Departure
  | delivered (p : Pkt)
  | dropped (p : Pkt)

/-- The packet that leaves. -/
def Departure.packet : Departure → Pkt
  | .delivered p => p
  | .dropped p => p

/-- The queue, what has arrived, and what has left, both in order. -/
structure World where
  drr : DRR
  arrived : List Pkt
  left : List Departure

/-- A packet that may arrive: its flow is mapped to a bucket, and it has a size. -/
def Valid (c : Config) (pkt : Pkt) : Prop := (∃ b, c.bucket pkt = some b) ∧ 1 ≤ pkt.size

/-- One call of `enque` or `deque`. -/
inductive Step (c : Config) : World → World → Prop
  | enque {w : World} {n : ℕ} {pkt : Pkt} {s' : DRR} {ps : List Pkt} (hv : Valid c pkt)
      (h : enque c n w.drr pkt = some (s', ps)) :
      Step c w ⟨s', w.arrived ++ [pkt], w.left ++ ps.map .dropped⟩
  | deque {w : World} {n : ℕ} {s' : DRR} {r : Option Pkt} (h : deque c n w.drr = some (s', r)) :
      Step c w ⟨s', w.arrived, w.left ++ r.toList.map .delivered⟩

/-- The states of all runs. -/
def Reachable (c : Config) (w : World) : Prop :=
  Relation.ReflTransGen (Step c) ⟨init, [], []⟩ w

/-- For each bucket: what has left, and then what is queued, is what has arrived. -/
def InOrder (c : Config) (w : World) : Prop :=
  ∀ b, ofBucket c b (w.left.map Departure.packet) ++ w.drr.queue b = ofBucket c b w.arrived

/-- The invariant of runs. -/
structure Inv (c : Config) (w : World) : Prop where
  good : Good c w.drr
  limit : w.drr.bytecnt ≤ c.blimit_
  inOrder : InOrder c w
  valid : ∀ p ∈ w.arrived, Valid c p
  home : ∀ p ∈ w.left.map Departure.packet, ∃ b, c.bucket p = some b

variable {w w' : World}

theorem inv_init (hlimit : 0 ≤ c.blimit_) : Inv c ⟨init, [], []⟩ := by
  have hcounts : Counts c init := by
    refine ⟨fun _ => rfl, fun _ => rfl, ?_, ?_, fun _ p hp => ?_, fun _ p hp => ?_⟩
    · simp [init]
    · simp [init]
    · exact absurd hp List.not_mem_nil
    · exact absurd hp List.not_mem_nil
  have hactive : Active init := by
    refine ⟨[], ⟨rfl, List.nodup_nil, trivial⟩, fun b => ?_, rfl⟩
    simp [init]
  exact ⟨⟨hcounts, hactive⟩, hlimit, fun _ => rfl, fun p hp => absurd hp List.not_mem_nil,
    fun p hp => absurd hp List.not_mem_nil⟩

theorem map_packet_dropped (ps : List Pkt) :
    (ps.map Departure.dropped).map Departure.packet = ps := by
  rw [List.map_map]
  exact List.map_id _

theorem map_packet_delivered (ps : List Pkt) :
    (ps.map Departure.delivered).map Departure.packet = ps := by
  rw [List.map_map]
  exact List.map_id _

/-- One call keeps the invariant. -/
theorem Inv.step (h : Inv c w) (hlimit : 0 ≤ c.blimit_) (hquantum : 0 < c.quantum_)
    (hstep : Step c w w') : Inv c w' := by
  cases hstep with
  | @enque n pkt s' ps hv henq =>
    obtain ⟨b, hb⟩ := hv.1
    obtain ⟨hgood, hle, hleave, hhome⟩ := (h.good.enque (n := n) hlimit hb hv.2).1 s' ps henq
    refine ⟨hgood, hle, fun x => ?_, fun p hp => ?_, fun p hp => ?_⟩
    · simp only [List.map_append, map_packet_dropped, ofBucket_append]
      rw [List.append_assoc, hleave x, ← List.append_assoc, h.inOrder x]
    · rcases List.mem_append.mp hp with hp | hp
      · exact h.valid p hp
      · exact List.mem_singleton.mp hp ▸ hv
    · rw [List.map_append, map_packet_dropped] at hp
      exact (List.mem_append.mp hp).elim (h.home p) (hhome p)
  | @deque n s' r hdeq =>
    obtain ⟨hgood, hleave, hle, -⟩ := (h.good.deque (n := n) hquantum).1 s' r hdeq
    refine ⟨hgood, hle.trans h.limit, fun x => ?_, h.valid, fun p hp => ?_⟩
    · simp only [List.map_append, map_packet_delivered, ofBucket_append]
      rw [List.append_assoc, hleave.front x, h.inOrder x]
    · rw [List.map_append, map_packet_delivered] at hp
      exact (List.mem_append.mp hp).elim (h.home p) (hleave.home p)

/-- All runs keep the invariant. -/
theorem Reachable.inv (h : Reachable c w) (hlimit : 0 ≤ c.blimit_) (hquantum : 0 < c.quantum_) :
    Inv c w := by
  induction h with
  | refl => exact inv_init hlimit
  | tail _ hstep ih => exact ih.step hlimit hquantum hstep

/-! ## Accounting -/

/-- All packets queued, bucket by bucket. -/
def queued (c : Config) (s : DRR) : List Pkt := (List.range c.buckets_).flatMap s.queue

/-- The accounting of deficit round robin. -/
structure Exact (c : Config) (w : World) : Prop where
  /-- The counters of each bucket are those of its packets. -/
  bcount : ∀ b, w.drr.bcount b = bytes (w.drr.queue b) ∧ w.drr.pkts b = (w.drr.queue b).length
  /-- `bytecnt` is the sum of the buckets' `bcount`. -/
  bytecnt : w.drr.bytecnt = ∑ b ∈ Finset.range c.buckets_, w.drr.bcount b
  /-- `bytecnt` is the number of bytes queued. -/
  bytes : w.drr.bytecnt = bytes (queued c w.drr)
  limit : w.drr.bytecnt ≤ c.blimit_
  pktcnt : w.drr.pktcnt = (queued c w.drr).length
  flwcnt : w.drr.flwcnt = ((Finset.range c.buckets_).filter fun b => w.drr.queue b ≠ []).card
  /-- The active buckets are the buckets with packets, once each. -/
  active : ∃ l, Ring w.drr l ∧ l.Nodup ∧ ∀ b, b ∈ l ↔ w.drr.queue b ≠ []
  /-- Every packet is queued, or it has left once. -/
  conserved : w.arrived.Perm (w.left.map Departure.packet ++ queued c w.drr)
  inOrder : InOrder c w

/-- Sums over the packets queued. -/
theorem sum_queued (f : Pkt → ℤ) :
    ((queued c s).map f).sum = ∑ b ∈ Finset.range c.buckets_, ((s.queue b).map f).sum := by
  unfold queued
  generalize c.buckets_ = m
  induction m with
  | zero => rfl
  | succ m ih =>
    rw [List.range_succ, List.flatMap_append, List.map_append, List.sum_append, ih,
      Finset.sum_range_succ]
    simp

theorem bytes_queued : bytes (queued c s) = ∑ b ∈ Finset.range c.buckets_, bytes (s.queue b) :=
  sum_queued Pkt.size

theorem length_queued : ((queued c s).length : ℤ) =
    ∑ b ∈ Finset.range c.buckets_, ((s.queue b).length : ℤ) := by
  have hlen : ∀ l : List Pkt, (l.length : ℤ) = (l.map fun _ => (1 : ℤ)).sum := by
    intro l
    simp
  simp only [hlen]
  exact sum_queued fun _ => 1

/-- A packet is queued in its own bucket only. -/
theorem count_queued (h : Counts c s) (hb : c.bucket p = some b) :
    (queued c s).count p = (s.queue b).count p := by
  unfold queued
  have hother : ∀ x, x ≠ b → (s.queue x).count p = 0 := fun x hx =>
    List.count_eq_zero.mpr fun hp => hx (Option.some.inj ((h.home x p hp).symm.trans hb))
  have hall : ∀ m, ((List.range m).flatMap s.queue).count p =
      if b < m then (s.queue b).count p else 0 := by
    intro m
    induction m with
    | zero => rfl
    | succ m ih =>
      rw [List.range_succ, List.flatMap_append, List.count_append, ih]
      simp only [List.flatMap_cons, List.flatMap_nil, List.append_nil]
      by_cases hbm : m = b
      · subst hbm
        simp
      · rw [hother m hbm]
        have : b < m + 1 ↔ b < m := by omega
        simp [this]
  rw [hall, if_pos (bucket_lt hb)]

theorem count_ofBucket (hb : c.bucket p = some b) (ps : List Pkt) :
    (ofBucket c b ps).count p = ps.count p := by
  unfold ofBucket
  exact List.count_filter (by simp [hb])

/-- **The accounting is exact.** -/
theorem Inv.exact (h : Inv c w) : Exact c w := by
  obtain ⟨l, hring, hmem, hf⟩ := h.good.active
  have hcounts := h.good.counts
  refine ⟨fun b => ⟨hcounts.bcount b, hcounts.pkts b⟩, hcounts.bytecnt, ?_, h.limit, ?_, ?_,
    ⟨l, hring, hring.cycle.nodup, hmem⟩, ?_, h.inOrder⟩
  · rw [bytes_queued]
    exact hcounts.bytecnt_eq
  · rw [length_queued]
    exact hcounts.pktcnt_eq
  · rw [hf, ← List.toFinset_card_of_nodup hring.cycle.nodup]
    congr 2
    ext b
    rw [List.mem_toFinset, Finset.mem_filter, Finset.mem_range, hmem b]
    constructor
    · intro hq
      obtain ⟨p, rest, hcons⟩ := List.exists_cons_of_ne_nil hq
      exact ⟨hcounts.lt_of_mem (hcons ▸ List.mem_cons_self : p ∈ w.drr.queue b), hq⟩
    · exact fun hb => hb.2
  · rw [List.perm_iff_count]
    intro p
    rw [List.count_append]
    by_cases hb : ∃ b, c.bucket p = some b
    · obtain ⟨b, hb⟩ := hb
      have hord := congrArg (List.count p) (h.inOrder b)
      rw [List.count_append, count_ofBucket hb, count_ofBucket hb] at hord
      rw [count_queued hcounts hb, hord]
    · have harr : w.arrived.count p = 0 :=
        List.count_eq_zero.mpr fun hp => hb (h.valid p hp).1
      have hleft : (w.left.map Departure.packet).count p = 0 :=
        List.count_eq_zero.mpr fun hp => hb (h.home p hp)
      have hqueue : (queued c w.drr).count p = 0 := by
        refine List.count_eq_zero.mpr fun hp => hb ?_
        obtain ⟨b, -, hp⟩ := List.mem_flatMap.mp hp
        exact ⟨b, hcounts.home b p hp⟩
      rw [harr, hleft, hqueue]

/-- **Deficit round robin.**  In every state of every run the accounting is exact; `enque` returns
for every packet that may arrive, and `deque` returns a packet if one is queued, given enough
rounds. -/
theorem drr_exact (c : Config) (hlimit : 0 ≤ c.blimit_) (hquantum : 0 < c.quantum_) (w : World)
    (hw : Reachable c w) :
    Exact c w ∧
    (∀ pkt, Valid c pkt → ∃ m, ∀ n, m ≤ n → ∃ s' ps, enque c n w.drr pkt = some (s', ps)) ∧
    (queued c w.drr ≠ [] → ∃ m, ∀ n, m ≤ n → ∃ s' p, deque c n w.drr = some (s', some p)) := by
  have hinv := hw.inv hlimit hquantum
  refine ⟨hinv.exact, fun pkt hv => ?_, fun hq => ?_⟩
  · obtain ⟨b, hb⟩ := hv.1
    refine ⟨(w.drr.pktcnt + 1).toNat, fun n hn => ?_⟩
    obtain ⟨r, hr⟩ := (hinv.good.enque (n := n) hlimit hb hv.2).2 (by omega)
    exact ⟨r.1, r.2, hr⟩
  · refine ⟨w.drr.wait c + 1, fun n hn => ?_⟩
    obtain ⟨hall, hex⟩ := hinv.good.deque (n := n) hquantum
    obtain ⟨⟨s', r⟩, hr⟩ := hex hn
    cases r with
    | some p => exact ⟨s', p, hr⟩
    | none =>
      have hempty := (hall s' none hr).2.2.2 rfl
      exact absurd (List.flatMap_eq_nil_iff.mpr fun b _ => hempty b) hq

/-- The defaults of the simulator. -/
def defaults : Config := ⟨10, 25000, 250, false⟩

theorem drr_exact_one : ∃ s, enque defaults 0 init ⟨1, 3, 1000⟩ = some (s, []) ∧
    Exact defaults ⟨s, [⟨1, 3, 1000⟩], []⟩ := by
  have hb : defaults.bucket ⟨1, 3, 1000⟩ = some 3 := by decide
  refine ⟨_, rfl, ?_⟩
  exact (drr_exact defaults (by decide) (by decide) _
    (.single (Step.enque (n := 0) ⟨⟨3, hb⟩, by decide⟩ rfl))).1

end Ns2.Queue.DRR
