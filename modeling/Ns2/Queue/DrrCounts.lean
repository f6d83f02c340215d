import Ns2.Queue.DrrRing

/-!
# The counters of deficit round robin

* `Counts c s` — the counters of the buckets and of the whole queue are those of
  the packets in the buckets.
* `Active s` — the active buckets are the buckets with packets, once each.
* `Good.arrive`, `Good.take`, `ActiveBut.leaveIfEmpty`, `ActiveBut.retire` — what the
  parts of `enque` and `deque` do to these.
-/

namespace Ns2.Queue.DRR

open Function (update)
open Linked

variable {c : Config} {s s' : DRR} {l : List ℕ} {b n : ℕ} {p pkt : Pkt} {rest ps qs : List Pkt}

/-! ## Bytes and sums -/

/-- The bytes of some packets. -/
def bytes (ps : List Pkt) : ℤ := (ps.map Pkt.size).sum

@[simp] theorem bytes_nil : bytes [] = 0 := rfl

@[simp] theorem bytes_cons : bytes (p :: ps) = p.size + bytes ps := by simp [bytes]

@[simp] theorem bytes_append : bytes (ps ++ qs) = bytes ps + bytes qs := by simp [bytes]

theorem bytes_nonneg (h : ∀ p ∈ ps, 1 ≤ p.size) : 0 ≤ bytes ps := by
  induction ps with
  | nil => exact le_rfl
  | cons q ps ih =>
    rw [bytes_cons]
    have h1 := h q List.mem_cons_self
    have h2 := ih fun p hp => h p (List.mem_cons_of_mem q hp)
    omega

theorem bytes_pos (h : ∀ p ∈ ps, 1 ≤ p.size) (hne : ps ≠ []) : 0 < bytes ps := by
  obtain ⟨q, t, rfl⟩ := List.exists_cons_of_ne_nil hne
  have h1 := h q List.mem_cons_self
  have h2 := bytes_nonneg fun p hp => h p (List.mem_cons_of_mem q hp)
  rw [bytes_cons]
  omega

/-- The sum over the buckets when one of them changes. -/
theorem sum_update (hb : b < n) (f : ℕ → ℤ) (v : ℤ) :
    ∑ x ∈ Finset.range n, update f b v x = ∑ x ∈ Finset.range n, f x + (v - f b) := by
  have hmem : b ∈ Finset.range n := Finset.mem_range.mpr hb
  rw [Finset.sum_update_of_mem hmem, ← Finset.add_sum_erase _ f hmem, Finset.sdiff_singleton_eq_erase]
  ring

/-! ## Counters -/

/-- The counters are those of the packets. -/
structure Counts (c : Config) (s : DRR) : Prop where
  pkts : ∀ b, s.pkts b = (s.queue b).length
  bcount : ∀ b, s.bcount b = bytes (s.queue b)
  bytecnt : s.bytecnt = ∑ b ∈ Finset.range c.buckets_, s.bcount b
  pktcnt : s.pktcnt = ∑ b ∈ Finset.range c.buckets_, s.pkts b
  home : ∀ b, ∀ p ∈ s.queue b, c.bucket p = some b
  size : ∀ b, ∀ p ∈ s.queue b, 1 ≤ p.size

/-- Packets go to buckets that exist. -/
theorem bucket_lt (h : c.bucket pkt = some b) : b < c.buckets_ := by
  unfold Config.bucket at h
  simp only at h
  split_ifs at h with hw
  obtain rfl := Option.some.inj h
  omega

theorem Counts.lt_of_mem (h : Counts c s) (hp : p ∈ s.queue b) : b < c.buckets_ :=
  bucket_lt (h.home b p hp)

/-- The packets and their counters are the same. -/
structure SameCounts (s s' : DRR) : Prop where
  queue : s'.queue = s.queue
  pkts : s'.pkts = s.pkts
  bcount : s'.bcount = s.bcount
  bytecnt : s'.bytecnt = s.bytecnt
  pktcnt : s'.pktcnt = s.pktcnt

theorem SameButRing.sameCounts (h : SameButRing s s') : SameCounts s s' := by
  unfold SameButRing at h
  rw [h]
  exact ⟨rfl, rfl, rfl, rfl, rfl⟩

theorem Counts.congr (h : Counts c s) (hs : SameCounts s s') : Counts c s' := by
  obtain ⟨h1, h2, h3, h4, h5, h6⟩ := h
  obtain ⟨hq, hp, hb, hB, hP⟩ := hs
  refine ⟨?_, ?_, ?_, ?_, ?_, ?_⟩
  · rwa [hp, hq]
  · rwa [hb, hq]
  · rwa [hB, hb]
  · rwa [hP, hp]
  · rwa [hq]
  · rwa [hq]

/-- A packet arrives. -/
theorem Counts.arrive (h : Counts c s) (hb : c.bucket pkt = some b) (hsize : 1 ≤ pkt.size) :
    Counts c (s.arrive c b pkt) := by
  have hlt := bucket_lt hb
  refine ⟨fun x => ?_, fun x => ?_, ?_, ?_, fun x p hp => ?_, fun x p hp => ?_⟩
  · by_cases hx : x = b
    · subst hx
      simp [DRR.arrive, h.pkts]
    · simp [DRR.arrive, hx, h.pkts]
  · by_cases hx : x = b
    · subst hx
      simp [DRR.arrive, h.bcount]
    · simp [DRR.arrive, hx, h.bcount]
  · simp only [DRR.arrive]
    rw [sum_update hlt, h.bytecnt]
    ring
  · simp only [DRR.arrive]
    rw [sum_update hlt, h.pktcnt]
    ring
  · by_cases hx : x = b
    · subst hx
      simp only [DRR.arrive, Function.update_self, List.mem_append, List.mem_singleton] at hp
      rcases hp with hp | rfl
      · exact h.home x p hp
      · exact hb
    · simp only [DRR.arrive, Function.update_of_ne hx] at hp
      exact h.home x p hp
  · by_cases hx : x = b
    · subst hx
      simp only [DRR.arrive, Function.update_self, List.mem_append, List.mem_singleton] at hp
      rcases hp with hp | rfl
      · exact h.size x p hp
      · exact hsize
    · simp only [DRR.arrive, Function.update_of_ne hx] at hp
      exact h.size x p hp

/-- The state after the first packet of a bucket is taken. -/
def taken (s : DRR) (b : ℕ) (p : Pkt) (rest : List Pkt) : DRR :=
  { s with
    queue := update s.queue b rest
    bcount := update s.bcount b (s.bcount b - p.size)
    bytecnt := s.bytecnt - p.size
    pkts := update s.pkts b (s.pkts b - 1)
    pktcnt := s.pktcnt - 1 }

theorem take_cons (h : s.queue b = p :: rest) : s.take b = some (s.taken b p rest, p) := by
  unfold DRR.take
  rw [h]
  rfl

/-- A packet is taken. -/
theorem Counts.take (h : Counts c s) (hq : s.queue b = p :: rest) :
    Counts c (s.taken b p rest) := by
  have hmem : p ∈ s.queue b := hq ▸ List.mem_cons_self
  have hlt := h.lt_of_mem hmem
  have hsub : ∀ x, ∀ r ∈ (s.taken b p rest).queue x, r ∈ s.queue x := by
    intro x r hr
    by_cases hx : x = b
    · subst hx
      simp only [taken, Function.update_self] at hr
      rw [hq]
      exact List.mem_cons_of_mem p hr
    · simpa [taken, hx] using hr
  refine ⟨fun x => ?_, fun x => ?_, ?_, ?_, fun x r hr => h.home x r (hsub x r hr),
    fun x r hr => h.size x r (hsub x r hr)⟩
  · by_cases hx : x = b
    · subst hx
      simp [taken, h.pkts, hq]
    · simp [taken, hx, h.pkts]
  · by_cases hx : x = b
    · subst hx
      simp [taken, h.bcount, hq]
    · simp [taken, hx, h.bcount]
  · simp only [taken]
    rw [sum_update hlt, h.bytecnt]
    ring
  · simp only [taken]
    rw [sum_update hlt, h.pktcnt]
    ring

/-- The bytes counted are the bytes queued. -/
theorem Counts.bytecnt_eq (h : Counts c s) :
    s.bytecnt = ∑ b ∈ Finset.range c.buckets_, bytes (s.queue b) :=
  h.bytecnt.trans (Finset.sum_congr rfl fun b _ => h.bcount b)

theorem Counts.pktcnt_eq (h : Counts c s) :
    s.pktcnt = ∑ b ∈ Finset.range c.buckets_, ((s.queue b).length : ℤ) :=
  h.pktcnt.trans (Finset.sum_congr rfl fun b _ => h.pkts b)

/-- With packets in some bucket there are bytes. -/
theorem Counts.bytecnt_pos (h : Counts c s) (hq : s.queue b ≠ []) : 0 < s.bytecnt := by
  obtain ⟨p, rest, hcons⟩ := List.exists_cons_of_ne_nil hq
  have hlt := h.lt_of_mem (hcons ▸ List.mem_cons_self : p ∈ s.queue b)
  rw [h.bytecnt_eq]
  exact Finset.sum_pos' (fun x _ => bytes_nonneg (h.size x))
    ⟨b, Finset.mem_range.mpr hlt, bytes_pos (h.size b) hq⟩

/-- With bytes there are packets in some bucket. -/
theorem Counts.exists_queue (h : Counts c s) (hpos : s.bytecnt ≠ 0) : ∃ b, s.queue b ≠ [] := by
  by_contra hall
  push Not at hall
  apply hpos
  rw [h.bytecnt_eq]
  exact Finset.sum_eq_zero fun b _ => by rw [hall b, bytes_nil]

theorem Counts.pktcnt_pos (h : Counts c s) (hq : s.queue b ≠ []) : 1 ≤ s.pktcnt := by
  obtain ⟨p, rest, hcons⟩ := List.exists_cons_of_ne_nil hq
  have hlt := h.lt_of_mem (hcons ▸ List.mem_cons_self : p ∈ s.queue b)
  rw [h.pktcnt_eq]
  have hpos : (0 : ℤ) < ∑ b ∈ Finset.range c.buckets_, ((s.queue b).length : ℤ) := by
    refine Finset.sum_pos' (fun x _ => Int.natCast_nonneg _) ⟨b, Finset.mem_range.mpr hlt, ?_⟩
    rw [hcons]
    simp
  omega

/-! ## Active buckets -/

/-- The active buckets are the buckets with packets. -/
def Active (s : DRR) : Prop :=
  ∃ l, Ring s l ∧ (∀ b, b ∈ l ↔ s.queue b ≠ []) ∧ s.flwcnt = l.length

/-- The same, but for the bucket `b`, which is on the list in any case. -/
def ActiveBut (s : DRR) (b : ℕ) : Prop :=
  ∃ l, Ring s l ∧ b ∈ l ∧ (∀ x, x ≠ b → (x ∈ l ↔ s.queue x ≠ [])) ∧ s.flwcnt = l.length

/-- A bucket of the list keeps its place if it has packets. -/
theorem ActiveBut.active (h : ActiveBut s b) (hq : s.queue b ≠ []) : Active s := by
  obtain ⟨l, hring, hmem, hothers, hf⟩ := h
  refine ⟨l, hring, fun x => ?_, hf⟩
  by_cases hx : x = b
  · subst hx
    exact iff_of_true hmem hq
  · exact hothers x hx

/-- A bucket without packets leaves the list. -/
theorem Ring.idle_empty (hring : Ring s l) (hmem : b ∈ l)
    (hothers : ∀ x, x ≠ b → (x ∈ l ↔ s.queue x ≠ [])) (hq : s.queue b = []) :
    ∃ s' l', s.idle b = some s' ∧ SameButRing s s' ∧ Ring s' l' ∧
      (∀ x, x ∈ l' ↔ s'.queue x ≠ []) ∧ l.length = l'.length + 1 := by
  obtain ⟨A, B, rfl⟩ := List.append_of_mem hmem
  obtain ⟨s', hs', hring', hsame⟩ := hring.idle
  refine ⟨s', A ++ B, hs', hsame, hring', fun x => ?_, ?_⟩
  · have hqx : s'.queue = s.queue := hsame.sameCounts.queue
    have hnd := hring.cycle.nodup
    have hbAB : b ∉ A ++ B :=
      (List.nodup_cons.mp ((List.perm_middle.nodup_iff).mp hnd)).1
    rw [hqx]
    by_cases hx : x = b
    · subst hx
      exact iff_of_false hbAB (not_not.mpr hq)
    · rw [← hothers x hx]
      simp [hx]
  · simp only [List.length_append, List.length_cons]
    omega

/-- The counters are right and the buckets with packets are active. -/
structure Good (c : Config) (s : DRR) : Prop where
  counts : Counts c s
  active : Active s

/-- A packet arrives. -/
theorem Good.arrive (h : Good c s) (hb : c.bucket pkt = some b) (hsize : 1 ≤ pkt.size) :
    ∃ s', (s.arrive c b pkt).joinIfFirst b = some s' ∧ Good c s' ∧
      s'.queue = update s.queue b (s.queue b ++ [pkt]) := by
  have hcounts := h.counts.arrive hb hsize
  obtain ⟨l, hring, hmem, hf⟩ := h.active
  have hpk : (s.arrive c b pkt).pkts b = s.pkts b + 1 := Function.update_self _ _ _
  have hring' : Ring (s.arrive c b pkt) l := hring.congr rfl rfl rfl
  unfold DRR.joinIfFirst
  by_cases hq : s.queue b = []
  · have hnot : b ∉ l := fun hbl => (hmem b).mp hbl hq
    obtain ⟨s', hs', hring'', hsame⟩ := hring'.activate hnot
    have hone : (s.arrive c b pkt).pkts b = 1 := by
      rw [hpk, h.counts.pkts, hq]
      rfl
    have hcs := hsame.sameCounts
    rw [if_pos hone, hs']
    refine ⟨_, rfl, ⟨hcounts.congr ⟨hcs.queue, hcs.pkts, hcs.bcount, hcs.bytecnt, hcs.pktcnt⟩,
      l ++ [b], hring''.congr rfl rfl rfl, fun x => ?_, ?_⟩, hcs.queue⟩
    · have hqx : s'.queue x = update s.queue b (s.queue b ++ [pkt]) x := congrFun hcs.queue x
      simp only [hqx]
      by_cases hx : x = b
      · subst hx
        simp
      · simp [hx, hmem x]
    · have hflw : s'.flwcnt = s.flwcnt := by
        unfold SameButRing at hsame
        rw [hsame]
        rfl
      simp [hflw, hf]
  · have hne : (s.arrive c b pkt).pkts b ≠ 1 := by
      rw [hpk, h.counts.pkts]
      have := List.length_pos_iff.mpr hq
      omega
    rw [if_neg hne]
    refine ⟨_, rfl, ⟨hcounts, l, hring', fun x => ?_, hf⟩, rfl⟩
    by_cases hx : x = b
    · subst hx
      simp [DRR.arrive, hmem x, hq]
    · simp [DRR.arrive, hx, hmem x]

/-- A packet is taken. -/
theorem Good.take (h : Good c s) (hq : s.queue b = p :: rest) :
    Counts c (s.taken b p rest) ∧ ActiveBut (s.taken b p rest) b := by
  obtain ⟨l, hring, hmem, hf⟩ := h.active
  refine ⟨h.counts.take hq, l, hring.congr rfl rfl rfl, ?_, fun x hx => ?_, hf⟩
  · rw [hmem, hq]
    exact List.cons_ne_nil p rest
  · rw [hmem]
    simp [taken, hx]

theorem Counts.pkts_eq_zero (h : Counts c s) : s.pkts b = 0 ↔ s.queue b = [] := by
  rw [h.pkts]
  exact Int.natCast_eq_zero.trans List.length_eq_zero_iff

/-- After a drop. -/
theorem ActiveBut.leaveIfEmpty (h : ActiveBut s b) (hc : Counts c s) :
    ∃ s', s.leaveIfEmpty b = some s' ∧ Good c s' ∧ SameCounts s s' := by
  unfold DRR.leaveIfEmpty
  by_cases hq : s.queue b = []
  · obtain ⟨l, hring, hmem, hothers, hf⟩ := h
    obtain ⟨s', l', hs', hsame, hring', hmem', hlen⟩ := hring.idle_empty hmem hothers hq
    have hcs := hsame.sameCounts
    have hflw : s'.flwcnt = s.flwcnt := by
      unfold SameButRing at hsame
      rw [hsame]
    have hcs' : SameCounts s { s' with flwcnt := s'.flwcnt - 1 } :=
      ⟨hcs.queue, hcs.pkts, hcs.bcount, hcs.bytecnt, hcs.pktcnt⟩
    rw [if_pos (hc.pkts_eq_zero.mpr hq), hs']
    refine ⟨_, rfl, ⟨hc.congr hcs', l', hring'.congr rfl rfl rfl, hmem', ?_⟩, hcs'⟩
    show s'.flwcnt - 1 = l'.length
    omega
  · rw [if_neg (mt hc.pkts_eq_zero.mp hq)]
    exact ⟨s, rfl, ⟨hc, h.active hq⟩, ⟨rfl, rfl, rfl, rfl, rfl⟩⟩

/-- After a packet is sent. -/
theorem ActiveBut.retire (h : ActiveBut s b) (hc : Counts c s) :
    ∃ s', s.retire b = some s' ∧ Good c s' ∧ SameCounts s s' := by
  unfold DRR.retire
  by_cases hq : s.queue b = []
  · obtain ⟨l, hring, hmem, hothers, hf⟩ := h
    obtain ⟨s', l', hs', hsame, hring', hmem', hlen⟩ := Ring.idle_empty
      (s := { s with
        turn := update s.turn b false
        flwcnt := s.flwcnt - 1
        deficitCounter := update s.deficitCounter b 0 }) (hring.congr rfl rfl rfl) hmem hothers hq
    have hcs := hsame.sameCounts
    have hflw : s'.flwcnt = s.flwcnt - 1 := by
      unfold SameButRing at hsame
      rw [hsame]
    have hcs' : SameCounts s s' :=
      ⟨hcs.queue, hcs.pkts, hcs.bcount, hcs.bytecnt, hcs.pktcnt⟩
    rw [if_pos (hc.pkts_eq_zero.mpr hq), hs']
    refine ⟨s', rfl, ⟨hc.congr hcs', l', hring', hmem', ?_⟩, hcs'⟩
    omega
  · rw [if_neg (mt hc.pkts_eq_zero.mp hq)]
    exact ⟨s, rfl, ⟨hc, h.active hq⟩, ⟨rfl, rfl, rfl, rfl, rfl⟩⟩

end Ns2.Queue.DRR
