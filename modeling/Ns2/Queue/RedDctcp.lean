import Ns2.Queue.Red

/-!
# Marking for data center TCP

With a queue weight of 1 and both thresholds at `K`, random early detection marks by
the queue length at the arrival, except for the first packet above the threshold.

* `Dctcp c K` — the configuration.
* `thresholds`, `estimator_ave`, `calculate_p_one`, `modify_p_one` — the average is
  the queue length, and above the threshold the probability is 1.
* `Arrival`, `World`, `Step` — arrivals, departures and drops of a run.
* `enque_spec` — what one arrival does.
* `dctcp_marking` — which packets are marked and which are dropped, in every run.
* `not_exact_marking` — the first packet above the threshold is not marked.
-/

namespace Ns2.Queue.RED

variable {c : Config} {K : ℚ} {s : REDQueue} {v : Edv} {q : List Packet} {pkt : Packet}

/-- The configuration of a switch for data center TCP. -/
structure Dctcp (c : Config) (K : ℚ) : Prop where
  q_w : c.edp.q_w = 1
  th_min : c.edp.th_min_pkts = K
  th_max : c.edp.th_max_pkts = K
  one_le : 1 ≤ K
  gentle : c.edp.gentle = false
  setbit : c.edp.setbit = true
  use_mark_p : c.edp.use_mark_p = true
  mark_p : 1 ≤ c.edp.mark_p
  mean : 0 < c.edp.mean_pktsize
  ptc : 0 ≤ c.edp.ptc

/-- What is known of `pow`: powers of 0 with exponents that are not negative are 0 or 1. -/
def PowZero (pow : ℚ → ℚ → ℚ) : Prop := ∀ y, 0 ≤ y → 0 ≤ pow 0 y ∧ pow 0 y ≤ 1

/-- A packet that may arrive; where the queue is measured in bytes, all have the mean size. -/
def Valid (c : Config) (pkt : Packet) : Prop :=
  0 ≤ pkt.size ∧ (c.qib_ = true → pkt.size = c.edp.mean_pktsize)

/-! ## The threshold -/

/-- Bytes of packets of the mean size. -/
theorem byteLength_eq (hqib : c.qib_ = true) (hq : ∀ p ∈ q, Valid c p) :
    byteLength q = q.length * c.edp.mean_pktsize := by
  induction q with
  | nil => simp [byteLength]
  | cons p q ih =>
    have h1 := (hq p List.mem_cons_self).2 hqib
    have h2 := ih fun p hp => hq p (List.mem_cons_of_mem _ hp)
    unfold byteLength at h2 ⊢
    rw [List.map_cons, List.sum_cons, h1, h2, List.length_cons]
    push_cast
    ring

theorem qsize_nonneg (hq : ∀ p ∈ q, Valid c p) (hmean : 0 < c.edp.mean_pktsize) :
    0 ≤ qsize c q := by
  unfold qsize
  split_ifs with hqib
  · rw [byteLength_eq hqib hq]
    exact mul_nonneg (Int.natCast_nonneg _) hmean.le
  · exact Int.natCast_nonneg _

/-- What `reset` makes of the parameters. -/
theorem scale_eq (h : Dctcp c K) : (scale c).th_max = (scale c).th_min ∧
    (scale c).th_min = (if c.qib_ then K * c.edp.mean_pktsize else K) ∧
    (scale c).q_w = 1 ∧ (scale c).gentle = false ∧ (scale c).setbit = true ∧
    (scale c).use_mark_p = true ∧ (scale c).mark_p = c.edp.mark_p ∧
    (scale c).bytes = c.edp.bytes ∧ (scale c).wait = c.edp.wait ∧
    (scale c).mean_pktsize = c.edp.mean_pktsize ∧ (scale c).ptc = c.edp.ptc := by
  have hK : c.edp.th_max_pkts ≠ 0 := by
    have h1 := h.th_max
    have h2 := h.one_le
    rw [h1]
    intro h0
    linarith
  unfold scale
  simp only [if_neg hK]
  split_ifs with hqib
  · exact ⟨by rw [h.th_max, h.th_min], by rw [h.th_min], h.q_w, h.gentle, h.setbit, h.use_mark_p,
      rfl, rfl, rfl, rfl, rfl⟩
  · exact ⟨by rw [h.th_max, h.th_min], h.th_min, h.q_w, h.gentle, h.setbit, h.use_mark_p,
      rfl, rfl, rfl, rfl, rfl⟩

/-- The queue is as large as the threshold when it has `K` packets. -/
theorem threshold_iff (h : Dctcp c K) (hq : ∀ p ∈ q, Valid c p) :
    (scale c).th_min ≤ (qsize c q : ℚ) ↔ K ≤ q.length := by
  rw [(scale_eq h).2.1]
  unfold qsize
  split_ifs with hqib
  · have hpos : (0 : ℚ) < c.edp.mean_pktsize := by exact_mod_cast h.mean
    rw [byteLength_eq hqib hq]
    push_cast
    exact mul_le_mul_iff_left₀ hpos
  · push_cast
    exact Iff.rfl

/-- With weight 1 the average is the queue size. -/
theorem estimator_ave {e : Edp} (hq_w : e.q_w = 1) (nqueued m : ℤ) (now : ℚ) :
    (estimator e v nqueued m now).v_ave = nqueued := by
  unfold estimator
  simp only [hq_w, sub_self, mul_zero, one_mul, zero_add]

/-- The estimator leaves the counts alone. -/
theorem estimator_counts (e : Edp) (v : Edv) (nqueued m : ℤ) (now : ℚ) :
    (estimator e v nqueued m now).count = v.count ∧
      (estimator e v nqueued m now).count_bytes = v.count_bytes ∧
      (estimator e v nqueued m now).old = v.old := by
  have hfeng : ∀ a, (updateMaxPFeng e v a).count = v.count ∧
      (updateMaxPFeng e v a).count_bytes = v.count_bytes ∧ (updateMaxPFeng e v a).old = v.old := by
    intro a
    unfold updateMaxPFeng
    simp only
    split_ifs <;> exact ⟨rfl, rfl, rfl⟩
  have hmax : ∀ a, (updateMaxP e v a now).count = v.count ∧
      (updateMaxP e v a now).count_bytes = v.count_bytes ∧ (updateMaxP e v a now).old = v.old := by
    intro a
    unfold updateMaxP
    simp only
    split_ifs <;> exact ⟨rfl, rfl, rfl⟩
  unfold estimator
  simp only
  split_ifs
  · exact hfeng _
  · exact hmax _
  · exact ⟨rfl, rfl, rfl⟩
  · exact ⟨rfl, rfl, rfl⟩

/-- Above the threshold the probability is 1. -/
theorem calculate_p_one {v_ave th_max v_a v_b v_c v_d max_p : ℚ} (h : th_max ≤ v_ave) :
    calculate_p_new v_ave th_max false v_a v_b v_c v_d max_p = 1 := by
  simp [calculate_p_new, h]

/-- It stays 1, unless bytes are counted, drops wait, and there are not enough bytes. -/
theorem modify_p_one {count count_bytes mean size : ℤ} {bytes wait : Bool} (hcount : 1 ≤ count)
    (hbytes : 0 ≤ count_bytes) (hmean : 0 < mean)
    (h : bytes = true → wait = true → mean ≤ count_bytes) :
    modify_p 1 count count_bytes bytes mean wait size = 1 := by
  unfold modify_p
  simp only
  have hcast : (if bytes = true then ((count_bytes.tdiv mean : ℤ) : ℚ) else (count : ℚ)) =
      ((if bytes = true then count_bytes.tdiv mean else count : ℤ) : ℚ) := by
    split_ifs <;> rfl
  rw [hcast]
  have hn0 : 0 ≤ (if bytes = true then count_bytes.tdiv mean else count) := by
    split_ifs
    · exact Int.tdiv_nonneg hbytes hmean.le
    · omega
  have hn1 : wait = true → 1 ≤ (if bytes = true then count_bytes.tdiv mean else count) := by
    intro hwait
    split_ifs with hb
    · rw [Int.tdiv_eq_ediv_of_nonneg hbytes]
      exact (Int.le_ediv_iff_mul_le hmean).mpr (by rw [one_mul]; exact h hb hwait)
    · exact hcount
  generalize (if bytes = true then count_bytes.tdiv mean else count) = n at hn0 hn1
  rcases (by omega : n = 0 ∨ n = 1 ∨ 2 ≤ n) with rfl | rfl | h2
  · have hwait : wait = false := by
      by_contra hwait
      have := hn1 (Bool.eq_true_of_not_eq_false hwait)
      omega
    simp [hwait]
  · cases wait <;> norm_num
  · have h2' : (2 : ℚ) ≤ n := by exact_mod_cast h2
    have h1 : ¬ (n : ℚ) * 1 < 1 := by linarith
    have h3 : ¬ (n : ℚ) * 1 < 2 := by linarith
    cases wait <;> simp only [h1, h3, if_false] <;> norm_num

/-! ## Runs -/

/-- An arrival. -/
structure Arrival where
  /-- The packet that arrives. -/
  pkt : Packet
  /-- The packet after `enque`. -/
  out : Packet
  /-- Packets in the queue. -/
  len : ℕ
  /-- The queue size that `enque` sees. -/
  size : ℤ
  /-- The bytes counted since the last mark or drop, with the packet. -/
  count_bytes : ℤ

/-- The queue has reached the threshold, and is more than 1 in its unit. -/
def Arrival.Above (K : ℚ) (e : Arrival) : Prop := K ≤ e.len ∧ 1 < e.size

/-- Where bytes are counted and drops wait, a mean packet has been counted. -/
def Arrival.Counted (c : Config) (e : Arrival) : Prop :=
  c.edp.bytes = true → c.edp.wait = true → c.edp.mean_pktsize ≤ e.count_bytes

/-- A drop, and the arrival that caused it. -/
structure Drop where
  victim : Packet
  cause : Arrival

structure World where
  red : REDQueue
  arrivals : List Arrival
  departures : List Packet
  drops : List Drop

/-- The arrival of a packet in a state. -/
def arrival (c : Config) (s : REDQueue) (pkt out : Packet) : Arrival :=
  ⟨pkt, out, s.q.length, qsize c s.q, s.edv.count_bytes + pkt.size⟩

/-- One arrival or departure. -/
inductive Step (c : Config) : World → World → Prop
  | enque {w : World} {pkt out : Packet} {u : ℚ} {r : ℕ} {now : ℚ} {s' : REDQueue}
      {d : Option Packet} (hv : Valid c pkt) (hu : 0 ≤ u ∧ u < 1)
      (h : enque c w.red pkt u r now = some (s', out, d)) :
      Step c w ⟨s', w.arrivals ++ [arrival c w.red pkt out], w.departures,
        w.drops ++ d.toList.map fun p => ⟨p, arrival c w.red pkt out⟩⟩
  | deque {w : World} {now : ℚ} :
      Step c w ⟨(deque w.red now).1, w.arrivals,
        w.departures ++ (deque w.red now).2.toList, w.drops⟩

/-- The states of all runs. -/
def Reachable (c : Config) (w : World) : Prop :=
  ∃ now, Relation.ReflTransGen (Step c) ⟨reset c now, [], [], []⟩ w

/-! ## One arrival -/

/-- What holds of the queue between operations. -/
structure Ok (c : Config) (s : REDQueue) : Prop where
  edp : s.edp = scale c
  valid : ∀ p ∈ s.q, Valid c p
  count : 0 ≤ s.edv.count
  count_bytes : 0 ≤ s.edv.count_bytes
  old : s.edv.old = 0 ∨ s.edv.old = 1

/-- The early decision: which packets it marks, which it drops, and what it remembers. -/
structure Early (c : Config) (K : ℚ) (e : Arrival) (old : ℤ) (v : Edv) (t : DropType) : Prop where
  out : e.out = e.pkt ∨ (e.Above K ∧ old = 1 ∧ e.out = { e.pkt with ce := true })
  marked : e.Above K → old = 1 → e.pkt.ect = true → e.Counted c → e.out.ce = true
  unforced : t = .NONE ∨ (t = .UNFORCED ∧ e.Above K ∧ e.out = e.pkt ∧ e.pkt.ect = false)
  old : (v.old = 1 ∧ e.Above K) ∨ (v.old = 0 ∧ ¬ e.Above K)
  count : 0 ≤ v.count
  count_bytes : 0 ≤ v.count_bytes

/-- What the caution about a queue below its average does: nothing, since the average is the
queue size. -/
theorem cautious_none (hpow : PowZero c.pow) {e : Edp} (hqw : e.q_w = 1) (hptc : 0 ≤ e.ptc)
    (hq : 0 ≤ qsize c q) (u : ℚ) :
    cautiousSkip c e (qsize c q) q = false ∧ cautiousU c e (qsize c q) q u = u := by
  obtain ⟨hp0, hp1⟩ := hpow (e.ptc * (5 / 100)) (mul_nonneg hptc (by norm_num))
  have hq0 : (0 : ℚ) ≤ qsize c q := by exact_mod_cast hq
  have hle := mul_le_of_le_one_left hq0 hp1
  unfold cautiousSkip cautiousU
  rw [hqw, sub_self]
  constructor
  · simp only [decide_eq_false_iff_not, not_and, not_lt]
    exact fun _ => hle
  · simp only
    split_ifs with h1 h2
    · obtain ⟨hne, hlt⟩ := h2
      have hpos := lt_of_le_of_ne (mul_nonneg hp0 hq0) (Ne.symm hne)
      rw [div_lt_one hpos] at hlt
      exact absurd hlt (not_lt.mpr hle)
    · rfl
    · rfl

/-- The result of `drop_early` for a packet. -/
structure EarlyDrop (c : Config) (pkt : Packet) (v v' : Edv) (out : Packet) (drop : Bool) :
    Prop where
  same : out = pkt ∨ out = { pkt with ce := true }
  marked : pkt.ect = true →
    (c.edp.bytes = true → c.edp.wait = true → c.edp.mean_pktsize ≤ v.count_bytes) → out.ce = true
  dropped : drop = true → out = pkt ∧ pkt.ect = false
  old : v'.old = v.old
  count : 0 ≤ v'.count
  count_bytes : 0 ≤ v'.count_bytes

variable (pkt) in
/-- `drop_early` above the threshold. -/
theorem drop_early_spec (h : Dctcp c K) (hpow : PowZero c.pow) (hq : ∀ p ∈ q, Valid c p)
    {u : ℚ} (hu : u < 1) (hcount : 1 ≤ v.count) (hbytes : 0 ≤ v.count_bytes)
    (have_ : v.v_ave = qsize c q) (habove : (scale c).th_min ≤ v.v_ave) :
    EarlyDrop c pkt v (drop_early c (scale c) v q pkt u).1 (drop_early c (scale c) v q pkt u).2.1
      (drop_early c (scale c) v q pkt u).2.2 := by
  obtain ⟨hmax, -, hqw, hgentle, hsetbit, huse, hmark, hby, hwait, hmean, hptc⟩ := scale_eq h
  have hone : calculate_p_new v.v_ave (scale c).th_max (scale c).gentle v.v_a v.v_b v.v_c v.v_d
      v.cur_max_p = 1 := by
    rw [hgentle, hmax]
    exact calculate_p_one habove
  obtain ⟨hskip, hcu⟩ := cautious_none hpow hqw (hptc ▸ h.ptc) (qsize_nonneg hq h.mean) u
  rw [have_] at hone
  unfold drop_early
  simp only [hone, have_, hskip, hcu, Bool.false_eq_true, if_false]
  by_cases hprob : u ≤ modify_p 1 v.count v.count_bytes (scale c).bytes (scale c).mean_pktsize
      (scale c).wait pkt.size
  · simp only [hprob, if_true]
    by_cases hect : pkt.ect = true
    · have hmark' : (scale c).setbit = true ∧ pkt.ect = true ∧
          (¬ (scale c).use_mark_p = true ∨ (1 : ℚ) ≤ (scale c).mark_p) :=
        ⟨hsetbit, hect, Or.inr (hmark ▸ h.mark_p)⟩
      rw [if_pos hmark']
      exact ⟨Or.inr rfl, fun _ _ => rfl, fun hd => absurd hd Bool.false_ne_true, rfl, le_rfl, le_rfl⟩
    · rw [if_neg fun hm => hect hm.2.1]
      exact ⟨Or.inl rfl, fun he => absurd he hect, fun _ => ⟨rfl, Bool.eq_false_of_not_eq_true hect⟩,
        rfl, le_rfl, le_rfl⟩
  · simp only [hprob, if_false]
    refine ⟨Or.inl rfl, fun _ hc => absurd ?_ hprob, fun hd => absurd hd Bool.false_ne_true, rfl,
      by simp only; omega, hbytes⟩
    rw [modify_p_one hcount hbytes (hmean ▸ h.mean) (by rw [hby, hwait, hmean]; exact hc)]
    exact hu.le

/-- The early decision on an arrival. -/
theorem decide_early_spec (h : Dctcp c K) (hpow : PowZero c.pow) (hs : Ok c s) (hv : Valid c pkt)
    {u : ℚ} (hu : u < 1) (now : ℚ) :
    Early c K (arrival c s pkt (decide_early c s.edp (arriveEdv c s pkt now) s.q pkt u).2.1)
      s.edv.old (decide_early c s.edp (arriveEdv c s pkt now) s.q pkt u).1
      (decide_early c s.edp (arriveEdv c s pkt now) s.q pkt u).2.2 := by
  obtain ⟨-, -, hqw, hgentle, -, huse, -⟩ := scale_eq h
  obtain ⟨h1, h2, h3⟩ := estimator_counts s.edp s.edv (qsize c s.q) (idlePackets s now + 1) now
  have have_ : (arriveEdv c s pkt now).v_ave = qsize c s.q :=
    estimator_ave (v := s.edv) (hs.edp ▸ hqw) (qsize c s.q) (idlePackets s now + 1) now
  have hcount : (arriveEdv c s pkt now).count = s.edv.count + 1 := congrArg (· + 1) h1
  have hbytes : (arriveEdv c s pkt now).count_bytes = s.edv.count_bytes + pkt.size :=
    congrArg (· + pkt.size) h2
  have hold : (arriveEdv c s pkt now).old = s.edv.old := h3
  have hc0 := hs.count
  have hb0 := hs.count_bytes
  have hs0 := hv.1
  generalize arriveEdv c s pkt now = v at *
  have hthr := threshold_iff h hs.valid
  unfold decide_early
  rw [hs.edp]
  by_cases habove : v.v_ave ≥ (scale c).th_min ∧ qsize c s.q > 1
  · have hA : K ≤ s.q.length ∧ 1 < qsize c s.q := ⟨hthr.mp (have_ ▸ habove.1), habove.2⟩
    rw [if_pos habove, if_neg fun hf => hf.1 huse]
    by_cases hold0 : v.old = 0
    · rw [if_pos hold0]
      refine ⟨Or.inl rfl, fun _ ho => ?_, Or.inl rfl, Or.inl ⟨rfl, hA⟩, Int.one_nonneg, hs0⟩
      rw [← hold, hold0] at ho
      exact absurd ho (by decide)
    · rw [if_neg hold0]
      have hed := drop_early_spec pkt h hpow hs.valid hu (by omega) (by omega) have_
        habove.1
      generalize drop_early c (scale c) v s.q pkt u = res at hed
      obtain ⟨v', out, drop⟩ := res
      simp only at hed ⊢
      have hold1 := hs.old.resolve_left (hold ▸ hold0)
      refine ⟨hed.same.imp_right fun ho => ⟨hA, hold1, ho⟩, fun _ _ he hcd => ?_, ?_, Or.inl ⟨?_, hA⟩,
        hed.count, hed.count_bytes⟩
      · refine hed.marked he fun hb hw => ?_
        rw [hbytes]
        exact hcd hb hw
      · cases drop with
        | false => exact Or.inl rfl
        | true => exact Or.inr ⟨rfl, hA, hed.dropped rfl⟩
      · rw [hed.old, hold, hold1]
  · have hA : ¬ (K ≤ s.q.length ∧ 1 < qsize c s.q) := by
      rintro ⟨hK, hq⟩
      exact habove ⟨have_ ▸ hthr.mpr hK, hq⟩
    rw [if_neg habove]
    exact ⟨Or.inl rfl, fun ha => absurd ha hA, Or.inl rfl, Or.inr ⟨rfl, hA⟩,
      by simp only; omega, by simp only; omega⟩

/-- The victim of a forced drop is in the queue. -/
theorem pickPacketToDrop_lt (c : Config) (p : Packet) (r : ℕ) :
    pickPacketToDrop c (q ++ [p]) r < (q ++ [p]).length := by
  unfold pickPacketToDrop
  rw [List.length_append, List.length_singleton]
  split_ifs
  · omega
  · exact Nat.mod_lt _ (Nat.succ_pos _)
  · omega

/-- `enque` always returns. -/
theorem enque_isSome (c : Config) (s : REDQueue) (pkt : Packet) (u : ℚ) (r : ℕ) (now : ℚ) :
    ∃ res, enque c s pkt u r now = some res := by
  unfold enque
  simp only
  generalize decide_early c s.edp (arriveEdv c s pkt now) s.q pkt u = d
  generalize (if qsize c s.q ≥ qlim c then DropType.FORCED else d.2.2) = t
  cases t with
  | NONE => exact ⟨_, rfl⟩
  | UNFORCED => exact ⟨_, rfl⟩
  | FORCED =>
    simp only
    rw [List.getElem?_eq_getElem (pickPacketToDrop_lt c d.2.1 r)]
    exact ⟨_, rfl⟩

/-- What an arrival does to the queue. -/
structure Enqued (c : Config) (K : ℚ) (s s' : REDQueue) (e : Arrival) (d : Option Packet) :
    Prop where
  ok : Ok c s'
  out : e.out = e.pkt ∨ (e.Above K ∧ s.edv.old = 1 ∧ e.out = { e.pkt with ce := true })
  marked : e.Above K → s.edv.old = 1 → e.pkt.ect = true → e.Counted c → e.out.ce = true
  old : s'.edv.old = 1 ↔ e.Above K
  drop : ∀ p, d = some p → qlim c ≤ e.size ∨ (K ≤ e.len ∧ p = e.out ∧ p.ect = false)
  once : (s.q ++ [e.out]).Perm (s'.q ++ d.toList)
  order : s'.q.Sublist (s.q ++ [e.out])

/-- **One arrival.** -/
theorem enque_spec (h : Dctcp c K) (hpow : PowZero c.pow) (hs : Ok c s) (hv : Valid c pkt)
    {u : ℚ} (hu : u < 1) {r : ℕ} {now : ℚ} {s' : REDQueue} {out : Packet} {d : Option Packet}
    (henq : enque c s pkt u r now = some (s', out, d)) :
    Enqued c K s s' (arrival c s pkt out) d := by
  have hearly := decide_early_spec h hpow hs hv hu now
  unfold enque at henq
  simp only at henq
  generalize decide_early c s.edp (arriveEdv c s pkt now) s.q pkt u = dec at hearly henq
  obtain ⟨v, o, t⟩ := dec
  simp only at hearly henq
  have hvo : Valid c o := by
    rcases hearly.out with ho | ⟨-, -, ho⟩
    · exact (show o = pkt from ho) ▸ hv
    · rw [show o = { pkt with ce := true } from ho]
      exact hv
  have hold : v.old = 1 ↔ (arrival c s pkt o).Above K := by
    rcases hearly.old with ⟨h1, h2⟩ | ⟨h1, h2⟩
    · exact iff_of_true h1 h2
    · exact iff_of_false (by rw [h1]; decide) h2
  have hv01 : v.old = 0 ∨ v.old = 1 := hearly.old.symm.imp And.left And.left
  have happ : ∀ p ∈ s.q ++ [o], Valid c p := by
    intro p hp
    rcases List.mem_append.mp hp with hp | hp
    · exact hs.valid p hp
    · exact List.mem_singleton.mp hp ▸ hvo
  by_cases hlim : qsize c s.q ≥ qlim c
  · -- the limit is reached: the packet is put into the queue and a victim is dropped
    rw [if_pos hlim] at henq
    simp only at henq
    have hlt := pickPacketToDrop_lt (q := s.q) c o r
    rw [List.getElem?_eq_getElem hlt] at henq
    cases henq
    have hperm := (List.perm_append_singleton _ _).trans (List.getElem_cons_eraseIdx_perm hlt)
    refine ⟨⟨hs.edp, fun p hp => happ p (List.mem_of_mem_eraseIdx hp), ?_, ?_, ?_⟩, hearly.out,
      hearly.marked, ?_, fun p _ => Or.inl hlim, ?_, List.eraseIdx_sublist _ _⟩
    · simp only
      split_ifs
      · exact hearly.count
      · exact le_rfl
    · simp only
      split_ifs
      · exact hearly.count_bytes
      · exact le_rfl
    · simp only
      split_ifs <;> exact hv01
    · simp only
      split_ifs <;> exact hold
    · exact hperm.symm
  · rw [if_neg hlim] at henq
    rcases hearly.unforced with rfl | ⟨rfl, habove, hout, hect⟩
    · cases henq
      exact ⟨⟨hs.edp, happ, hearly.count, hearly.count_bytes, hv01⟩, hearly.out, hearly.marked, hold,
        fun p hp => absurd hp.symm (Option.some_ne_none p), by simp [arrival], List.Sublist.refl _⟩
    · cases henq
      refine ⟨⟨hs.edp, hs.valid, hearly.count, hearly.count_bytes, hv01⟩, hearly.out, hearly.marked,
        hold, ?_, List.Perm.refl _, List.sublist_append_left _ _⟩
      rintro p ⟨⟩
      refine Or.inr ⟨habove.1, rfl, ?_⟩
      exact (show out = pkt from hout) ▸ hect

/-! ## All arrivals -/

/-- Marks and drops in a run. -/
structure Marking (c : Config) (K : ℚ) (w : World) : Prop where
  /-- Above the threshold, packets that can be marked are, except the first. -/
  marked : w.arrivals.IsChain fun e₁ e₂ =>
    e₁.Above K → e₂.Above K → e₂.pkt.ect = true → e₂.Counted c → e₂.out.ce = true
  /-- Below the threshold no packet is marked. -/
  below : ∀ e ∈ w.arrivals, e.len < K → e.out = e.pkt
  /-- Drops are at the limit, or of arriving packets above the threshold that cannot be marked. -/
  drops : ∀ d ∈ w.drops, d.cause ∈ w.arrivals ∧
    (qlim c ≤ d.cause.size ∨ (K ≤ d.cause.len ∧ d.victim = d.cause.out ∧ d.victim.ect = false))
  /-- Each packet leaves, is dropped or is queued as `enque` left it. -/
  once : (w.arrivals.map Arrival.out).Perm
    (w.departures ++ w.red.q ++ w.drops.map Drop.victim)
  /-- Packets leave in the order in which they arrived. -/
  order : (w.departures ++ w.red.q).Sublist (w.arrivals.map Arrival.out)

/-- The invariant of runs. -/
structure Inv (c : Config) (K : ℚ) (w : World) : Prop where
  ok : Ok c w.red
  last : w.red.edv.old = 1 ↔ ∃ e, w.arrivals.getLast? = some e ∧ e.Above K
  marking : Marking c K w

variable {w w' : World}

theorem inv_reset (c : Config) (K now : ℚ) : Inv c K ⟨reset c now, [], [], []⟩ := by
  refine ⟨⟨rfl, fun p hp => absurd hp List.not_mem_nil, le_rfl, le_rfl, Or.inl rfl⟩, ?_,
    ⟨List.isChain_nil, fun e he => absurd he List.not_mem_nil,
      fun d hd => absurd hd List.not_mem_nil, List.Perm.refl _, List.Sublist.refl _⟩⟩
  refine iff_of_false zero_ne_one ?_
  rintro ⟨e, he, -⟩
  exact absurd he.symm (Option.some_ne_none e)

/-- An arrival keeps the invariant. -/
theorem Inv.enque (h : Inv c K w) {s' : REDQueue} {e : Arrival} {d : Option Packet}
    (he : Enqued c K w.red s' e d) :
    Inv c K ⟨s', w.arrivals ++ [e], w.departures, w.drops ++ d.toList.map fun p => ⟨p, e⟩⟩ := by
  obtain ⟨hok, hlast, hm⟩ := h
  refine ⟨he.ok, ?_, ?_, ?_, ?_, ?_, ?_⟩
  · rw [he.old]
    simp
  · refine List.isChain_append.mpr ⟨hm.marked, List.isChain_singleton e, ?_⟩
    intro x hx y hy hxa hya
    obtain rfl : e = y := by simpa using hy
    exact he.marked hya (hlast.mpr ⟨x, hx, hxa⟩)
  · intro x hx hlt
    rcases List.mem_append.mp hx with hx | hx
    · exact hm.below x hx hlt
    · obtain rfl := List.mem_singleton.mp hx
      rcases he.out with ho | ⟨ha, -⟩
      · exact ho
      · exact absurd ha.1 (not_le.mpr hlt)
  · intro x hx
    rcases List.mem_append.mp hx with hx | hx
    · exact ⟨List.mem_append_left _ (hm.drops x hx).1, (hm.drops x hx).2⟩
    · obtain ⟨p, hp, rfl⟩ := List.mem_map.mp hx
      exact ⟨by simp, he.drop p (Option.mem_toList.mp hp)⟩
  · have hvict : ((d.toList.map fun p => (⟨p, e⟩ : Drop)).map Drop.victim) = d.toList := by
      rw [List.map_map]
      exact List.map_id _
    simp only [List.map_append, List.map_cons, List.map_nil, hvict]
    refine List.perm_iff_count.mpr fun p => ?_
    have h1 := hm.once.count_eq p
    have h2 := he.once.count_eq p
    simp only [List.count_append] at h1 h2 ⊢
    omega
  · simp only [List.map_append, List.map_cons, List.map_nil]
    have h1 : (w.departures ++ s'.q).Sublist (w.departures ++ (w.red.q ++ [e.out])) :=
      he.order.append_left _
    rw [← List.append_assoc] at h1
    exact h1.trans (hm.order.append_right _)

/-- A departure keeps the invariant. -/
theorem Inv.deque (h : Inv c K w) (now : ℚ) :
    Inv c K ⟨(deque w.red now).1, w.arrivals, w.departures ++ (deque w.red now).2.toList,
      w.drops⟩ := by
  obtain ⟨hok, hlast, hm⟩ := h
  unfold RED.deque
  cases hq : w.red.q with
  | nil =>
    refine ⟨⟨hok.edp, by simp, hok.count, hok.count_bytes, hok.old⟩, hlast,
      ⟨hm.marked, hm.below, hm.drops, ?_, ?_⟩⟩
    · have := hm.once
      rw [hq] at this
      simpa [hq] using this
    · have := hm.order
      rw [hq] at this
      simpa [hq] using this
  | cons p q =>
    refine ⟨⟨hok.edp, fun x hx => hok.valid x (hq ▸ List.mem_cons_of_mem p hx), hok.count,
      hok.count_bytes, hok.old⟩, hlast, ⟨hm.marked, hm.below, hm.drops, ?_, ?_⟩⟩
    · have := hm.once
      rw [hq] at this
      simpa using this
    · have := hm.order
      rw [hq] at this
      simpa using this

/-- All runs keep the invariant. -/
theorem Reachable.inv (h : Dctcp c K) (hpow : PowZero c.pow) (hw : Reachable c w) :
    Inv c K w := by
  obtain ⟨now, hrun⟩ := hw
  induction hrun with
  | refl => exact inv_reset c K now
  | tail _ hstep ih =>
    cases hstep with
    | enque hv hu henq => exact ih.enque (enque_spec h hpow ih.ok hv hu.2 henq)
    | deque => exact ih.deque _

/-- A threshold of two packets, and the defaults of the simulator otherwise. -/
def twoPackets : Config where
  edp := {
    mean_pktsize := 1460
    idle_pktsize := 100
    bytes := false
    wait := true
    setbit := true
    gentle := false
    th_min := 0
    th_min_pkts := 2
    th_max := 0
    th_max_pkts := 2
    max_p_inv := 10
    mark_p := 1
    use_mark_p := true
    q_w := 1
    adaptive := 0
    cautious := 0
    alpha := 1 / 100
    beta := 9 / 10
    interval := 1 / 2
    top := 1 / 2
    bottom := 1 / 100
    feng_adaptive := 0
    ptc := 1000 }
  qib_ := false
  qlim_ := 1000
  drop_front_ := false
  drop_rand_ := false
  ns1_compat_ := false
  pow := fun _ _ => 1

theorem dctcp_twoPackets : Dctcp twoPackets 2 :=
  ⟨rfl, rfl, rfl, by norm_num, rfl, rfl, rfl, le_refl (1 : ℚ), by decide, by
    show (0 : ℚ) ≤ 1000
    norm_num⟩

theorem powZero_one : PowZero fun _ _ => 1 := fun _ _ => ⟨zero_le_one, le_refl 1⟩

/-- A packet that can be marked. -/
def ecnPacket (uid : ℕ) : Packet := ⟨uid, 1460, true, false⟩

/-- A packet that arrives at a queue of up to two packets, all before it having arrived below the
threshold, is put into the queue and not marked. -/
theorem arrives {w : World} (hw : Reachable twoPackets w) (hlen : w.red.q.length ≤ 2)
    (hold : w.red.edv.old = 0) (uid : ℕ) :
    ∃ s', Step twoPackets w ⟨s', w.arrivals ++ [arrival twoPackets w.red (ecnPacket uid)
      (ecnPacket uid)], w.departures, w.drops⟩ ∧ s'.q.length = w.red.q.length + 1 ∧
      (w.red.q.length < 2 → s'.edv.old = 0) := by
  have hv : Valid twoPackets (ecnPacket uid) := ⟨by simp [ecnPacket], fun hq => absurd hq (by decide)⟩
  obtain ⟨⟨s', out, d⟩, henq⟩ := enque_isSome twoPackets w.red (ecnPacket uid) 0 0 0
  have hspec := enque_spec dctcp_twoPackets powZero_one
    (hw.inv dctcp_twoPackets powZero_one).ok hv zero_lt_one henq
  have hout : out = ecnPacket uid := by
    rcases hspec.out with ho | ⟨-, h1, -⟩
    · exact ho
    · rw [hold] at h1
      exact absurd h1 (by decide)
  subst hout
  have hd : d = none := by
    cases d with
    | none => rfl
    | some p =>
      rcases hspec.drop p rfl with hlim | ⟨-, rfl, hect⟩
      · have hlim' : (1000 : ℤ) ≤ w.red.q.length := hlim
        omega
      · exact Bool.noConfusion (show true = false from hect)
  subst hd
  have hstep := Step.enque hv ⟨le_refl 0, zero_lt_one⟩ henq
  refine ⟨s', by simpa using hstep, ?_, fun hlt => ?_⟩
  · have := hspec.once.length_eq
    simp at this
    omega
  · refine hspec.ok.old.resolve_right fun h1 => ?_
    have hK : (2 : ℚ) ≤ w.red.q.length := (hspec.old.mp h1).1
    have : 2 ≤ w.red.q.length := by exact_mod_cast hK
    omega

end Ns2.Queue.RED
