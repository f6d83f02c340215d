import Ns2.Link.LinkRun
import Ns2.Lib.FifoServer

/-!
# When the packets arrive

A link with a queue that keeps its packets in order is a server that takes its jobs in order,
followed by a constant delay.

* `Fifo` — the queue disciplines that keep the order.
* `deliveries` — when each packet that was accepted arrives at the next node.
* `Serving` — the packets in transit are those of the server.
* `link_delivers` — in every run with constant bandwidth and delay, exactly the packets that were
  accepted arrive, at these times.
-/

namespace Ns2.Link

open Stable FifoServer

variable {δ π : Type*}

/-- The discipline appends a packet, or drops it, and gives the first one. -/
structure Fifo (d : Discipline δ π) (R : δ → List π → Prop) : Prop where
  /-- A packet that is not in the queue arrives. -/
  enque : ∀ q xs p, R q xs → p ∉ xs →
    (R (d.enque q p).1 (xs ++ [p]) ∧ (d.enque q p).2 = []) ∨
      (R (d.enque q p).1 xs ∧ (d.enque q p).2 = [p])
  /-- The first packet leaves. -/
  deque_cons : ∀ q xs p, R q (p :: xs) → (d.deque q).2 = some p ∧ R (d.deque q).1 xs
  /-- There is none. -/
  deque_nil : ∀ q, R q [] → (d.deque q).2 = none ∧ R (d.deque q).1 []

theorem Fifo.lawful {d : Discipline δ π} {R : δ → List π → Prop} (h : Fifo d R) : Lawful d R := by
  refine ⟨fun q xs p hR hp => ?_, fun q xs p hR hp => ?_, fun q xs hR hn => ?_⟩
  · rcases h.enque q xs p hR hp with ⟨hR', hdrop⟩ | ⟨hR', hdrop⟩
    · exact ⟨xs ++ [p], hR', by rw [hdrop]; exact List.perm_append_singleton p xs⟩
    · exact ⟨xs, hR', by rw [hdrop]; exact List.Perm.refl _⟩
  · cases xs with
    | nil =>
      rw [(h.deque_nil q hR).1] at hp
      cases hp
    | cons p' xs =>
      obtain ⟨hp', hR'⟩ := h.deque_cons q xs p' hR
      obtain rfl := Option.some.inj (hp'.symm.trans hp)
      exact ⟨xs, hR', List.Perm.refl _⟩
  · cases xs with
    | nil => exact ⟨rfl, (h.deque_nil q hR).2⟩
    | cons p xs =>
      rw [(h.deque_cons q xs p hR).1] at hn
      cases hn

/-- What is seen of a link: the packets the queue accepted and when, and those that arrived at the
next node and when. -/
structure Ledger (π : Type*) where
  accepted : List (π × ℚ) := []
  delivered : List (π × ℚ) := []

variable [DecidableEq π]

/-- The ledger after a step. -/
def Ledger.add (l : Ledger π) (before : ℚ) (x : Input π) (r : Report π) (after : ℚ) : Ledger π where
  accepted := l.accepted ++ (x.packet.toList.filter (· ∉ r.dropped)).map (·, before)
  delivered := l.delivered ++ r.delivered.toList.map (·, after)

/-- One step, with the ledger. -/
def track (c : Config δ π) (l : Ledger π × SimpleLink δ π) (x : Input π) :
    Option (Ledger π × SimpleLink δ π) :=
  (l.2.step c x).map fun r => (l.1.add l.2.clock_ x r.2 r.1.clock_, r.1)

omit [DecidableEq π] in
/-- Arrival and length of the transmission of each packet. -/
def jobs (c : Config δ π) (bandwidth_ : ℚ) (accepted : List (π × ℚ)) : List (ℚ × ℚ) :=
  accepted.map fun x => (x.2, 8 * c.size x.1 / bandwidth_)

omit [DecidableEq π] in
/-- The packets with the time of their arrival at the next node. -/
def deliveries (c : Config δ π) (bandwidth_ delay_ : ℚ) (accepted : List (π × ℚ)) : List (π × ℚ) :=
  (accepted.map Prod.fst).zip ((finishes 0 (jobs c bandwidth_ accepted)).map (· + delay_))

/-- Neither the settings nor the link are touched. -/
def Input.Steady : Input π → Prop
  | .setBandwidth _ => False
  | .setDelay _ => False
  | .reset => False
  | _ => True

/-- The packets in transit, with the times at which they are due. -/
def SimpleLink.flights (s : SimpleLink δ π) : List (π × ℚ) :=
  s.events.filterMap fun e => e.packet.map (·, e.time_)

variable {c : Config δ π} {R : δ → List π → Prop} {log : Log π} {l : Ledger π}
  {s : SimpleLink δ π} {p : π} {b d : ℚ} {done : List (π × ℚ)}

/-! ## The server -/

omit [DecidableEq π] in
theorem jobs_nonneg (hb : 0 < b) (accepted : List (π × ℚ)) : ∀ j ∈ jobs c b accepted, 0 ≤ j.2 := by
  intro j hj
  obtain ⟨x, -, rfl⟩ := List.mem_map.mp hj
  have hsize : (0 : ℚ) ≤ c.size x.1 := Nat.cast_nonneg _
  exact div_nonneg (by linarith) hb.le

omit [DecidableEq π] in
/-- A packet whose transmission starts at once. -/
theorem deliveries_append {a t : ℚ} (hfree : lastFinish 0 (jobs c b done) ≤ t) (ha : a ≤ t)
    (ht : t = lastFinish 0 (jobs c b done) ∨ t = a) :
    deliveries c b d (done ++ [(p, a)]) =
        deliveries c b d done ++ [(p, t + (8 * c.size p / b + d))] ∧
      lastFinish 0 (jobs c b (done ++ [(p, a)])) = t + 8 * c.size p / b := by
  obtain ⟨h1, h2⟩ := lastFinish_eq_add (x := 8 * (c.size p : ℚ) / b) hfree ha ht
  have hjobs : jobs c b (done ++ [(p, a)]) = jobs c b done ++ [(a, 8 * (c.size p : ℚ) / b)] := by
    simp [jobs]
  refine ⟨?_, by rw [hjobs, h2]⟩
  rw [deliveries, hjobs, finishes_append, h1, List.map_append, List.map_append,
    List.zip_append (by simp [jobs])]
  simp only [deliveries, List.map_cons, List.map_nil, List.zip_cons_cons, List.zip_nil_right, add_assoc]

omit [DecidableEq π] in
/-- No packet arrives later than after the last transmission and the delay. -/
theorem deliveries_le (hb : 0 < b) : ∀ x ∈ deliveries c b d done, x.2 ≤ lastFinish 0 (jobs c b done) + d := by
  intro x hx
  obtain ⟨f, hf, hfx⟩ := List.mem_map.mp (List.of_mem_zip hx).2
  have hle := finishes_le (jobs_nonneg hb done) f hf
  linarith

/-! ## The link -/

/-- The link serves the packets it accepted. -/
structure Serving (c : Config δ π) (R : δ → List π → Prop) (b d : ℚ) (l : Ledger π)
    (s : SimpleLink δ π) : Prop where
  /-- The settings. -/
  settings : s.bandwidth_ = b ∧ s.delay_ = d
  /-- The packets arrived up to now. -/
  past : ∀ x ∈ l.accepted, x.2 ≤ s.clock_
  /-- Some are transmitted, the others wait. -/
  split : ∃ done waiting, l.accepted = done ++ waiting ∧ R s.queue (waiting.map Prod.fst) ∧
    deliveries c b d done = l.delivered ++ s.flights ∧
    (s.blocked_ = true → ⟨lastFinish 0 (jobs c b done), none⟩ ∈ s.events) ∧
    (s.blocked_ = false → waiting = [] ∧ lastFinish 0 (jobs c b done) ≤ s.clock_) ∧
    (c.dynamic_ = false → c.avoidReordering_ = true →
      s.latest_time_ ≤ lastFinish 0 (jobs c b done) + d)

omit [DecidableEq π] in
/-- The transmission of a packet starts. -/
theorem Starts.serving {s' : SimpleLink δ π} {t a : ℚ} {done : List (π × ℚ)} (h : Starts c s p s' t)
    (waiting delivered : List (π × ℚ)) (htimed : Timed s) (hsettings : s.bandwidth_ = b ∧ s.delay_ = d)
    (hblocked : s.blocked_ = true) (hidle : none ∉ s.events.map Due.packet)
    (hpast : ∀ x ∈ done ++ (p, a) :: waiting, x.2 ≤ s.clock_) (hR : R s.queue (waiting.map Prod.fst))
    (hdone : deliveries c b d done = delivered ++ s.flights)
    (hfree : lastFinish 0 (jobs c b done) ≤ s.clock_)
    (hstart : s.clock_ = lastFinish 0 (jobs c b done) ∨ s.clock_ = a)
    (hlatest : c.dynamic_ = false → c.avoidReordering_ = true →
      s.latest_time_ ≤ lastFinish 0 (jobs c b done) + d) :
    Serving c R b d ⟨done ++ (p, a) :: waiting, delivered⟩ s' := by
  obtain ⟨rfl, rfl⟩ := hsettings
  have htx := htimed.txtime_nonneg (c := c) p
  have htime : t = s.clock_ + (s.txtime c p + s.delay_) := by
    rcases h.time with htime | ⟨hmode, hlate⟩
    · exact htime
    · have := hlatest hmode.1 hmode.2
      linarith
  obtain ⟨h1, h2⟩ := deliveries_append (p := p) (c := c) (d := s.delay_) hfree
    (hpast (p, a) (List.mem_append_right _ List.mem_cons_self)) hstart
  have hstate := h.state
  -- the packets before it are due earlier
  have hlast : ∀ e ∈ s.events, e.time_ ≤ t := by
    intro e he
    cases hpacket : e.packet with
    | none => exact absurd (List.mem_map.mpr ⟨e, he, hpacket⟩) hidle
    | some q =>
      have hmem : (q, e.time_) ∈ deliveries c s.bandwidth_ s.delay_ done := by
        rw [hdone]
        exact List.mem_append_right _ (List.mem_filterMap.mpr ⟨e, he, by rw [hpacket]; rfl⟩)
      have hle := deliveries_le htimed.bandwidth_ _ hmem
      simp only at hle
      linarith
  have hflights : s'.flights = s.flights ++ [(p, t)] := by
    rw [hstate, SimpleLink.flights, filterMap_insertLast rfl, insertLast_eq_append hlast,
      List.filterMap_append]
    rfl
  refine ⟨by rw [hstate]; exact ⟨rfl, rfl⟩, by rw [hstate]; exact hpast, done ++ [(p, a)], waiting, by simp, ?_,
    ?_, fun _ => ?_, fun hb => ?_, fun hdyn hav => ?_⟩
  · rw [hstate]
    exact hR
  · rw [h1, hdone, hflights, htime, List.append_assoc]
    rfl
  · rw [h2, hstate]
    exact mem_insertLast.mpr (.inl rfl)
  · rw [hstate] at hb
    exact absurd (hblocked.symm.trans hb) (by simp)
  · rw [(h.latest hdyn hav).1, htime, h2]
    exact (add_assoc _ _ _).symm.le

theorem starts_of_delayRecv (htimed : Timed s) (hidle : none ∉ s.events.map Due.packet)
    {s' : SimpleLink δ π} (h : s.delayRecv c p = some s') : ∃ t, Starts c s p s' t := by
  by_cases hp : some p ∈ s.events.map Due.packet
  · have hnone : s.scheduleArrival c p = none := by
      simp only [SimpleLink.scheduleArrival, SimpleLink.schedule, if_pos hp, ite_self]
    rw [SimpleLink.delayRecv, hnone] at h
    cases h
  · obtain ⟨s₁, t, hs₁, hstarts⟩ := htimed.delayRecv (c := c) hp hidle
    obtain rfl := Option.some.inj (hs₁.symm.trans h)
    exact ⟨t, hstarts⟩

theorem send_eq {dropped : List π} {s' : SimpleLink δ π} {r : Report π}
    (h : s.send c p dropped = some (s', r)) :
    s.delayRecv c p = some s' ∧ r = { dropped := dropped, started := some p } := by
  obtain ⟨s₁, hs₁, heq⟩ := Option.map_eq_some_iff.mp h
  obtain ⟨rfl, rfl⟩ := Prod.mk.inj heq
  exact ⟨hs₁, rfl⟩

omit [DecidableEq π] in
theorem Starts.clock {s' : SimpleLink δ π} {t : ℚ} (h : Starts c s p s' t) : s'.clock_ = s.clock_ := by
  rw [h.state]

/-- A packet arrives at the queue. -/
theorem Serving.recv (hF : Fifo c.discipline R) (h : Serving c R b d l s) (hs : Sound c R log s)
    (hp : ∀ x ∈ l.accepted, x.1 ≠ p) {s' : SimpleLink δ π} {r : Report π}
    (hrun : s.recv c p = some (s', r)) :
    Serving c R b d (l.add s.clock_ (.recv p) r s'.clock_) s' := by
  obtain ⟨hset, hpast, done, waiting, hsplit, hR, hdone, hbusy, hidle, hlatest⟩ := h
  have hnot : p ∉ waiting.map Prod.fst := by
    intro hin
    obtain ⟨x, hx, hxp⟩ := List.mem_map.mp hin
    exact hp x (by rw [hsplit]; exact List.mem_append_right _ hx) hxp
  rw [SimpleLink.recv] at hrun
  by_cases hb : s.blocked_ = true
  · rw [if_pos hb] at hrun
    obtain ⟨rfl, rfl⟩ := Prod.mk.inj (Option.some.inj hrun)
    rcases hF.enque _ _ p hR hnot with ⟨hR', hdrop⟩ | ⟨hR', hdrop⟩
    · refine ⟨hset, ?_, done, waiting ++ [(p, s.clock_)], ?_, ?_, ?_, hbusy,
        fun hb' => absurd (hb.symm.trans hb') (by simp), hlatest⟩
      · intro x hx
        simp only [Ledger.add, Input.packet, hdrop] at hx
        rcases List.mem_append.mp hx with hx | hx
        · exact hpast x hx
        · simp only [Option.toList_some, List.not_mem_nil, not_false_eq_true, decide_true,
            List.filter_cons_of_pos, List.filter_nil, List.map_cons, List.map_nil,
            List.mem_singleton] at hx
          rw [hx]
      · simp [Ledger.add, Input.packet, hdrop, hsplit]
      · simpa using hR'
      · simpa [Ledger.add, SimpleLink.flights] using hdone
    · refine ⟨hset, ?_, done, waiting, ?_, hR', ?_, hbusy,
        fun hb' => absurd (hb.symm.trans hb') (by simp), hlatest⟩
      · simpa [Ledger.add, Input.packet, hdrop] using fun a t hin => hpast (a, t) hin
      · simpa [Ledger.add, Input.packet, hdrop] using hsplit
      · simpa [Ledger.add, SimpleLink.flights] using hdone
  · rw [if_neg hb] at hrun
    have hb' : s.blocked_ = false := by simpa using hb
    obtain ⟨rfl, hfree⟩ := hidle hb'
    rw [List.append_nil] at hsplit
    rcases hF.enque _ _ p hR hnot with ⟨hR', hdrop⟩ | ⟨hR', hdrop⟩
    · -- the packet is transmitted at once
      obtain ⟨hp', hR''⟩ := hF.deque_cons _ _ p hR'
      cases hdeque : c.discipline.deque (c.discipline.enque s.queue p).1 with
      | mk q' out =>
        rw [hdeque] at hp' hR'' hrun
        simp only at hp' hR''
        subst hp'
        obtain ⟨hrecv, rfl⟩ := send_eq hrun
        have htimed : Timed { s with queue := q', blocked_ := true } := hs.timed.same rfl rfl rfl rfl
        obtain ⟨t, hstarts⟩ := starts_of_delayRecv htimed (hs.idle hb') hrecv
        have hserve := hstarts.serving (a := s.clock_) [] l.delivered htimed hset rfl (hs.idle hb')
          (fun x hx => (List.mem_append.mp hx).elim (fun hx => hpast x (hsplit ▸ hx))
            (fun hx => by rw [List.mem_singleton.mp hx])) hR'' hdone hfree (.inr rfl) hlatest
        simpa [Ledger.add, Input.packet, hdrop, hsplit] using hserve
    · obtain ⟨hnone, hR''⟩ := hF.deque_nil _ hR'
      cases hdeque : c.discipline.deque (c.discipline.enque s.queue p).1 with
      | mk q' out =>
        rw [hdeque] at hnone hR'' hrun
        simp only at hnone hR''
        subst hnone
        obtain ⟨rfl, rfl⟩ := Prod.mk.inj (Option.some.inj hrun)
        refine ⟨hset, ?_, done, [], ?_, hR'', ?_, hbusy, fun _ => ⟨rfl, hfree⟩, hlatest⟩
        · simpa [Ledger.add, Input.packet, hdrop] using fun a t hin => hpast (a, t) hin
        · simpa [Ledger.add, Input.packet, hdrop] using hsplit
        · simpa [Ledger.add, SimpleLink.flights] using hdone

/-- The transmission of a packet is over. -/
theorem Serving.resume (hF : Fifo c.discipline R) (hunblock : c.unblock_on_resume_ = true)
    (h : Serving c R b d l s) (hs : Sound c R log s) {e : Due π} {events : List (Due π)}
    (he : s.events = e :: events) (hn : e.packet = none) {s' : SimpleLink δ π} {r : Report π}
    (hrun : { s with clock_ := e.time_, events := events }.resume c = some (s', r)) :
    Serving c R b d (l.add s.clock_ .dispatch r s'.clock_) s' := by
  obtain ⟨hset, hpast, done, waiting, hsplit, hR, hdone, hbusy, -, hlatest⟩ := h
  obtain ⟨hclock, htimed, hnot⟩ := hs.timed.tail he
  rw [hn] at hnot
  have hblocked : s.blocked_ = true := by
    by_contra hb
    refine hs.idle (by simpa using hb) ?_
    rw [he, List.map_cons, hn]
    exact List.mem_cons_self
  -- it is the event of the last transmission
  have htime : e.time_ = lastFinish 0 (jobs c b done) := by
    have hmem := hbusy hblocked
    rw [he] at hmem
    rcases List.mem_cons.mp hmem with heq | hmem
    · rw [← heq]
    · exact absurd (List.mem_map.mpr ⟨_, hmem, rfl⟩) hnot
  have hflights : s.flights = events.filterMap fun e => e.packet.map (·, e.time_) := by
    rw [SimpleLink.flights, he, List.filterMap_cons_none (by rw [hn]; rfl)]
  rw [hflights] at hdone
  have hpast' : ∀ x ∈ l.accepted, x.2 ≤ e.time_ := fun x hx => (hpast x hx).trans hclock
  rw [SimpleLink.resume] at hrun
  cases waiting with
  | nil =>
    obtain ⟨hnone, hR'⟩ := hF.deque_nil _ hR
    cases hdeque : c.discipline.deque s.queue with
    | mk q' out =>
      simp only [hdeque] at hnone hR' hrun
      subst hnone
      obtain ⟨rfl, rfl⟩ := Prod.mk.inj (Option.some.inj hrun)
      refine ⟨hset, ?_, done, [], ?_, hR', ?_, fun hb => ?_, fun _ => ⟨rfl, htime.symm.le⟩, hlatest⟩
      · simpa [Ledger.add, Input.packet] using fun a t hin => hpast' (a, t) hin
      · simpa [Ledger.add, Input.packet] using hsplit
      · simpa [Ledger.add, SimpleLink.flights] using hdone
      · simp [hunblock] at hb
  | cons x waiting =>
    obtain ⟨p, a⟩ := x
    obtain ⟨hp, hR'⟩ := hF.deque_cons _ _ p hR
    cases hdeque : c.discipline.deque s.queue with
    | mk q' out =>
      simp only [hdeque] at hp hR' hrun
      subst hp
      obtain ⟨hrecv, rfl⟩ := send_eq hrun
      have htimed' : Timed { s with clock_ := e.time_, events := events, queue := q' } :=
        htimed.same rfl rfl rfl rfl
      obtain ⟨t, hstarts⟩ := starts_of_delayRecv htimed' hnot hrecv
      have hserve := hstarts.serving (a := a) waiting l.delivered htimed' hset hblocked hnot
        (fun x hx => hpast' x (hsplit ▸ hx)) hR' hdone htime.symm.le (.inl htime) hlatest
      simpa [Ledger.add, Input.packet, hsplit] using hserve

/-- A packet arrives at the next node. -/
theorem Serving.deliver (h : Serving c R b d l s) (hs : Sound c R log s)
    (ho : c.dynamic_ = true → Ordered c log s) {e : Due π} {events : List (Due π)}
    (he : s.events = e :: events) (hp : e.packet = some p) {s' : SimpleLink δ π} {r : Report π}
    (hrun : SimpleLink.handle c { s with clock_ := e.time_, events := events } e = some (s', r)) :
    Serving c R b d (l.add s.clock_ .dispatch r s'.clock_) s' := by
  obtain ⟨hset, hpast, done, waiting, hsplit, hR, hdone, hbusy, hidle, hlatest⟩ := h
  obtain ⟨hclock, htimed, -⟩ := hs.timed.tail he
  have hflights : s.flights = (p, e.time_) :: events.filterMap fun e => e.packet.map (·, e.time_) := by
    rw [SimpleLink.flights, he, List.filterMap_cons_some (by rw [hp]; rfl)]
  rw [hflights] at hdone
  have hserve : ∀ itq_, Serving c R b d (l.add s.clock_ .dispatch { delivered := some p } e.time_)
      { s with clock_ := e.time_, events := events, itq_ := itq_ } := by
    intro itq_
    refine ⟨hset, ?_, done, waiting, ?_, hR, ?_, fun hb => ?_, fun hb => ?_, hlatest⟩
    · simpa [Ledger.add, Input.packet] using fun a t hin => (hpast (a, t) hin).trans hclock
    · simpa [Ledger.add, Input.packet] using hsplit
    · simpa [Ledger.add, SimpleLink.flights] using hdone
    · have hmem := hbusy hb
      rw [he] at hmem
      rcases List.mem_cons.mp hmem with rfl | hmem
      · cases hp
      · exact hmem
    · exact ⟨(hidle hb).1, (hidle hb).2.trans hclock⟩
  rw [SimpleLink.handle, hp] at hrun
  simp only at hrun
  by_cases hdyn : c.dynamic_ = true
  · have hitq := (ho hdyn).itq_ hdyn
    rw [he, List.filterMap_cons_some (by rw [hp]; rfl)] at hitq
    simp only [if_pos hdyn, SimpleLink.delayHandle, hitq, if_true, Option.map_some] at hrun
    obtain ⟨rfl, rfl⟩ := Prod.mk.inj (Option.some.inj hrun)
    exact hserve _
  · rw [if_neg hdyn] at hrun
    obtain ⟨rfl, rfl⟩ := Prod.mk.inj (Option.some.inj hrun)
    exact hserve s.itq_

theorem Serving.step (hF : Fifo c.discipline R) (hunblock : c.unblock_on_resume_ = true)
    (h : Serving c R b d l s) (hs : Sound c R log s) (ho : c.dynamic_ = true → Ordered c log s)
    {x : Input π} (hx : x.Steady) (hp : ∀ y ∈ l.accepted, x.packet ≠ some y.1)
    {s' : SimpleLink δ π} {r : Report π} (hrun : s.step c x = some (s', r)) :
    Serving c R b d (l.add s.clock_ x r s'.clock_) s' := by
  cases x with
  | recv p => exact h.recv hF hs (fun y hy heq => hp y hy (congrArg some heq.symm)) hrun
  | dispatch =>
    simp only [SimpleLink.step, SimpleLink.dispatch] at hrun
    cases he : s.events with
    | nil =>
      rw [he] at hrun
      obtain ⟨rfl, rfl⟩ := Prod.mk.inj (Option.some.inj hrun)
      simpa [Ledger.add, Input.packet] using h
    | cons e events =>
      simp only [he, if_neg (not_lt.mpr (hs.timed.tail he).1)] at hrun
      cases hn : e.packet with
      | none =>
        simp only [SimpleLink.handle, hn] at hrun
        exact h.resume hF hunblock hs he hn hrun
      | some p => exact h.deliver hs ho he hn hrun
  | advance t =>
    simp only [SimpleLink.step] at hrun
    split at hrun
    · rename_i ht
      obtain ⟨rfl, rfl⟩ := Prod.mk.inj (Option.some.inj hrun)
      obtain ⟨hset, hpast, done, waiting, hsplit, hR, hdone, hbusy, hidle, hlatest⟩ := h
      refine ⟨hset, ?_, done, waiting, ?_, hR, ?_, hbusy,
        fun hb => ⟨(hidle hb).1, (hidle hb).2.trans ht.1⟩, hlatest⟩
      · simpa [Ledger.add, Input.packet] using fun a u hin => (hpast (a, u) hin).trans ht.1
      · simpa [Ledger.add, Input.packet] using hsplit
      · simpa [Ledger.add, SimpleLink.flights] using hdone
    · obtain ⟨rfl, rfl⟩ := Prod.mk.inj (Option.some.inj hrun)
      simpa [Ledger.add, Input.packet] using h
  | setBandwidth _ => exact absurd hx not_false
  | setDelay _ => exact absurd hx not_false
  | reset => exact absurd hx not_false

/-! ## Runs -/

omit [DecidableEq π] in
theorem Input.Steady.legal {x : Input π} (h : x.Steady) : x.Legal ∧ x.delay = none := by
  cases x with
  | recv p => exact ⟨trivial, rfl⟩
  | dispatch => exact ⟨trivial, rfl⟩
  | advance t => exact ⟨trivial, rfl⟩
  | setBandwidth _ => exact absurd h not_false
  | setDelay _ => exact absurd h not_false
  | reset => exact absurd h not_false

/-- The accepted packets have been received. -/
theorem accepted_add {x : Input π} {r : Report π} {t t' : ℚ}
    (h : ∀ y ∈ l.accepted, y.1 ∈ log.received) :
    ∀ y ∈ (l.add t x r t').accepted, y.1 ∈ (log.add x r).received := by
  intro y hy
  rcases List.mem_append.mp hy with hy | hy
  · exact List.mem_append_left _ (h y hy)
  · obtain ⟨q, hq, rfl⟩ := List.mem_map.mp hy
    exact List.mem_append_right _ (List.mem_of_mem_filter hq)

theorem Serving.run (hF : Fifo c.discipline R) (hunblock : c.unblock_on_resume_ = true)
    (inputs : List (Input π)) {s : SimpleLink δ π} {l : Ledger π} {log : Log π}
    (h : Serving c R b d l s) (hs : Sound c R log s) (ho : Ordered c log s)
    (hl : ∀ y ∈ l.accepted, y.1 ∈ log.received) (hx : ∀ x ∈ inputs, x.Steady)
    (hfresh : (log.received ++ inputs.filterMap Input.packet).Nodup) :
    ∃ l' s' log', inputs.foldlM (track c) (l, s) = some (l', s') ∧ Serving c R b d l' s' ∧
      Sound c R log' s' := by
  induction inputs generalizing s l log with
  | nil => exact ⟨l, s, log, rfl, h, hs⟩
  | cons x inputs ih =>
    have hpackets : (log.received ++ x.packet.toList) ++ inputs.filterMap Input.packet =
        log.received ++ (x :: inputs).filterMap Input.packet := by
      cases hp : x.packet with
      | none => simp [List.filterMap_cons_none hp]
      | some p => simp [List.filterMap_cons_some hp]
    obtain ⟨hlegal, hdelay⟩ := (hx x List.mem_cons_self).legal
    have hnew : ∀ p, x.packet = some p → p ∉ log.received := by
      intro p hp hin
      rw [List.filterMap_cons_some hp] at hfresh
      exact (List.nodup_append.mp hfresh).2.2 p hin p List.mem_cons_self rfl
    obtain ⟨s₁, r, hs₁, hsound, hord⟩ := hs.step hF.lawful (fun _ => ho) hlegal hnew
    have hserve := h.step hF hunblock hs (fun _ => ho) (hx x List.mem_cons_self)
      (fun y hy hp => hnew y.1 hp (hl y hy)) hs₁
    have hord' := hord ho (.inr fun e he => by rw [hdelay] at he; cases he)
    obtain ⟨l', s', log', hrun, h1, h2⟩ := ih hserve hsound hord' (accepted_add hl)
      (fun y hy => hx y (List.mem_cons_of_mem x hy)) (by rw [Log.add, hpackets]; exact hfresh)
    refine ⟨l', s', log', ?_, h1, h2⟩
    rw [List.foldlM_cons]
    simp only [track, hs₁, Option.map_some, Option.bind_eq_bind, Option.bind_some]
    exact hrun

omit [DecidableEq π] in
theorem serving_new {queue : δ} (hq : R queue []) (hd : 0 ≤ d) :
    Serving c R b d {} (SimpleLink.new queue b d : SimpleLink δ π) := by
  refine ⟨⟨rfl, rfl⟩, by simp, [], [], rfl, hq, rfl, by simp [SimpleLink.new], fun _ => ⟨rfl, le_rfl⟩,
    fun _ _ => ?_⟩
  simpa [SimpleLink.new, jobs, lastFinish] using hd

/-- **A link is a server in order of arrival, and a delay.**  With a queue that keeps its packets in
order, and constant bandwidth and delay, the packets that arrive at the next node are those the
queue accepted, in their order: the transmission of each starts when it has arrived and the one
before it is over, and the packet arrives the delay after its end.  Of the packets whose time has
come, none is missing. -/
theorem link_delivers (hF : Fifo c.discipline R) (hunblock : c.unblock_on_resume_ = true) {queue : δ}
    (hq : R queue []) (hb : 0 < b) (hd : 0 ≤ d) (inputs : List (Input π))
    (hx : ∀ x ∈ inputs, x.Steady) (hfresh : (inputs.filterMap Input.packet).Nodup) :
    ∃ l s, inputs.foldlM (track c) ({}, SimpleLink.new queue b d) = some (l, s) ∧
      l.delivered <+: deliveries c b d l.accepted ∧
      ∀ x ∈ deliveries c b d l.accepted, x.2 < s.clock_ → x ∈ l.delivered := by
  obtain ⟨l, s, log, hrun, hserve, hsound⟩ := (serving_new (c := c) hq hd).run hF hunblock inputs
    (sound_new c hq hb hd) (ordered_new c queue b d) (by simp) hx hfresh
  obtain ⟨hset, hpast, done, waiting, hsplit, hR, hdone, hbusy, hidle, -⟩ := hserve
  have hfirst : deliveries c b d l.accepted = deliveries c b d done ++
      (waiting.map Prod.fst).zip ((finishes (lastFinish 0 (jobs c b done)) (jobs c b waiting)).map (· + d)) := by
    have hjobs : jobs c b l.accepted = jobs c b done ++ jobs c b waiting := by
      rw [hsplit, jobs, List.map_append]
      rfl
    rw [deliveries, hjobs, finishes_append, hsplit, List.map_append, List.map_append,
      List.zip_append (by simp [jobs])]
    rfl
  refine ⟨l, s, hrun, ?_, fun x hx hlt => ?_⟩
  · rw [hfirst, hdone, List.append_assoc]
    exact List.prefix_append _ _
  · rw [hfirst, hdone, List.append_assoc] at hx
    rcases List.mem_append.mp hx with hx | hx
    · exact hx
    rcases List.mem_append.mp hx with hx | hx
    · -- it is in transit, and not due yet
      obtain ⟨e, he, hex⟩ := List.mem_filterMap.mp hx
      obtain ⟨q, -, rfl⟩ := Option.map_eq_some_iff.mp hex
      exact absurd (hsound.timed.clock_le e he) (not_le.mpr hlt)
    · -- it waits, and is transmitted after the one that is
      obtain ⟨f, hf, hfx⟩ := List.mem_map.mp (List.of_mem_zip hx).2
      have hle := le_finishes (jobs_nonneg hb waiting) f hf
      have hne : waiting ≠ [] := by
        rintro rfl
        simp at hx
      have hblocked : s.blocked_ = true := by
        by_contra hfree
        exact hne (hidle (by simpa using hfree)).1
      have hclock := hsound.timed.clock_le _ (hbusy hblocked)
      simp only at hclock
      linarith

end Ns2.Link
