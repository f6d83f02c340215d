import Ns2.Link.SimpleLink
import Ns2.Lib.Simulation

/-!
# What a link does with its packets

* `Lawful` — what is asked of a queue discipline.
* `Log` — what became of the packets of a run.
* `Sound` — a packet is in the queue, in transit, delivered or dropped; the queue waits exactly
  while a packet is being transmitted.
-/

namespace Ns2.Link

open Stable

variable {δ π : Type*}

/-- The discipline keeps the packets it does not drop, and gives one when it has one. -/
structure Lawful (d : Discipline δ π) (R : δ → List π → Prop) : Prop where
  /-- A packet that is not in the queue joins it, or packets are dropped. -/
  enque : ∀ q xs p, R q xs → p ∉ xs →
    ∃ ys, R (d.enque q p).1 ys ∧ ((d.enque q p).2 ++ ys).Perm (p :: xs)
  /-- A packet leaves. -/
  deque_some : ∀ q xs p, R q xs → (d.deque q).2 = some p →
    ∃ ys, R (d.deque q).1 ys ∧ (p :: ys).Perm xs
  /-- There is none. -/
  deque_none : ∀ q xs, R q xs → (d.deque q).2 = none → xs = [] ∧ R (d.deque q).1 []

/-- What became of the packets. -/
structure Log (π : Type*) where
  /-- The packets that arrived at the queue. -/
  received : List π := []
  /-- Those that were dropped. -/
  dropped : List π := []
  /-- Those that left the queue, in this order. -/
  started : List π := []
  /-- Those that arrived at the next node, in this order. -/
  delivered : List π := []

/-- The packet that arrives. -/
def Input.packet : Input π → Option π
  | .recv p => some p
  | _ => none

/-- The log after one more step. -/
def Log.add (l : Log π) (x : Input π) (r : Report π) : Log π where
  received := l.received ++ x.packet.toList
  dropped := l.dropped ++ r.dropped
  started := l.started ++ r.started.toList
  delivered := l.delivered ++ r.delivered.toList

/-- The log of a run. -/
def Log.after (l : Log π) (inputs : List (Input π)) (reports : List (Report π)) : Log π :=
  (inputs.zip reports).foldl (fun l x => l.add x.1 x.2) l

/-- The packets in transit, in the order in which they are due. -/
def SimpleLink.transit (s : SimpleLink δ π) : List π := s.events.filterMap Due.packet

variable [DecidableEq π] {c : Config δ π} {s : SimpleLink δ π} {p : π}

/-! ## The events -/

/-- The events of a link are in order, and not before the clock. -/
structure Timed (s : SimpleLink δ π) : Prop where
  /-- The order. -/
  sorted : IsSorted Due.time_ s.events
  /-- The clock. -/
  clock_le : ∀ e ∈ s.events, s.clock_ ≤ e.time_
  /-- Nothing is scheduled twice. -/
  once : (s.events.map Due.packet).Nodup
  /-- Time starts at zero. -/
  nonneg : 0 ≤ s.clock_
  /-- The bandwidth. -/
  bandwidth_ : 0 < s.bandwidth_
  /-- The delay. -/
  delay_ : 0 ≤ s.delay_

omit [DecidableEq π] in
theorem Timed.txtime_nonneg (h : Timed s) (p : π) : 0 ≤ s.txtime c p := by
  have hsize : (0 : ℚ) ≤ c.size p := Nat.cast_nonneg _
  exact div_nonneg (by linarith) h.bandwidth_.le

omit [DecidableEq π] in
/-- Two events are scheduled: the arrival, and the end of the transmission. -/
theorem Timed.insert₂ (h : Timed s) {t f : ℚ} (hp : some p ∉ s.events.map Due.packet)
    (hn : none ∉ s.events.map Due.packet) (ht : s.clock_ ≤ t) (hf : s.clock_ ≤ f) :
    let events := insertLast Due.time_ ⟨f, none⟩ (insertLast Due.time_ ⟨t, some p⟩ s.events)
    IsSorted Due.time_ events ∧ (∀ e ∈ events, s.clock_ ≤ e.time_) ∧
      (events.map Due.packet).Nodup := by
  refine ⟨(h.sorted.insertLast _).insertLast _, fun e he => ?_, ?_⟩
  · rcases mem_insertLast.mp he with rfl | he
    · exact hf
    rcases mem_insertLast.mp he with rfl | he
    · exact ht
    · exact h.clock_le e he
  · have hperm : (insertLast Due.time_ ⟨f, none⟩ (insertLast Due.time_ ⟨t, some p⟩ s.events)).Perm
        (⟨f, none⟩ :: ⟨t, some p⟩ :: s.events) :=
      (perm_insertLast _ _).trans ((perm_insertLast _ _).cons _)
    rw [(hperm.map Due.packet).nodup_iff]
    simp only [List.map_cons, List.nodup_cons, List.mem_cons, not_or]
    exact ⟨⟨nofun, hn⟩, hp, h.once⟩

/-- What `LinkDelay::recv` does. -/
structure Starts (c : Config δ π) (s : SimpleLink δ π) (p : π) (s' : SimpleLink δ π) (t : ℚ) : Prop where
  /-- The new state. -/
  state : s' = { s with
    events := insertLast Due.time_ ⟨s.clock_ + s.txtime c p, none⟩
      (insertLast Due.time_ ⟨t, some p⟩ s.events)
    latest_time_ := s'.latest_time_
    itq_ := s'.itq_ }
  /-- The packet arrives after the end of the transmission. -/
  txtime_le : s.clock_ + s.txtime c p ≤ t
  /-- The packets in transit. -/
  itq_ : s'.itq_ = if c.dynamic_ then s.itq_ ++ [(p, t)] else s.itq_
  /-- The time of arrival is as usual, or the packet is kept behind the ones before it. -/
  time : t = s.clock_ + (s.txtime c p + s.delay_) ∨ ((c.dynamic_ = false ∧ c.avoidReordering_ = true) ∧
    s.clock_ + (s.txtime c p + s.delay_) < s.latest_time_)
  /-- It is behind the ones before it. -/
  latest : c.dynamic_ = false → c.avoidReordering_ = true →
    s'.latest_time_ = t ∧ (s.latest_time_ ≤ t ∨ s.latest_time_ ≤ 0)

theorem Timed.delayRecv (h : Timed s) (hp : some p ∉ s.events.map Due.packet)
    (hn : none ∉ s.events.map Due.packet) :
    ∃ s' t, s.delayRecv c p = some s' ∧ Starts c s p s' t := by
  have hd := h.delay_
  have htx := h.txtime_nonneg (c := c) p
  -- once the arrival is scheduled, so is the end of the transmission
  have hsecond : ∀ t l q, SimpleLink.schedule
      { s with events := insertLast Due.time_ ⟨t, some p⟩ s.events, latest_time_ := l, itq_ := q }
      none (s.txtime c p) = some { s with
        events := insertLast Due.time_ ⟨s.clock_ + s.txtime c p, none⟩
          (insertLast Due.time_ ⟨t, some p⟩ s.events)
        latest_time_ := l
        itq_ := q } := by
    intro t l q
    rw [SimpleLink.schedule, if_neg]
    intro hin
    obtain ⟨e, he, hen⟩ := List.mem_map.mp hin
    rcases mem_insertLast.mp he with rfl | he
    · cases hen
    · exact hn (List.mem_map.mpr ⟨e, he, hen⟩)
  rw [SimpleLink.delayRecv, SimpleLink.scheduleArrival]
  by_cases hdyn : c.dynamic_ = true
  · rw [if_pos hdyn, SimpleLink.schedule, if_neg hp, Option.bind_some, hsecond]
    exact ⟨_, s.clock_ + (s.txtime c p + s.delay_), rfl, rfl, by linarith, by simp [hdyn], .inl rfl,
      fun hdyn' => absurd (hdyn.symm.trans hdyn') (by simp)⟩
  rw [if_neg hdyn]
  have hdyn' : c.dynamic_ = false := by simpa using hdyn
  by_cases hav : c.avoidReordering_ = true
  · rw [if_pos hav]
    by_cases hlate : s.txtime c p + s.delay_ < s.latest_time_ - s.clock_ ∧ s.latest_time_ > 0
    · have htime : s.clock_ + (s.latest_time_ + s.txtime c p - s.clock_) =
          s.latest_time_ + s.txtime c p := by ring
      rw [if_pos hlate, SimpleLink.schedule, if_neg hp, Option.bind_some, htime, hsecond]
      exact ⟨_, s.latest_time_ + s.txtime c p, rfl, rfl, by linarith, by simp [hdyn'],
        .inr ⟨⟨hdyn', hav⟩, by linarith⟩, fun _ _ => ⟨rfl, .inl (by linarith)⟩⟩
    · rw [if_neg hlate, SimpleLink.schedule, if_neg hp, Option.bind_some, hsecond]
      refine ⟨_, s.clock_ + (s.txtime c p + s.delay_), rfl, rfl, by linarith, by simp [hdyn'],
        .inl rfl, fun _ _ => ⟨add_assoc _ _ _, ?_⟩⟩
      rcases not_and_or.mp hlate with hlt | hpos
      · exact .inl (by linarith)
      · exact .inr (not_lt.mp hpos)
  · rw [if_neg hav, SimpleLink.schedule, if_neg hp, Option.bind_some, hsecond]
    exact ⟨_, s.clock_ + (s.txtime c p + s.delay_), rfl, rfl, by linarith, by simp [hdyn'], .inl rfl,
      fun _ hav' => absurd hav' hav⟩

/-! ## The packets -/

/-- Every packet is in one place, and the queue waits while a packet is transmitted. -/
structure Sound (c : Config δ π) (R : δ → List π → Prop) (log : Log π) (s : SimpleLink δ π) : Prop where
  /-- The events. -/
  timed : Timed s
  /-- No packet has arrived twice. -/
  fresh : log.received.Nodup
  /-- A packet that arrived is dropped, delivered, in transit or in the queue; a queue that does
  not wait is empty. -/
  held : ∃ xs, R s.queue xs ∧
    (log.dropped ++ log.delivered ++ s.transit ++ xs).Perm log.received ∧
    (s.blocked_ = false → xs = [])
  /-- While it does not wait, no packet is transmitted. -/
  idle : s.blocked_ = false → none ∉ s.events.map Due.packet
  /-- While it waits, one is. -/
  busy : c.unblock_on_resume_ = true → s.blocked_ = true → none ∈ s.events.map Due.packet
  /-- The packets in transit of a dynamic link only. -/
  itq_ : c.dynamic_ = false → s.itq_ = []

/-- The packets in transit are in the order in which they left the queue. -/
structure Ordered (c : Config δ π) (log : Log π) (s : SimpleLink δ π) : Prop where
  /-- The order. -/
  order : (log.delivered ++ s.transit).Sublist log.started
  /-- With `avoidReordering_` none of them is due after `latest_time_`. -/
  latest : c.dynamic_ = false → c.avoidReordering_ = true →
    ∀ e ∈ s.events, e.packet ≠ none → e.time_ ≤ s.latest_time_
  /-- Otherwise, none of them is due after one that starts when the link is free. -/
  delay : ¬ (c.dynamic_ = false ∧ c.avoidReordering_ = true) → ∀ e ∈ s.events, e.packet ≠ none →
    ∀ t, s.clock_ ≤ t → (∀ i ∈ s.events, i.packet = none → i.time_ ≤ t) → e.time_ ≤ t + s.delay_
  /-- A dynamic link knows them. -/
  itq_ : c.dynamic_ = true → s.itq_ = s.events.filterMap fun e => e.packet.map (·, e.time_)

variable {R : δ → List π → Prop} {log : Log π}

omit [DecidableEq π] in
theorem mem_transit : p ∈ s.transit ↔ some p ∈ s.events.map Due.packet := by
  rw [SimpleLink.transit, List.mem_filterMap, List.mem_map]

omit [DecidableEq π] in
/-- The packets in transit after a packet has left the queue. -/
theorem Starts.transit {s' : SimpleLink δ π} {t : ℚ} (h : Starts c s p s' t) :
    s'.transit.Perm (p :: s.transit) := by
  rw [h.state, SimpleLink.transit, filterMap_insertLast rfl]
  exact (perm_insertLast _ _).filterMap Due.packet

omit [DecidableEq π] in
/-- The packets in transit after one that is due last has left the queue. -/
theorem Starts.transit_eq {s' : SimpleLink δ π} {t : ℚ} (h : Starts c s p s' t)
    (hlast : ∀ e ∈ s.events, e.time_ ≤ t) : s'.transit = s.transit ++ [p] := by
  rw [h.state, SimpleLink.transit, filterMap_insertLast rfl, insertLast_eq_append hlast,
    List.filterMap_append]
  rfl

variable (log) in
/-- A packet that has been taken from the queue is transmitted. -/
theorem Sound.delayRecv (htimed : Timed s) (hblocked : s.blocked_ = true)
    (hidle : none ∉ s.events.map Due.packet) (hitq : c.dynamic_ = false → s.itq_ = [])
    {xs : List π} (hR : R s.queue xs) (hfresh : log.received.Nodup)
    (hheld : (log.dropped ++ log.delivered ++ s.transit ++ p :: xs).Perm log.received) :
    ∃ s' t, s.delayRecv c p = some s' ∧ Starts c s p s' t ∧
      Sound c R { log with started := log.started ++ [p] } s' := by
  have hp : some p ∉ s.events.map Due.packet := by
    rw [← mem_transit]
    intro hin
    have hnodup := hheld.nodup_iff.mpr hfresh
    exact (List.nodup_append.mp hnodup).2.2 p (List.mem_append_right _ hin) p List.mem_cons_self rfl
  obtain ⟨s', t, hs', hstarts⟩ := htimed.delayRecv (c := c) hp hidle
  have hclock : s.clock_ ≤ s.clock_ + s.txtime c p := by
    have := htimed.txtime_nonneg (c := c) p
    linarith
  obtain ⟨h1, h2, h3⟩ := htimed.insert₂ hp hidle (hclock.trans hstarts.txtime_le) hclock
  have hstate := hstarts.state
  refine ⟨s', t, hs', hstarts, ⟨?_, hfresh, ⟨xs, ?_, ?_, ?_⟩, ?_, ?_, ?_⟩⟩
  · rw [hstate]
    exact ⟨h1, h2, h3, htimed.nonneg, htimed.bandwidth_, htimed.delay_⟩
  · rw [hstate]
    exact hR
  · refine List.Perm.trans ?_ hheld
    simp only [List.append_assoc]
    refine List.Perm.append_left _ (List.Perm.append_left _ ?_)
    exact (hstarts.transit.append_right xs).trans List.perm_middle.symm
  · intro hb
    rw [hstate] at hb
    exact absurd (hblocked.symm.trans hb) (by simp)
  · intro hb
    rw [hstate] at hb
    exact absurd (hblocked.symm.trans hb) (by simp)
  · intro _ _
    rw [hstate]
    exact List.mem_map.mpr ⟨⟨s.clock_ + s.txtime c p, none⟩, mem_insertLast.mpr (.inl rfl), rfl⟩
  · intro hdyn
    rw [hstarts.itq_, hdyn, if_neg Bool.false_ne_true]
    exact hitq hdyn

omit [DecidableEq π] in
/-- It is due behind the others. -/
theorem Ordered.last (h : Ordered c log s) (htimed : Timed s) {s' : SimpleLink δ π} {t : ℚ}
    (hidle : none ∉ s.events.map Due.packet) (hstarts : Starts c s p s' t) :
    ∀ e ∈ s.events, e.time_ ≤ t := by
  intro e he
  have htx := htimed.txtime_nonneg (c := c) p
  have hpacket : e.packet ≠ none := fun hn => hidle (List.mem_map.mpr ⟨e, he, hn⟩)
  by_cases hmode : c.dynamic_ = false ∧ c.avoidReordering_ = true
  · have hlate := h.latest hmode.1 hmode.2 e he hpacket
    rcases (hstarts.latest hmode.1 hmode.2).2 with hle | hle
    · exact hlate.trans hle
    · have := hstarts.txtime_le
      have := htimed.nonneg
      linarith
  · have hfree := h.delay hmode e he hpacket s.clock_ le_rfl fun i hi hn =>
      absurd (List.mem_map.mpr ⟨i, hi, hn⟩) hidle
    have htime := hstarts.time.resolve_right fun hlate => hmode hlate.1
    linarith

omit [DecidableEq π] in
theorem Ordered.delayRecv (h : Ordered c log s) (htimed : Timed s) {s' : SimpleLink δ π} {t : ℚ}
    (hidle : none ∉ s.events.map Due.packet) (hstarts : Starts c s p s' t) :
    Ordered c { log with started := log.started ++ [p] } s' := by
  have hlast := h.last htimed hidle hstarts
  have hstate := hstarts.state
  have hevents : ∀ e ∈ s'.events, e.packet ≠ none → e = ⟨t, some p⟩ ∨ e ∈ s.events := by
    intro e he hpacket
    rw [hstate] at he
    rcases mem_insertLast.mp he with rfl | he
    · exact absurd rfl hpacket
    · exact mem_insertLast.mp he
  refine ⟨?_, fun hdyn hav e he hpacket => ?_, fun hmode e he hpacket u hu hi => ?_, fun hdyn => ?_⟩
  · rw [hstarts.transit_eq hlast, ← List.append_assoc]
    exact h.order.append (List.Sublist.refl [p])
  · obtain ⟨hlatest, -⟩ := hstarts.latest hdyn hav
    rw [hlatest]
    rcases hevents e he hpacket with rfl | he
    · exact le_rfl
    · exact hlast e he
  · have hclock : s'.clock_ = s.clock_ := by rw [hstate]
    have hdelay : s'.delay_ = s.delay_ := by rw [hstate]
    have hfree : s.clock_ + s.txtime c p ≤ u := by
      refine hi ⟨s.clock_ + s.txtime c p, none⟩ ?_ rfl
      rw [hstate]
      exact mem_insertLast.mpr (.inl rfl)
    rw [hdelay]
    rcases hevents e he hpacket with rfl | he
    · have htime := hstarts.time.resolve_right fun hlate => hmode hlate.1
      simp only
      linarith
    · rw [hclock] at hu
      exact h.delay hmode e he hpacket u hu fun i hi hn => absurd (List.mem_map.mpr ⟨i, hi, hn⟩) hidle
  · rw [hstarts.itq_, if_pos hdyn, hstate]
    simp only
    rw [filterMap_insertLast rfl, insertLast_eq_append hlast, List.filterMap_append, h.itq_ hdyn]
    rfl

end Ns2.Link
