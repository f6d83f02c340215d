import Ns2.Link.Conservation

/-!
# Links keep packets, and their order

* `Sound.recv`, `resume`, `deliver`, `reset` — what each step keeps.
* `Sound.step` — a step does not abort, unless a dynamic link has let packets overtake.
* `link_conserves` — no run of a link that is not dynamic aborts; every packet is in one place, and
  the queue waits exactly while a packet is transmitted.
* `link_keeps_order` — a link with `avoidReordering_`, or whose delay is never lowered, delivers
  the packets in the order in which they left the queue; if it is dynamic, its assertion holds.
-/

namespace Ns2.Link

open Stable Simulation

variable {δ π : Type*} [DecidableEq π] {c : Config δ π} {R : δ → List π → Prop} {log : Log π}
  {s : SimpleLink δ π} {p : π}

/-- Settings are possible ones. -/
def Input.Legal : Input π → Prop
  | .setBandwidth bandwidth_ => 0 < bandwidth_
  | .setDelay delay_ => 0 ≤ delay_
  | _ => True

/-- The delay that is set. -/
def Input.delay : Input π → Option ℚ
  | .setDelay delay_ => some delay_
  | _ => none

/-- The link avoids reordering, or the step does not lower its delay. -/
def KeepsOrder (c : Config δ π) (s : SimpleLink δ π) (x : Input π) : Prop :=
  (c.dynamic_ = false ∧ c.avoidReordering_ = true) ∨ ∀ d, x.delay = some d → s.delay_ ≤ d

/-- The step does not abort, and keeps what is known of the link. -/
def Proceeds (c : Config δ π) (R : δ → List π → Prop) (log : Log π) (s : SimpleLink δ π) (x : Input π) :
    Prop :=
  ∃ s' r, s.step c x = some (s', r) ∧ Sound c R (log.add x r) s' ∧
    (Ordered c log s → KeepsOrder c s x → Ordered c (log.add x r) s')

/-! ## Packets in the queue -/

/-- A packet takes the place of those that are dropped for it. -/
theorem perm_enque {dropped placed xs ys drops received : List π}
    (h : (dropped ++ placed ++ xs).Perm received) (hd : (drops ++ ys).Perm (p :: xs)) :
    (dropped ++ drops ++ placed ++ ys).Perm (received ++ [p]) := by
  rw [List.perm_iff_count] at h hd ⊢
  intro a
  have h1 := h a
  have h2 := hd a
  simp only [List.count_append, List.count_cons, List.count_nil] at h1 h2 ⊢
  omega

omit [DecidableEq π] in
theorem Timed.same (h : Timed s) {s' : SimpleLink δ π} (hclock : s'.clock_ = s.clock_)
    (hevents : s'.events = s.events) (hb : s'.bandwidth_ = s.bandwidth_) (hd : s'.delay_ = s.delay_) :
    Timed s' := by
  obtain ⟨h1, h2, h3, h4, h5, h6⟩ := h
  exact ⟨hevents ▸ h1, by rw [hclock, hevents]; exact h2, hevents ▸ h3, hclock ▸ h4, hb ▸ h5, hd ▸ h6⟩

/-- A packet arrives at the queue. -/
theorem Sound.recv (hL : Lawful c.discipline R) (h : Sound c R log s) (hp : p ∉ log.received) :
    Proceeds c R log s (.recv p) := by
  obtain ⟨xs, hR, hheld, hempty⟩ := h.held
  have hpxs : p ∉ xs := fun hin => hp (hheld.subset (List.mem_append_right _ hin))
  obtain ⟨ys, hR', hdrops⟩ := hL.enque s.queue xs p hR hpxs
  have hfresh : (log.received ++ [p]).Nodup := by
    rw [List.nodup_append]
    refine ⟨h.fresh, List.nodup_singleton p, fun a ha b hb hab => hp ?_⟩
    rwa [← List.mem_singleton.mp hb, ← hab]
  have hheld' : (log.dropped ++ (c.discipline.enque s.queue p).2 ++ (log.delivered ++ s.transit) ++
      ys).Perm (log.received ++ [p]) := by
    refine perm_enque ?_ hdrops
    rwa [← List.append_assoc]
  rw [← List.append_assoc] at hheld'
  simp only [Proceeds, SimpleLink.step, SimpleLink.recv]
  by_cases hb : s.blocked_ = true
  · rw [if_pos hb]
    refine ⟨_, _, rfl, ⟨h.timed.same rfl rfl rfl rfl, hfresh, ⟨ys, hR', ?_, fun hb' => ?_⟩, h.idle,
      h.busy, h.itq_⟩, fun ho _ => ?_⟩
    · simpa [Log.add, Input.packet, SimpleLink.transit] using hheld'
    · exact absurd (hb.symm.trans hb') (by simp)
    · refine ⟨?_, ho.latest, ho.delay, ho.itq_⟩
      simpa [Log.add, SimpleLink.transit] using ho.order
  rw [if_neg hb]
  have hb' : s.blocked_ = false := by simpa using hb
  cases hdeque : c.discipline.deque (c.discipline.enque s.queue p).1 with
  | mk q' out =>
    cases out with
    | none =>
      obtain ⟨rfl, hR''⟩ := hL.deque_none _ ys hR' (by rw [hdeque])
      rw [hdeque] at hR''
      refine ⟨_, _, rfl, ⟨h.timed.same rfl rfl rfl rfl, hfresh, ⟨[], hR'', ?_, fun _ => rfl⟩, h.idle,
        h.busy, h.itq_⟩, fun ho _ => ?_⟩
      · simpa [Log.add, Input.packet, SimpleLink.transit] using hheld'
      · refine ⟨?_, ho.latest, ho.delay, ho.itq_⟩
        simpa [Log.add, SimpleLink.transit] using ho.order
    | some p' =>
      obtain ⟨zs, hR'', hperm⟩ := hL.deque_some _ ys p' hR' (by rw [hdeque])
      rw [hdeque] at hR''
      obtain ⟨s', t, hs', hstarts, hsound⟩ := Sound.delayRecv
        (s := { s with queue := q', blocked_ := true })
        { log with
          received := log.received ++ [p]
          dropped := log.dropped ++ (c.discipline.enque s.queue p).2 }
        (h.timed.same rfl rfl rfl rfl) rfl (h.idle hb') h.itq_ hR'' hfresh
        ((hperm.append_left _).trans hheld')
      refine ⟨s', { dropped := (c.discipline.enque s.queue p).2, started := some p' }, ?_, ?_,
        fun ho _ => ?_⟩
      · simp only [SimpleLink.send, hs', Option.map_some]
      · simpa [Log.add, Input.packet] using hsound
      · have hready : Ordered c log { s with queue := q', blocked_ := true } :=
          ⟨ho.order, ho.latest, ho.delay, ho.itq_⟩
        have hord := hready.delayRecv (h.timed.same rfl rfl rfl rfl) (h.idle hb') hstarts
        exact ⟨by simpa [Log.add] using hord.order, hord.latest, hord.delay, hord.itq_⟩

/-! ## The events -/

omit [DecidableEq π] in
/-- The next event is dispatched. -/
theorem Timed.tail (h : Timed s) {e : Due π} {events : List (Due π)} (he : s.events = e :: events) :
    s.clock_ ≤ e.time_ ∧ Timed { s with clock_ := e.time_, events := events } ∧
      e.packet ∉ events.map Due.packet := by
  obtain ⟨h1, h2, h3, h4, h5, h6⟩ := h
  rw [he] at h1 h2 h3
  have hclock := h2 e List.mem_cons_self
  obtain ⟨hnot, hnodup⟩ := List.nodup_cons.mp h3
  refine ⟨hclock, ⟨h1.sublist (List.sublist_cons_self e events), ?_, hnodup, h4.trans hclock, h5, h6⟩, hnot⟩
  exact fun x hx => h1.head_le x (List.mem_cons_of_mem e hx)

omit [DecidableEq π] in
/-- The order of the packets when the next event is dispatched. -/
theorem Ordered.tail (h : Ordered c log s) (htimed : Timed s) {e : Due π} {events : List (Due π)}
    (he : s.events = e :: events) :
    (∀ i ∈ events, c.dynamic_ = false → c.avoidReordering_ = true → i.packet ≠ none →
      i.time_ ≤ s.latest_time_) ∧
    ∀ i ∈ events, ¬ (c.dynamic_ = false ∧ c.avoidReordering_ = true) → i.packet ≠ none →
      ∀ t, e.time_ ≤ t → (∀ j ∈ events, j.packet = none → j.time_ ≤ t) → i.time_ ≤ t + s.delay_ := by
  have hclock := (htimed.tail he).1
  refine ⟨fun i hi hdyn hav hn => h.latest hdyn hav i (by rw [he]; exact List.mem_cons_of_mem e hi) hn,
    fun i hi hmode hn t ht hfree => ?_⟩
  refine h.delay hmode i (by rw [he]; exact List.mem_cons_of_mem e hi) hn t (hclock.trans ht) ?_
  rw [he]
  intro j hj hjn
  rcases List.mem_cons.mp hj with rfl | hj
  · exact ht
  · exact hfree j hj hjn

/-- The transmission is over: the queue is resumed. -/
theorem Sound.resume (hL : Lawful c.discipline R) (h : Sound c R log s) {e : Due π}
    {events : List (Due π)} (he : s.events = e :: events) (hn : e.packet = none) :
    ∃ s' r, { s with clock_ := e.time_, events := events }.resume c = some (s', r) ∧
      Sound c R (log.add .dispatch r) s' ∧ (Ordered c log s → Ordered c (log.add .dispatch r) s') := by
  obtain ⟨xs, hR, hheld, -⟩ := h.held
  obtain ⟨hclock, htimed, hnot⟩ := h.timed.tail he
  rw [hn] at hnot
  have htransit : s.transit = events.filterMap Due.packet := by
    rw [SimpleLink.transit, he, List.filterMap_cons_none hn]
  have hblocked : s.blocked_ = true := by
    by_contra hb
    refine h.idle (by simpa using hb) ?_
    rw [he, List.map_cons, hn]
    exact List.mem_cons_self
  -- the queue as the end of the transmission finds it
  have hord : Ordered c log s → Ordered c log { s with clock_ := e.time_, events := events } := by
    intro ho
    obtain ⟨h1, h2⟩ := ho.tail h.timed he
    refine ⟨?_, fun hdyn hav i hi hin => h1 i hi hdyn hav hin, fun hmode i hi hin => h2 i hi hmode hin,
      fun hdyn => ?_⟩
    · rw [SimpleLink.transit, ← htransit]
      exact ho.order
    · have hitq := ho.itq_ hdyn
      rw [he, List.filterMap_cons_none (by rw [hn]; rfl)] at hitq
      exact hitq
  rw [htransit] at hheld
  simp only [SimpleLink.resume]
  cases hdeque : c.discipline.deque s.queue with
  | mk q' out =>
    cases out with
    | none =>
      obtain ⟨rfl, hR'⟩ := hL.deque_none _ xs hR (by rw [hdeque])
      rw [hdeque] at hR'
      refine ⟨_, _, rfl, ⟨htimed.same rfl rfl rfl rfl, ?_, ⟨[], hR', ?_, fun _ => rfl⟩, fun _ => hnot,
        fun hu hb => ?_, h.itq_⟩, fun ho => ?_⟩
      · simpa [Log.add, Input.packet] using h.fresh
      · simpa [Log.add, Input.packet, SimpleLink.transit] using hheld
      · simp [hu] at hb
      · obtain ⟨h1, h2, h3, h4⟩ := hord ho
        exact ⟨by simpa [Log.add, SimpleLink.transit] using h1, h2, h3, h4⟩
    | some p =>
      obtain ⟨ys, hR', hperm⟩ := hL.deque_some _ xs p hR (by rw [hdeque])
      rw [hdeque] at hR'
      obtain ⟨s', t, hs', hstarts, hsound⟩ := Sound.delayRecv
        (s := { s with clock_ := e.time_, events := events, queue := q' }) log
        (htimed.same rfl rfl rfl rfl) hblocked hnot h.itq_ hR' h.fresh
        ((hperm.append_left _).trans hheld)
      refine ⟨s', { started := some p }, ?_, ?_, fun ho => ?_⟩
      · simp only [SimpleLink.send, hs', Option.map_some]
      · simpa [Log.add, Input.packet] using hsound
      · obtain ⟨h1, h2, h3, h4⟩ := hord ho
        have hready : Ordered c log { s with clock_ := e.time_, events := events, queue := q' } :=
          ⟨h1, h2, h3, h4⟩
        have hord' := hready.delayRecv (htimed.same rfl rfl rfl rfl) hnot hstarts
        exact ⟨by simpa [Log.add] using hord'.order, hord'.latest, hord'.delay, hord'.itq_⟩

/-- A packet arrives at the next node. -/
theorem Sound.deliver (h : Sound c R log s) (ho : c.dynamic_ = true → Ordered c log s) {e : Due π}
    {events : List (Due π)} (he : s.events = e :: events) (hp : e.packet = some p) :
    ∃ s', SimpleLink.handle c { s with clock_ := e.time_, events := events } e =
        some (s', { delivered := some p }) ∧
      Sound c R (log.add .dispatch { delivered := some p }) s' ∧
      (Ordered c log s → Ordered c (log.add .dispatch { delivered := some p }) s') := by
  obtain ⟨xs, hR, hheld, hempty⟩ := h.held
  obtain ⟨hclock, htimed, -⟩ := h.timed.tail he
  have htransit : s.transit = p :: events.filterMap Due.packet := by
    rw [SimpleLink.transit, he, List.filterMap_cons_some hp]
  have hmem : ∀ x, x ∈ events.map Due.packet → x ∈ s.events.map Due.packet := by
    intro x hx
    rw [he]
    exact List.mem_cons_of_mem _ hx
  rw [htransit] at hheld
  -- the rest of the packets in transit, if the link is dynamic
  have hitq : c.dynamic_ = true → s.itq_ = (p, e.time_) ::
      events.filterMap fun e => e.packet.map (·, e.time_) := by
    intro hdyn
    rw [(ho hdyn).itq_ hdyn, he, List.filterMap_cons_some (by rw [hp]; rfl)]
  have hsound : ∀ itq_, (c.dynamic_ = false → itq_ = []) →
      Sound c R (log.add .dispatch { delivered := some p })
        { s with clock_ := e.time_, events := events, itq_ := itq_ } := by
    intro itq_ hitq_
    refine ⟨htimed.same rfl rfl rfl rfl, ?_, ⟨xs, hR, ?_, hempty⟩, fun hb hin => h.idle hb (hmem none hin),
      fun hu hb => ?_, hitq_⟩
    · simpa [Log.add, Input.packet] using h.fresh
    · simpa [Log.add, Input.packet, SimpleLink.transit] using hheld
    · have hbusy := h.busy hu hb
      rw [he, List.map_cons, hp] at hbusy
      exact (List.mem_cons.mp hbusy).resolve_left (Option.some_ne_none p).symm
  have hord : Ordered c log s → ∀ itq_, (c.dynamic_ = true →
      itq_ = events.filterMap fun e => e.packet.map (·, e.time_)) →
      Ordered c (log.add .dispatch { delivered := some p })
        { s with clock_ := e.time_, events := events, itq_ := itq_ } := by
    intro ho itq_ hitq_
    obtain ⟨h1, h2⟩ := ho.tail h.timed he
    refine ⟨?_, fun hdyn hav i hi hin => h1 i hi hdyn hav hin, fun hmode i hi hin => h2 i hi hmode hin,
      hitq_⟩
    have hsub := ho.order
    rw [htransit] at hsub
    simpa [Log.add, SimpleLink.transit] using hsub
  simp only [SimpleLink.handle, hp]
  by_cases hdyn : c.dynamic_ = true
  · rw [if_pos hdyn]
    simp only [SimpleLink.delayHandle, hitq hdyn, if_true, Option.map_some]
    exact ⟨_, rfl, hsound _ fun hd => absurd (hdyn.symm.trans hd) (by simp), fun ho' =>
      hord ho' _ fun _ => rfl⟩
  · rw [if_neg hdyn]
    exact ⟨_, rfl, hsound s.itq_ h.itq_, fun ho' => hord ho' s.itq_ fun hd => absurd hd hdyn⟩

theorem Sound.dispatch (hL : Lawful c.discipline R) (h : Sound c R log s)
    (ho : c.dynamic_ = true → Ordered c log s) : Proceeds c R log s .dispatch := by
  simp only [Proceeds, SimpleLink.step, SimpleLink.dispatch]
  cases he : s.events with
  | nil =>
    refine ⟨s, {}, rfl, ?_, fun ho' _ => ?_⟩
    · simpa [Log.add, Input.packet] using h
    · exact ⟨by simpa [Log.add] using ho'.order, ho'.latest, ho'.delay, ho'.itq_⟩
  | cons e events =>
    simp only [if_neg (not_lt.mpr (h.timed.tail he).1)]
    cases hp : e.packet with
    | none =>
      obtain ⟨s', r, hs', hsound, hord⟩ := h.resume hL he hp
      exact ⟨s', r, by simpa only [SimpleLink.handle, hp] using hs', hsound, fun ho' _ => hord ho'⟩
    | some p =>
      obtain ⟨s', hs', hsound, hord⟩ := h.deliver ho he hp
      exact ⟨s', _, hs', hsound, fun ho' _ => hord ho'⟩

/-! ## The rest -/

omit [DecidableEq π] in
theorem Timed.advance (h : Timed s) {t : ℚ} (ht : s.clock_ ≤ t) (hle : ∀ e ∈ s.events, t ≤ e.time_) :
    Timed { s with clock_ := t } :=
  ⟨h.sorted, hle, h.once, h.nonneg.trans ht, h.bandwidth_, h.delay_⟩

omit [DecidableEq π] in
/-- Nothing happens to the packets. -/
theorem Sound.same (h : Sound c R log s) {s' : SimpleLink δ π} {x : Input π} (hx : x.packet = none)
    (htimed : Timed s') (hevents : s'.events = s.events) (hqueue : s'.queue = s.queue)
    (hblocked : s'.blocked_ = s.blocked_) (hitq : s'.itq_ = s.itq_) : Sound c R (log.add x {}) s' := by
  obtain ⟨-, h2, h3, h4, h5, h6⟩ := h
  have hlog : log.add x {} = log := by simp [Log.add, hx]
  have htransit : s'.transit = s.transit := by rw [SimpleLink.transit, hevents, SimpleLink.transit]
  rw [hlog]
  refine ⟨htimed, h2, ?_, ?_, ?_, fun hdyn => hitq.trans (h6 hdyn)⟩
  · rwa [htransit, hqueue, hblocked]
  · rwa [hevents, hblocked]
  · rwa [hevents, hblocked]

omit [DecidableEq π] in
theorem Ordered.itq_packets (h : Ordered c log s) (hdyn : c.dynamic_ = true) :
    s.itq_.map Prod.fst = s.transit := by
  rw [h.itq_ hdyn, List.map_filterMap, SimpleLink.transit]
  refine List.filterMap_congr fun e _ => ?_
  cases e.packet with
  | none => rfl
  | some q => rfl

/-- The packets in transit are dropped. -/
theorem Sound.reset (h : Sound c R log s) (ho : c.dynamic_ = true → Ordered c log s) :
    Proceeds c R log s .reset := by
  obtain ⟨xs, hR, hheld, hempty⟩ := h.held
  have hsub := List.filter_sublist (p := fun e => decide (e.packet ∉ s.itq_.map fun p => some p.1))
    (l := s.events)
  -- the end of the transmission is not cancelled
  have hintr : none ∈ s.events.map Due.packet → none ∈
      (s.events.filter fun e => e.packet ∉ s.itq_.map fun p => some p.1).map Due.packet := by
    intro hin
    obtain ⟨e, he, hn⟩ := List.mem_map.mp hin
    exact List.mem_map.mpr ⟨e, List.mem_filter.mpr ⟨he, by simp [hn]⟩, hn⟩
  have hitq : s.transit = s.itq_.map Prod.fst ++
      (s.events.filter fun e => e.packet ∉ s.itq_.map fun p => some p.1).filterMap Due.packet := by
    by_cases hdyn : c.dynamic_ = true
    · have hall := (ho hdyn).itq_packets hdyn
      have hnone : (s.events.filter fun e => e.packet ∉ s.itq_.map fun p => some p.1).filterMap
          Due.packet = [] := by
        rw [List.filterMap_eq_nil_iff]
        intro e he
        obtain ⟨hin, hnot⟩ := List.mem_filter.mp he
        cases hp : e.packet with
        | none => rfl
        | some q =>
          have hq : q ∈ s.itq_.map Prod.fst := by
            rw [hall, SimpleLink.transit]
            exact List.mem_filterMap.mpr ⟨e, hin, hp⟩
          obtain ⟨r, hr, rfl⟩ := List.mem_map.mp hq
          rw [hp] at hnot
          exact (of_decide_eq_true hnot (List.mem_map.mpr ⟨r, hr, rfl⟩)).elim
      rw [hnone, List.append_nil, hall]
    · rw [h.itq_ (by simpa using hdyn)]
      simp [SimpleLink.transit]
  have htimed : Timed s.delayReset.1 :=
    ⟨h.timed.sorted.sublist hsub, fun e he => h.timed.clock_le e (hsub.subset he),
      h.timed.once.sublist (hsub.map Due.packet), h.timed.nonneg, h.timed.bandwidth_, h.timed.delay_⟩
  refine ⟨s.delayReset.1, s.delayReset.2, rfl, ⟨htimed, ?_, ⟨xs, hR, ?_, hempty⟩,
    fun hb hin => h.idle hb ((hsub.map Due.packet).subset hin), fun hu hb => hintr (h.busy hu hb),
    fun _ => rfl⟩, fun ho' _ => ⟨?_, fun hdyn hav e he => ho'.latest hdyn hav e (hsub.subset he), ?_, ?_⟩⟩
  · simpa [Log.add, Input.packet, SimpleLink.delayReset] using h.fresh
  · rw [hitq] at hheld
    rw [List.perm_iff_count] at hheld ⊢
    intro a
    have hcount := hheld a
    simp only [Log.add, Input.packet, SimpleLink.delayReset, SimpleLink.transit, Option.toList_none,
      List.append_nil, List.count_append] at hcount ⊢
    omega
  · have horder := ho'.order
    rw [hitq] at horder
    simp only [Log.add, SimpleLink.delayReset, SimpleLink.transit, Option.toList_none, List.append_nil]
    exact (((List.sublist_append_right _ _).append_left _)).trans horder
  · intro hmode e he hn t ht hfree
    refine ho'.delay hmode e (hsub.subset he) hn t ht fun i hi hin => ?_
    exact hfree i (List.mem_filter.mpr ⟨hi, by simp [hin]⟩) hin
  · intro hdyn
    have hnil := hitq
    rw [(ho hdyn).itq_packets hdyn, List.self_eq_append_right] at hnil
    simp only [SimpleLink.delayReset]
    rw [eq_comm, List.filterMap_eq_nil_iff]
    intro e he
    rw [List.filterMap_eq_nil_iff] at hnil
    rw [hnil e he]
    rfl

/-- **One step.** -/
theorem Sound.step (hL : Lawful c.discipline R) (h : Sound c R log s)
    (ho : c.dynamic_ = true → Ordered c log s) {x : Input π} (hx : x.Legal)
    (hfresh : ∀ p, x.packet = some p → p ∉ log.received) : Proceeds c R log s x := by
  -- steps that change nothing about the packets
  have hsame : ∀ s' : SimpleLink δ π, x.packet = none → s.step c x = some (s', {}) → Timed s' →
      s'.events = s.events → s'.queue = s.queue → s'.blocked_ = s.blocked_ → s'.itq_ = s.itq_ →
      s'.latest_time_ = s.latest_time_ → s.clock_ ≤ s'.clock_ →
      (KeepsOrder c s x → ¬ (c.dynamic_ = false ∧ c.avoidReordering_ = true) → s.delay_ ≤ s'.delay_) →
      Proceeds c R log s x := by
    intro s' hxp hstep htimed hevents hqueue hblocked hitq hlatest hclock hdelay
    refine ⟨s', {}, hstep, h.same hxp htimed hevents hqueue hblocked hitq, fun ho' hk => ⟨?_, ?_, ?_, ?_⟩⟩
    · have horder := ho'.order
      simpa [Log.add, SimpleLink.transit, hevents] using horder
    · rw [hevents, hlatest]
      exact ho'.latest
    · intro hmode e he hn t ht hfree
      rw [hevents] at he hfree
      have := ho'.delay hmode e he hn t (hclock.trans ht) hfree
      have := hdelay hk hmode
      linarith
    · rw [hevents, hitq]
      exact ho'.itq_
  cases x with
  | recv p => exact h.recv hL (hfresh p rfl)
  | dispatch => exact h.dispatch hL ho
  | advance t =>
    by_cases ht : s.clock_ ≤ t ∧ ∀ e ∈ s.events, t ≤ e.time_
    · exact hsame { s with clock_ := t } rfl (if_pos ht) (h.timed.advance ht.1 ht.2) rfl rfl rfl rfl rfl
        ht.1 fun _ _ => le_rfl
    · exact hsame s rfl (if_neg ht) h.timed rfl rfl rfl rfl rfl le_rfl fun _ _ => le_rfl
  | setBandwidth b =>
    have ht := h.timed
    exact hsame { s with bandwidth_ := b } rfl rfl
      ⟨ht.sorted, ht.clock_le, ht.once, ht.nonneg, hx, ht.delay_⟩ rfl rfl rfl rfl rfl le_rfl
      fun _ _ => le_rfl
  | setDelay d =>
    have ht := h.timed
    refine hsame { s with delay_ := d } rfl rfl
      ⟨ht.sorted, ht.clock_le, ht.once, ht.nonneg, ht.bandwidth_, hx⟩ rfl rfl rfl rfl rfl le_rfl ?_
    intro hk hmode
    exact hk.resolve_left hmode d rfl
  | reset => exact h.reset ho

/-! ## Runs -/

theorem delay_schedule {s' : SimpleLink δ π} {packet : Option π} {d : ℚ}
    (h : s.schedule packet d = some s') : s'.delay_ = s.delay_ := by
  rw [SimpleLink.schedule] at h
  split at h
  · cases h
  · obtain rfl := Option.some.inj h
    rfl

theorem delay_send {s' : SimpleLink δ π} {dropped : List π} {r : Report π}
    (h : s.send c p dropped = some (s', r)) : s'.delay_ = s.delay_ := by
  obtain ⟨s₂, h₂, heq⟩ := Option.map_eq_some_iff.mp h
  obtain ⟨rfl, -⟩ := Prod.mk.inj heq
  obtain ⟨s₁, h₁, h₂⟩ := Option.bind_eq_some_iff.mp h₂
  refine (delay_schedule h₂).trans ?_
  simp only [SimpleLink.scheduleArrival] at h₁
  split_ifs at h₁
  · exact (delay_schedule h₁ :)
  · exact (delay_schedule h₁ :)
  · exact (delay_schedule h₁ :)
  · exact (delay_schedule h₁ :)

theorem delay_handle {e : Due π} {s' : SimpleLink δ π} {r : Report π}
    (h : s.handle c e = some (s', r)) : s'.delay_ = s.delay_ := by
  simp only [SimpleLink.handle] at h
  split at h
  · simp only [SimpleLink.resume] at h
    split at h
    · exact (delay_send h :)
    · obtain ⟨rfl, -⟩ := Prod.mk.inj (Option.some.inj h)
      rfl
  split at h
  · obtain ⟨⟨s₁, q⟩, h₁, heq⟩ := Option.map_eq_some_iff.mp h
    obtain ⟨rfl, -⟩ := Prod.mk.inj heq
    simp only [SimpleLink.delayHandle] at h₁
    split at h₁
    · cases h₁
    split at h₁
    · obtain ⟨rfl, -⟩ := Prod.mk.inj (Option.some.inj h₁)
      rfl
    · cases h₁
  · obtain ⟨rfl, -⟩ := Prod.mk.inj (Option.some.inj h)
    rfl

/-- Only its setting changes the delay. -/
theorem delay_step {x : Input π} {s' : SimpleLink δ π} {r : Report π} (h : s.step c x = some (s', r)) :
    s'.delay_ = x.delay.getD s.delay_ := by
  cases x with
  | recv p =>
    simp only [SimpleLink.step, SimpleLink.recv] at h
    split at h
    · obtain ⟨rfl, -⟩ := Prod.mk.inj (Option.some.inj h)
      rfl
    split at h
    · exact (delay_send h :)
    · obtain ⟨rfl, -⟩ := Prod.mk.inj (Option.some.inj h)
      rfl
  | dispatch =>
    simp only [SimpleLink.step, SimpleLink.dispatch] at h
    split at h
    · obtain ⟨rfl, -⟩ := Prod.mk.inj (Option.some.inj h)
      rfl
    split at h
    · cases h
    · exact (delay_handle h :)
  | advance t =>
    simp only [SimpleLink.step] at h
    split at h
    · obtain ⟨rfl, -⟩ := Prod.mk.inj (Option.some.inj h)
      rfl
    · obtain ⟨rfl, -⟩ := Prod.mk.inj (Option.some.inj h)
      rfl
  | setBandwidth b =>
    obtain ⟨rfl, -⟩ := Prod.mk.inj (Option.some.inj h)
    rfl
  | setDelay d =>
    obtain ⟨rfl, -⟩ := Prod.mk.inj (Option.some.inj h)
    rfl
  | reset =>
    obtain ⟨rfl, -⟩ := Prod.mk.inj (Option.some.inj h)
    rfl

/-- A run of a link: what is known of it at the end. -/
theorem Sound.run (hL : Lawful c.discipline R) (inputs : List (Input π)) {s : SimpleLink δ π}
    {log : Log π} (h : Sound c R log s) (hx : ∀ x ∈ inputs, x.Legal)
    (hfresh : (log.received ++ inputs.filterMap Input.packet).Nodup)
    (ho : c.dynamic_ = true → Ordered c log s)
    (hk : c.dynamic_ = true → (s.delay_ :: inputs.filterMap Input.delay).Pairwise (· ≤ ·)) :
    ∃ s' reports, run (SimpleLink.step c) s inputs = some (s', reports) ∧
      Sound c R (log.after inputs reports) s' ∧
      (log.after inputs reports).received = log.received ++ inputs.filterMap Input.packet ∧
      (Ordered c log s → ((c.dynamic_ = false ∧ c.avoidReordering_ = true) ∨
        (s.delay_ :: inputs.filterMap Input.delay).Pairwise (· ≤ ·)) →
        Ordered c (log.after inputs reports) s') := by
  induction inputs generalizing s log with
  | nil => exact ⟨s, [], rfl, h, by simp [Log.after], fun ho' _ => ho'⟩
  | cons x inputs ih =>
    have hdelays : (s.delay_ :: (x :: inputs).filterMap Input.delay).Pairwise (· ≤ ·) →
        ∀ d, x.delay = some d → s.delay_ ≤ d := by
      intro hpair d hd
      rw [List.filterMap_cons_some hd] at hpair
      exact (List.pairwise_cons.mp hpair).1 d List.mem_cons_self
    have hpackets : (log.received ++ x.packet.toList) ++ inputs.filterMap Input.packet =
        log.received ++ (x :: inputs).filterMap Input.packet := by
      cases hp : x.packet with
      | none => simp [List.filterMap_cons_none hp]
      | some p => simp [List.filterMap_cons_some hp]
    obtain ⟨s₁, r, hs₁, hsound, hord⟩ := h.step hL ho (hx x List.mem_cons_self) fun p hp hin => by
      rw [List.filterMap_cons_some hp] at hfresh
      exact (List.nodup_append.mp hfresh).2.2 p hin p List.mem_cons_self rfl
    have hdelay : s₁.delay_ = x.delay.getD s.delay_ := delay_step hs₁
    have hrest : (s.delay_ :: (x :: inputs).filterMap Input.delay).Pairwise (· ≤ ·) →
        (s₁.delay_ :: inputs.filterMap Input.delay).Pairwise (· ≤ ·) := by
      intro hpair
      rw [hdelay]
      cases hd : x.delay with
      | none => rwa [List.filterMap_cons_none hd] at hpair
      | some d =>
        rw [List.filterMap_cons_some hd] at hpair
        exact (List.pairwise_cons.mp hpair).2
    obtain ⟨s₂, reports, hs₂, hsound₂, hreceived, hord₂⟩ := ih hsound
      (fun y hy => hx y (List.mem_cons_of_mem x hy)) (by rw [Log.add, hpackets]; exact hfresh)
      (fun hdyn => hord (ho hdyn) (.inr (hdelays (hk hdyn)))) (fun hdyn => hrest (hk hdyn))
    refine ⟨s₂, r :: reports, ?_, hsound₂, ?_, fun ho' hmode => ?_⟩
    · rw [Simulation.run, hs₁, Option.bind_some, hs₂]
      rfl
    · exact hreceived.trans hpackets
    · exact hord₂ (hord ho' (hmode.imp id hdelays)) (hmode.imp id hrest)

omit [DecidableEq π] in
theorem sound_new (c : Config δ π) {queue : δ} {bandwidth_ delay_ : ℚ} (hq : R queue [])
    (hb : 0 < bandwidth_) (hd : 0 ≤ delay_) :
    Sound c R {} (SimpleLink.new queue bandwidth_ delay_ : SimpleLink δ π) := by
  refine ⟨⟨List.Pairwise.nil, by simp [SimpleLink.new], List.nodup_nil, le_rfl, hb, hd⟩, List.nodup_nil,
    ⟨[], hq, List.Perm.nil, fun _ => rfl⟩, by simp [SimpleLink.new], by simp [SimpleLink.new],
    fun _ => rfl⟩

omit [DecidableEq π] in
theorem ordered_new (c : Config δ π) (queue : δ) (bandwidth_ delay_ : ℚ) :
    Ordered c {} (SimpleLink.new queue bandwidth_ delay_ : SimpleLink δ π) := by
  refine ⟨List.Sublist.refl _, ?_, ?_, fun _ => rfl⟩
  · simp [SimpleLink.new]
  · simp [SimpleLink.new]

omit [DecidableEq π] in
/-- The log of a run that starts with an empty one. -/
theorem after_eq {inputs : List (Input π)} {reports : List (Report π)}
    (hlen : reports.length = inputs.length) (l : Log π) : l.after inputs reports =
      ⟨l.received ++ inputs.filterMap Input.packet, l.dropped ++ reports.flatMap Report.dropped,
        l.started ++ reports.filterMap Report.started,
        l.delivered ++ reports.filterMap Report.delivered⟩ := by
  induction inputs generalizing l reports with
  | nil =>
    obtain rfl := List.length_eq_zero_iff.mp hlen
    simp [Log.after]
  | cons x inputs ih =>
    cases reports with
    | nil => simp at hlen
    | cons r reports =>
      have hrest := ih (l := l.add x r) (Nat.succ.inj hlen)
      rw [Log.after, List.zip_cons_cons, List.foldl_cons]
      refine hrest.trans ?_
      cases hp : x.packet <;> cases hs : r.started <;> cases hd : r.delivered <;>
        simp [Log.add, hp, hs, hd]

/-- **A link loses no packet.**  Whatever packets arrive and however bandwidth and delay change, no
run of a link that is not dynamic aborts: `intr_` is never scheduled a second time.  Every packet
that arrived has been dropped by the queue, is delivered, in transit or in the queue, and in one of
these only.  The queue waits exactly while a packet is being transmitted, and is empty otherwise. -/
theorem link_conserves (hL : Lawful c.discipline R) (hdyn : c.dynamic_ = false)
    (hunblock : c.unblock_on_resume_ = true) {queue : δ} {bandwidth_ delay_ : ℚ} (hq : R queue [])
    (hb : 0 < bandwidth_) (hd : 0 ≤ delay_) (inputs : List (Input π)) (hx : ∀ x ∈ inputs, x.Legal)
    (hfresh : (inputs.filterMap Input.packet).Nodup) :
    ∃ s reports xs, run (SimpleLink.step c) (SimpleLink.new queue bandwidth_ delay_) inputs =
        some (s, reports) ∧ R s.queue xs ∧
      (reports.flatMap Report.dropped ++ reports.filterMap Report.delivered ++ s.transit ++ xs).Perm
        (inputs.filterMap Input.packet) ∧
      (s.blocked_ = true ↔ none ∈ s.events.map Due.packet) ∧ (s.blocked_ = false → xs = []) := by
  have hstatic : ∀ {P : Prop}, c.dynamic_ = true → P := fun h => absurd (hdyn.symm.trans h) (by simp)
  obtain ⟨s, reports, hrun, hsound, -, -⟩ := (sound_new c hq hb hd).run hL inputs hx hfresh
    (fun h => hstatic h) (fun h => hstatic h)
  obtain ⟨xs, hR, hheld, hempty⟩ := hsound.held
  rw [after_eq (length_run hrun)] at hheld
  refine ⟨s, reports, xs, hrun, hR, hheld, ⟨hsound.busy hunblock, fun hin => ?_⟩, hempty⟩
  by_contra hfree
  exact hsound.idle (by simpa using hfree) hin

/-- **A link keeps the order of its packets**, if it is not dynamic and avoids reordering, or if
its delay is never lowered; bandwidth may change.  Then the packets are delivered in the order in
which they left the queue, whatever else happens; and the assertion of a dynamic link, that the
packet that arrives is the first one of those in transit, does not fail in any run. -/
theorem link_keeps_order (hL : Lawful c.discipline R) {queue : δ} {bandwidth_ delay_ : ℚ}
    (hq : R queue []) (hb : 0 < bandwidth_) (hd : 0 ≤ delay_) (inputs : List (Input π))
    (hx : ∀ x ∈ inputs, x.Legal) (hfresh : (inputs.filterMap Input.packet).Nodup)
    (hmode : (c.dynamic_ = false ∧ c.avoidReordering_ = true) ∨
      (delay_ :: inputs.filterMap Input.delay).Pairwise (· ≤ ·)) :
    ∃ s reports, run (SimpleLink.step c) (SimpleLink.new queue bandwidth_ delay_) inputs =
        some (s, reports) ∧
      (reports.filterMap Report.delivered ++ s.transit).Sublist (reports.filterMap Report.started) := by
  have hnew := ordered_new c queue bandwidth_ delay_
  obtain ⟨s, reports, hrun, hsound, -, hord⟩ := (sound_new c hq hb hd).run hL inputs hx hfresh
    (fun _ => hnew) (fun hdyn => hmode.resolve_left fun h => by simp [hdyn] at h)
  have horder := (hord hnew hmode).order
  rw [after_eq (length_run hrun)] at horder
  exact ⟨s, reports, hrun, horder⟩

end Ns2.Link
