import Ns2.Common.Simulator
import Ns2.Lib.Agenda

/-!
# The queue holds the jobs of an agenda

* `Notice.action` — what a step of the simulator does to the agenda of its jobs.
* `Filed` — the queue holds the jobs that are due.
* `Filed.schedule`, `cancel`, `deque` — what each request to the queue keeps.
-/

namespace Ns2.Common

open Stable Agenda

variable {ι : Type*} [DecidableEq ι]

/-- What a step does to the agenda. -/
def Notice.action : Notice ι → Option (Action (Job ι) ℚ)
  | .quiet => none
  | .restarted => some (.turnBack 0)
  | .refused => none
  | .scheduled j time_ => some (.set j time_)
  | .cancelled i => some (.clear (.timer i))
  | .dispatched j time_ => some (.expire j time_)

/-- The queue holds the jobs of an agenda. -/
structure Filed (clock_ : ℚ) (sched : Numbered (List Event)) (handler_ : ℤ → Option (Handler ι))
    (a : Agenda (Job ι) ℚ) : Prop where
  /-- The clock. -/
  clock : a.clock = clock_
  /-- The next event has the number of the next setting. -/
  next : a.next = sched.uid_
  /-- The order of the queue. -/
  inOrder : InOrder sched
  /-- The numbers in use are positive. -/
  pos : 0 < sched.uid_ ∧ ∀ e ∈ sched.queue, 0 < e.uid_
  /-- The jobs that are due. -/
  due : ∀ k t n, a.due k = some (t, n) ↔ ⟨n, t⟩ ∈ sched.queue ∧ (handler_ n).map (·.job n) = some k
  /-- Every event has a handler. -/
  handled : ∀ e ∈ sched.queue, (handler_ e.uid_).isSome

namespace Filed

variable {clock_ : ℚ} {sched : Numbered (List Event)} {handler_ : ℤ → Option (Handler ι)}
  {a : Agenda (Job ι) ℚ}

omit [DecidableEq ι] in
theorem nodup (h : Filed clock_ sched handler_ a) : sched.queue.Nodup :=
  h.inOrder.ordered.imp fun hxy => hxy.ne

omit [DecidableEq ι] in
/-- A job has one event at most. -/
theorem event_unique (h : Filed clock_ sched handler_ a) {e e' : Event} {k : Job ι}
    (he : e ∈ sched.queue) (he' : e' ∈ sched.queue) (hk : (handler_ e.uid_).map (·.job e.uid_) = some k)
    (hk' : (handler_ e'.uid_).map (·.job e'.uid_) = some k) : e = e' := by
  have h1 := (h.due k e.time_ e.uid_).mpr ⟨he, hk⟩
  have h2 := (h.due k e'.time_ e'.uid_).mpr ⟨he', hk'⟩
  rw [h1] at h2
  simp only [Option.some.injEq, Prod.mk.injEq] at h2
  rcases e with ⟨u, t⟩
  rcases e' with ⟨u', t'⟩
  rw [Event.mk.injEq]
  exact ⟨h2.2, h2.1⟩

/-- A job that is not due is scheduled. -/
theorem schedule (h : Filed clock_ sched handler_ a) (hd : Handler ι) (t : ℚ)
    (hnone : a.due (hd.job sched.uid_) = none) :
    Filed clock_ ⟨sched.uid_ + 1, ListScheduler.insert sched.queue ⟨sched.uid_, t⟩⟩
      (Function.update handler_ sched.uid_ (some hd)) (a.act (.set (hd.job sched.uid_) t)) := by
  have hmem : ∀ x, x ∈ ListScheduler.insert sched.queue ⟨sched.uid_, t⟩ ↔
      x = ⟨sched.uid_, t⟩ ∨ x ∈ sched.queue := by
    intro x
    obtain ⟨A, B, hl, hins, -, -⟩ := ListScheduler.insert_split h.inOrder.sorted ⟨sched.uid_, t⟩
    rw [hins, hl, List.mem_append, List.mem_cons, List.mem_append]
    tauto
  have hold : ∀ e ∈ sched.queue, e.uid_ ≠ sched.uid_ := fun e he => (h.inOrder.fresh e he).ne
  refine ⟨h.clock, ?_, h.inOrder.insert t, ⟨?_, ?_⟩, ?_, ?_⟩
  · simp only [act, h.next]
  · have := h.pos.1
    simp only
    omega
  · intro e he
    rcases (hmem e).mp he with rfl | he
    · exact h.pos.1
    · exact h.pos.2 e he
  · intro k u n
    simp only [hmem, act, h.next]
    by_cases hn : n = sched.uid_
    · subst hn
      rw [Function.update_self]
      have hnew : (⟨sched.uid_, u⟩ : Event) ∉ sched.queue := fun hin => hold _ hin rfl
      by_cases hk : k = hd.job sched.uid_
      · subst hk
        simp [hnew, eq_comm]
      · rw [Function.update_of_ne hk, h.due]
        simp [hnew, Ne.symm hk]
    · rw [Function.update_of_ne hn]
      have hne : (⟨n, u⟩ : Event) ≠ ⟨sched.uid_, t⟩ := fun heq => hn (congrArg Event.uid_ heq)
      by_cases hk : k = hd.job sched.uid_
      · subst hk
        rw [Function.update_self]
        have hno := h.due (hd.job sched.uid_) u n
        rw [hnone] at hno
        simp only [reduceCtorEq, false_iff] at hno
        simp only [hne, false_or, hno, iff_false, Option.some.injEq, Prod.mk.injEq, not_and]
        exact fun _ heq => hn heq.symm
      · rw [Function.update_of_ne hk, h.due]
        simp [hne]
  · intro e he
    rcases (hmem e).mp he with rfl | he
    · simp
    · rw [Function.update_of_ne (hold e he)]
      exact h.handled e he

/-- The event of a job leaves the queue, and the clock may advance. -/
theorem remove (h : Filed clock_ sched handler_ a) (c : ℚ) {e : Event} {k : Job ι} {l : List Event}
    (he : e ∈ sched.queue) (hk : (handler_ e.uid_).map (·.job e.uid_) = some k)
    (hl : l.Sublist sched.queue) (hmem : ∀ x, x ∈ l ↔ x ≠ e ∧ x ∈ sched.queue) :
    Filed c ⟨sched.uid_, l⟩ handler_ ⟨c, a.next, Function.update a.due k none⟩ := by
  refine ⟨rfl, h.next, h.inOrder.sublist hl, ⟨h.pos.1, fun x hx => h.pos.2 x (hl.subset hx)⟩,
    fun j t n => ?_, fun x hx => h.handled x (hl.subset hx)⟩
  by_cases hj : j = k
  · subst hj
    simp only [Function.update_self]
    refine iff_of_false (by simp) ?_
    rintro ⟨hx, hjob⟩
    obtain ⟨hne, hx⟩ := (hmem _).mp hx
    exact hne (h.event_unique hx he hjob hk)
  · simp only [Function.update_of_ne hj, h.due]
    refine and_congr_left fun hjob => ⟨fun hx => (hmem _).mpr ⟨?_, hx⟩, fun hx => ((hmem _).mp hx).2⟩
    rintro rfl
    exact hj (Option.some.inj (hjob.symm.trans hk))

/-- The event of a job that is due is cancelled. -/
theorem cancel (h : Filed clock_ sched handler_ a) {k : Job ι} {t : ℚ} {n : ℤ}
    (hdue : a.due k = some (t, n)) :
    ListScheduler.serve sched (.cancel ⟨n, t⟩) =
        some (⟨sched.uid_, sched.queue.erase ⟨n, t⟩⟩, some ⟨-n, t⟩) ∧
      Filed clock_ ⟨sched.uid_, sched.queue.erase ⟨n, t⟩⟩ handler_ (a.act (.clear k)) := by
  obtain ⟨hmem, hk⟩ := (h.due k t n).mp hdue
  have hpos : ¬ n ≤ 0 := not_le.mpr (h.pos.2 _ hmem)
  refine ⟨by simp [ListScheduler.serve, ListScheduler.cancel, hpos, hmem], ?_⟩
  obtain rfl := h.clock
  exact h.remove a.clock hmem hk List.erase_sublist fun x => h.nodup.mem_erase_iff

omit [DecidableEq ι] in
/-- The event at the head of the queue is that of the first job. -/
theorem isFirst (h : Filed clock_ sched handler_ a) {e : Event} {l : List Event} {k : Job ι}
    (hq : sched.queue = e :: l) (hk : (handler_ e.uid_).map (·.job e.uid_) = some k) :
    a.IsFirst k e.time_ := by
  refine ⟨e.uid_, (h.due k _ _).mpr ⟨hq ▸ List.mem_cons_self, hk⟩, fun j t n hj => ?_⟩
  obtain ⟨hmem, -⟩ := (h.due j t n).mp hj
  have hord := h.inOrder.ordered
  rw [hq] at hmem hord
  rcases List.mem_cons.mp hmem with heq | hmem
  · exact .inr ⟨congrArg Event.time_ heq.symm, (congrArg Event.uid_ heq.symm).le⟩
  · rcases (List.pairwise_cons.mp hord).1 _ hmem with hlt | ⟨heq, hlt⟩
    · exact .inl hlt
    · exact .inr ⟨heq, hlt.le⟩

/-- The event at the head of the queue leaves it, and the clock advances. -/
theorem deque (h : Filed clock_ sched handler_ a) {e : Event} {l : List Event} {k : Job ι}
    (hq : sched.queue = e :: l) (hk : (handler_ e.uid_).map (·.job e.uid_) = some k) :
    Filed e.time_ ⟨sched.uid_, l⟩ handler_ (a.act (.expire k e.time_)) := by
  have hnodup := h.nodup
  rw [hq] at hnodup
  refine h.remove e.time_ (hq ▸ List.mem_cons_self) hk (hq ▸ List.sublist_cons_self e l) fun x => ?_
  rw [hq, List.mem_cons]
  constructor
  · intro hx
    exact ⟨fun heq => (List.nodup_cons.mp hnodup).1 (heq ▸ hx), .inr hx⟩
  · rintro ⟨hne, hx⟩
    exact hx.resolve_left hne

end Filed

end Ns2.Common
