import Mathlib
import Ns2.Lib.Run

/-!
# Agendas

An agenda is what a collection of timers is for: each job is set to a time or not, and the next
one to expire is the one with the earliest time, among those of one time the one that was set
first.

* `Agenda.act`, `Agenda.Allows` — what an action does, and when it is possible.
* `Agenda.Valid` — the runs all of whose actions are possible.
* `Valid.timely` — no job is due before the clock.
* `Valid.set_of_expire` — a job expires at the time of its last setting, and only once.
* `Valid.due_of_set` — until something happens to it, a job is due, and not before the clock.
-/

/-- Jobs `κ`, set to times `T`. -/
structure Agenda (κ T : Type*) where
  /-- The time of the last expiry. -/
  clock : T
  /-- Number of the next setting. -/
  next : ℤ
  /-- When a job is due, with the number of its setting. -/
  due : κ → Option (T × ℤ)

namespace Agenda

variable {κ T : Type*}

/-- What is done to an agenda. -/
inductive Action (κ T : Type*) where
  /-- A job is set to a time. -/
  | set (k : κ) (t : T)
  /-- A job is not due any more. -/
  | clear (k : κ)
  /-- A job expires. -/
  | expire (k : κ) (t : T)
  /-- The clock goes back. -/
  | turnBack (t : T)

/-- The job an action is about. -/
def Action.job : Action κ T → Option κ
  | .set k _ => some k
  | .clear k => some k
  | .expire k _ => some k
  | .turnBack _ => none

/-- An agenda with no job. -/
def empty (clock : T) (next : ℤ) : Agenda κ T := ⟨clock, next, fun _ => none⟩

variable [DecidableEq κ]

/-- An action. -/
def act (a : Agenda κ T) : Action κ T → Agenda κ T
  | .set k t => { a with next := a.next + 1, due := Function.update a.due k (some (t, a.next)) }
  | .clear k => { a with due := Function.update a.due k none }
  | .expire k t => { a with clock := t, due := Function.update a.due k none }
  | .turnBack t => { a with clock := t }

variable {a : Agenda κ T} {l : List (Action κ T)}

theorem due_act_of_job_ne {k : κ} {x : Action κ T} (h : x.job ≠ some k) :
    (a.act x).due k = a.due k := by
  cases x with
  | set j t => exact Function.update_of_ne (fun hk => h (congrArg some hk.symm)) _ _
  | clear j => exact Function.update_of_ne (fun hk => h (congrArg some hk.symm)) _ _
  | expire j t => exact Function.update_of_ne (fun hk => h (congrArg some hk.symm)) _ _
  | turnBack t => rfl

theorem due_foldl_of_job_ne {k : κ} (h : ∀ x ∈ l, x.job ≠ some k) (a : Agenda κ T) :
    (l.foldl act a).due k = a.due k := by
  induction l generalizing a with
  | nil => rfl
  | cons x l ih =>
    rw [List.foldl_cons, ih (fun y hy => h y (List.mem_cons_of_mem x hy)),
      due_act_of_job_ne (h x List.mem_cons_self)]

/-- A job that is due was set to its time, and nothing has happened to it since. -/
theorem set_of_due {k : κ} {t : T} {n : ℤ} (hnone : a.due k = none)
    (h : (l.foldl act a).due k = some (t, n)) :
    ∃ l₁ l₂, l = l₁ ++ .set k t :: l₂ ∧ ∀ x ∈ l₂, x.job ≠ some k := by
  induction l using List.reverseRecOn with
  | nil =>
    rw [List.foldl_nil, hnone] at h
    cases h
  | append_singleton l x ih =>
    rw [List.foldl_append, List.foldl_cons, List.foldl_nil] at h
    by_cases hx : x.job = some k
    · -- only a setting makes the job due
      refine ⟨l, [], ?_, fun _ hy => absurd hy List.not_mem_nil⟩
      cases x with
      | set j u =>
        obtain rfl := Option.some.inj hx
        simp only [act, Function.update_self, Option.some.injEq, Prod.mk.injEq] at h
        rw [h.1]
      | clear j =>
        obtain rfl := Option.some.inj hx
        simp [act] at h
      | expire j u =>
        obtain rfl := Option.some.inj hx
        simp [act] at h
      | turnBack u => cases hx
    · rw [due_act_of_job_ne hx] at h
      obtain ⟨l₁, l₂, rfl, hl₂⟩ := ih h
      refine ⟨l₁, l₂ ++ [x], by simp, fun y hy => ?_⟩
      rcases List.mem_append.mp hy with hy | hy
      · exact hl₂ y hy
      · rw [List.mem_singleton.mp hy]
        exact hx

/-! ## Possible actions -/

variable [LinearOrder T]

omit [DecidableEq κ] in
/-- The job is due at that time, and no other one is due before it or was set before it to
the same time. -/
def IsFirst (a : Agenda κ T) (k : κ) (t : T) : Prop :=
  ∃ n, a.due k = some (t, n) ∧ ∀ k' t' n', a.due k' = some (t', n') → t < t' ∨ t = t' ∧ n ≤ n'

omit [DecidableEq κ] in
/-- An action is possible. -/
def Allows (a : Agenda κ T) : Action κ T → Prop
  | .set _ t => a.clock ≤ t
  | .clear _ => True
  | .expire k t => a.IsFirst k t
  | .turnBack t => t ≤ a.clock

/-- All actions of the run are possible. -/
def Valid (a : Agenda κ T) (l : List (Action κ T)) : Prop := Run.AllSteps act Allows a l

/-- No job is due before the clock, and all settings have their number. -/
structure Timely (a : Agenda κ T) : Prop where
  /-- The times. -/
  clock_le : ∀ k t n, a.due k = some (t, n) → a.clock ≤ t
  /-- The numbers. -/
  lt_next : ∀ k t n, a.due k = some (t, n) → n < a.next

omit [DecidableEq κ] in
theorem timely_empty (clock : T) (next : ℤ) : Timely (empty clock next : Agenda κ T) :=
  ⟨fun _ _ _ h => by simp [empty] at h, fun _ _ _ h => by simp [empty] at h⟩

/-- One action keeps the order of the clock and the due times. -/
theorem Timely.act (h : a.Timely) {x : Action κ T} (hx : a.Allows x) : (a.act x).Timely := by
  cases x with
  | set j u =>
    constructor
    · intro k t n hk
      by_cases hkj : k = j
      · subst hkj
        simp only [Agenda.act, Function.update_self, Option.some.injEq, Prod.mk.injEq] at hk
        obtain ⟨rfl, rfl⟩ := hk
        exact hx
      · simp only [Agenda.act, Function.update_of_ne hkj] at hk
        exact h.clock_le k t n hk
    · intro k t n hk
      by_cases hkj : k = j
      · subst hkj
        simp only [Agenda.act, Function.update_self, Option.some.injEq, Prod.mk.injEq] at hk
        obtain ⟨rfl, rfl⟩ := hk
        exact lt_add_one a.next
      · simp only [Agenda.act, Function.update_of_ne hkj] at hk
        exact (h.lt_next k t n hk).trans (lt_add_one a.next)
  | clear j =>
    have hdue : ∀ k t n, (a.act (.clear j)).due k = some (t, n) → a.due k = some (t, n) := by
      intro k t n hk
      by_cases hkj : k = j
      · simp [Agenda.act, hkj] at hk
      · simpa only [Agenda.act, Function.update_of_ne hkj] using hk
    exact ⟨fun k t n hk => h.clock_le k t n (hdue k t n hk),
      fun k t n hk => h.lt_next k t n (hdue k t n hk)⟩
  | expire j u =>
    obtain ⟨m, -, hmin⟩ := hx
    have hdue : ∀ k t n, (a.act (.expire j u)).due k = some (t, n) → a.due k = some (t, n) := by
      intro k t n hk
      by_cases hkj : k = j
      · simp [Agenda.act, hkj] at hk
      · simpa only [Agenda.act, Function.update_of_ne hkj] using hk
    refine ⟨fun k t n hk => ?_, fun k t n hk => h.lt_next k t n (hdue k t n hk)⟩
    rcases hmin k t n (hdue k t n hk) with hlt | ⟨heq, -⟩
    · exact hlt.le
    · exact heq.le
  | turnBack t => exact ⟨fun k u n hk => hx.trans (h.clock_le k u n hk), h.lt_next⟩

/-- **No job is due before the clock.** -/
theorem Valid.timely (hl : a.Valid l) (h : a.Timely) : (l.foldl act a).Timely :=
  Run.foldl_invariant (I := fun _ a => a.Timely) (fun _ _ _ h hx => h.act hx) l [] a h hl

/-- **A job expires at the time of its last setting.**  Between the setting and the expiry
nothing else happens to the job. -/
theorem Valid.set_of_expire {k : κ} {t : T} (hnone : a.due k = none)
    (h : a.Valid (l ++ [.expire k t])) :
    ∃ l₁ l₂, l = l₁ ++ .set k t :: l₂ ∧ ∀ x ∈ l₂, x.job ≠ some k := by
  obtain ⟨-, ⟨n, hdue, -⟩, -⟩ := (Run.allSteps_append a l _).mp h
  exact set_of_due hnone hdue

/-- A job that was set and to which nothing has happened since is due, not before the clock. -/
theorem Valid.due_of_set {k : κ} {t : T} {l₁ l₂ : List (Action κ T)}
    (h : a.Valid (l₁ ++ .set k t :: l₂)) (ha : a.Timely) (hl₂ : ∀ x ∈ l₂, x.job ≠ some k) :
    (∃ n, ((l₁ ++ .set k t :: l₂).foldl act a).due k = some (t, n)) ∧
      ((l₁ ++ .set k t :: l₂).foldl act a).clock ≤ t := by
  have hdue : ((l₁ ++ .set k t :: l₂).foldl act a).due k = some (t, (l₁.foldl act a).next) := by
    rw [List.foldl_append, List.foldl_cons, due_foldl_of_job_ne hl₂]
    simp [act]
  exact ⟨⟨_, hdue⟩, (h.timely ha).clock_le k t _ hdue⟩

end Agenda
