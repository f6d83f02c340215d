import Mathlib

/-!
# A server that takes its jobs in order

Jobs arrive one after the other, and each takes some time; a job starts when it has arrived and the
one before it is finished.

* `finishes free jobs` — when the jobs are finished, if the server is free from `free` on.
* `lastFinish free jobs` — when it is free again.
* `finishes_append`, `lastFinish_append` — further jobs.
* `lastFinish_eq_add` — a job that starts at once.
* `le_finishes`, `finishes_le` — no job is finished before the server is free, or after the last one.
-/

namespace FifoServer

variable {T : Type*} [AddCommGroup T] [LinearOrder T]

/-- When the server is free again after jobs, given by their arrival and their length. -/
def lastFinish (free : T) (jobs : List (T × T)) : T :=
  jobs.foldl (fun f j => max f j.1 + j.2) free

/-- When each job is finished. -/
def finishes : T → List (T × T) → List T
  | _, [] => []
  | free, j :: jobs => (max free j.1 + j.2) :: finishes (max free j.1 + j.2) jobs

variable {free : T} {jobs : List (T × T)}

@[simp] theorem length_finishes : (finishes free jobs).length = jobs.length := by
  induction jobs generalizing free with
  | nil => rfl
  | cons j jobs ih => rw [finishes, List.length_cons, ih, List.length_cons]

theorem finishes_append (jobs' : List (T × T)) : finishes free (jobs ++ jobs') =
    finishes free jobs ++ finishes (lastFinish free jobs) jobs' := by
  induction jobs generalizing free with
  | nil => rfl
  | cons j jobs ih =>
    rw [List.cons_append, finishes, ih, finishes, List.cons_append]
    rfl

theorem lastFinish_append (jobs' : List (T × T)) :
    lastFinish free (jobs ++ jobs') = lastFinish (lastFinish free jobs) jobs' :=
  List.foldl_append

/-- A job that arrives at a free server, or waits for it, starts at once. -/
theorem lastFinish_eq_add {a x t : T} (hfree : lastFinish free jobs ≤ t) (ha : a ≤ t)
    (ht : t = lastFinish free jobs ∨ t = a) :
    finishes (lastFinish free jobs) [(a, x)] = [t + x] ∧
      lastFinish free (jobs ++ [(a, x)]) = t + x := by
  have hmax : max (lastFinish free jobs) a = t := by
    rcases ht with rfl | rfl
    · exact max_eq_left ha
    · exact max_eq_right hfree
  refine ⟨?_, ?_⟩
  · rw [finishes, hmax, finishes]
  · rw [lastFinish_append]
    exact congrArg (· + x) hmax

variable [IsOrderedAddMonoid T]

theorem le_lastFinish (h : ∀ j ∈ jobs, 0 ≤ j.2) : free ≤ lastFinish free jobs := by
  induction jobs generalizing free with
  | nil => exact le_rfl
  | cons j jobs ih =>
    refine le_trans ?_ (ih fun k hk => h k (List.mem_cons_of_mem j hk))
    exact le_add_of_le_of_nonneg (le_max_left _ _) (h j List.mem_cons_self)

/-- No job is finished before the server is free. -/
theorem le_finishes (h : ∀ j ∈ jobs, 0 ≤ j.2) : ∀ t ∈ finishes free jobs, free ≤ t := by
  induction jobs generalizing free with
  | nil => exact fun t ht => absurd ht List.not_mem_nil
  | cons j jobs ih =>
    intro t ht
    have hfirst : free ≤ max free j.1 + j.2 :=
      le_add_of_le_of_nonneg (le_max_left _ _) (h j List.mem_cons_self)
    rcases List.mem_cons.mp ht with rfl | ht
    · exact hfirst
    · exact hfirst.trans (ih (fun k hk => h k (List.mem_cons_of_mem j hk)) t ht)

/-- No job is finished after the last one. -/
theorem finishes_le (h : ∀ j ∈ jobs, 0 ≤ j.2) : ∀ t ∈ finishes free jobs, t ≤ lastFinish free jobs := by
  induction jobs generalizing free with
  | nil => exact fun t ht => absurd ht List.not_mem_nil
  | cons j jobs ih =>
    intro t ht
    have hrest : ∀ k ∈ jobs, 0 ≤ k.2 := fun k hk => h k (List.mem_cons_of_mem j hk)
    rcases List.mem_cons.mp ht with rfl | ht
    · exact le_lastFinish hrest
    · exact ih hrest t ht

end FifoServer
