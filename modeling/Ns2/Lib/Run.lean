import Mathlib

/-!
# Runs of a deterministic machine, and conditions on their steps

A machine is a step function `step : σ → α → σ`; a run is the fold of it over a
list of inputs.  Two kinds of statement come up again and again:

* `AllSteps step ok s l` — every step of the run from `s` over `l` meets the
  condition `ok` *in the state it starts from*;
* `allSteps_imp`, `allSteps_congr` — one condition follows from another one, or is
  equivalent to it, on the states of an invariant;
* `foldl_of_allSteps` — what such steps keep;
* `foldlM_invariant`, `foldlM_eq_none_iff` — what every step keeps, for a machine that may
  stop, and where it stops;
* `logged` — the machine that also keeps the inputs it has consumed;
* `allSteps_map` — a condition on a part of the state that runs on its own;
* `allSteps_iff_forall_prefix_of` — when, from any state satisfying the invariant,
  `ok` is exactly what makes the next state good and also keeps the invariant,
  then the runs all of whose states are good are exactly the runs all of whose
  steps are `ok`.

The invariant and the notion of a good state may look at the inputs consumed so
far, so that a specification can be stated about the history.
-/

namespace Run

variable {σ α : Type*} (step : σ → α → σ)

/-- Every step of the run from `s` over `l` meets `ok` in the state it starts
from. -/
def AllSteps (ok : σ → α → Prop) : σ → List α → Prop
  | _, [] => True
  | s, a :: l => ok s a ∧ AllSteps ok (step s a) l

variable {step} {ok : σ → α → Prop}

@[simp] theorem allSteps_nil (s : σ) : AllSteps step ok s [] := trivial

@[simp] theorem allSteps_cons (s : σ) (a : α) (l : List α) :
    AllSteps step ok s (a :: l) ↔ ok s a ∧ AllSteps step ok (step s a) l := Iff.rfl

instance decidableAllSteps [∀ s a, Decidable (ok s a)] :
    ∀ (s : σ) (l : List α), Decidable (AllSteps step ok s l)
  | _, [] => isTrue trivial
  | s, a :: l =>
    have := decidableAllSteps (step s a) l
    inferInstanceAs (Decidable (ok s a ∧ AllSteps step ok (step s a) l))

theorem allSteps_append (s : σ) (l₁ l₂ : List α) :
    AllSteps step ok s (l₁ ++ l₂) ↔
      AllSteps step ok s l₁ ∧ AllSteps step ok (l₁.foldl step s) l₂ := by
  induction l₁ generalizing s with
  | nil => simp
  | cons a l ih => simp [ih, and_assoc]

theorem allSteps_and {ok' : σ → α → Prop} (s : σ) (l : List α) :
    AllSteps step (fun s a => ok s a ∧ ok' s a) s l ↔ AllSteps step ok s l ∧ AllSteps step ok' s l := by
  induction l generalizing s with
  | nil => exact (and_self_iff).symm
  | cons a l ih =>
    rw [allSteps_cons, allSteps_cons, allSteps_cons, ih, and_and_and_comm]

/-- Two conditions that agree on the states of an invariant have the same runs, if the
steps that meet them keep the invariant. -/
theorem allSteps_congr {ok' : σ → α → Prop} {I : σ → Prop}
    (h : ∀ s a, I s → (ok s a ↔ ok' s a)) (hinv : ∀ s a, I s → ok' s a → I (step s a)) :
    ∀ (l : List α) (s : σ), I s → (AllSteps step ok s l ↔ AllSteps step ok' s l) := by
  intro l
  induction l with
  | nil => exact fun s _ => Iff.rfl
  | cons a l ih =>
    intro s hs
    rw [allSteps_cons, allSteps_cons, h s a hs]
    exact and_congr_right fun ha => ih (step s a) (hinv s a hs ha)

/-- The same for the runs whose steps are `legal`. -/
theorem allSteps_congr_legal {ok' legal : σ → α → Prop} {I : σ → Prop}
    (h : ∀ s a, I s → legal s a → (ok s a ↔ ok' s a))
    (hinv : ∀ s a, I s → legal s a → ok' s a → I (step s a)) (l : List α) (s : σ) (hs : I s)
    (hlegal : AllSteps step legal s l) : AllSteps step ok s l ↔ AllSteps step ok' s l := by
  induction l generalizing s with
  | nil => exact Iff.rfl
  | cons a l ih =>
    rw [allSteps_cons, allSteps_cons, h s a hs hlegal.1]
    exact and_congr_right fun ha => ih (step s a) (hinv s a hs hlegal.1 ha) hlegal.2

/-- A condition that follows from another one on the states of an invariant, if the steps
that meet the other one keep the invariant. -/
theorem allSteps_imp {ok' : σ → α → Prop} {I : σ → Prop}
    (h : ∀ s a, I s → ok s a → ok' s a) (hinv : ∀ s a, I s → ok s a → I (step s a)) :
    ∀ (l : List α) (s : σ), I s → AllSteps step ok s l → AllSteps step ok' s l := by
  intro l
  induction l with
  | nil => exact fun s _ _ => trivial
  | cons a l ih =>
    intro s hs hl
    exact ⟨h s a hs hl.1, ih (step s a) (hinv s a hs hl.1) hl.2⟩

/-- What every step keeps that meets the condition holds at the end of a run of such steps. -/
theorem foldl_of_allSteps {I : σ → Prop} (hinv : ∀ s a, I s → ok s a → I (step s a)) (l : List α) (s : σ)
    (hs : I s) (hl : AllSteps step ok s l) : I (l.foldl step s) := by
  induction l generalizing s with
  | nil => exact hs
  | cons a l ih => exact ih (step s a) (hinv s a hs hl.1) hl.2

/-- The machine that keeps the inputs it has consumed. -/
def logged (step : σ → α → σ) (x : List α × σ) (a : α) : List α × σ := (x.1 ++ [a], step x.2 a)

/-- A condition that does not look at the inputs consumed. -/
theorem allSteps_logged (l h : List α) (s : σ) :
    AllSteps (logged step) (fun x a => ok x.2 a) (h, s) l ↔ AllSteps step ok s l := by
  induction l generalizing h s with
  | nil => exact Iff.rfl
  | cons a l ih => exact and_congr_right fun _ => ih (h ++ [a]) (step s a)

/-- A condition that an invariant implies. -/
theorem allSteps_of_invariant {I : σ → Prop} (h : ∀ s a, I s → ok s a)
    (hinv : ∀ s a, I s → I (step s a)) (l : List α) (s : σ) (hs : I s) : AllSteps step ok s l := by
  induction l generalizing s with
  | nil => trivial
  | cons a l ih => exact ⟨h s a hs, ih _ (hinv s a hs)⟩

/-- A condition on a part of the state that runs on its own. -/
theorem allSteps_map {τ : Type*} {step' : τ → α → τ} {ok' : τ → α → Prop} (f : σ → τ)
    (hf : ∀ s a, f (step s a) = step' (f s) a) (l : List α) (s : σ) :
    AllSteps step (fun s a => ok' (f s) a) s l ↔ AllSteps step' ok' (f s) l := by
  induction l generalizing s with
  | nil => exact Iff.rfl
  | cons a l ih =>
    rw [allSteps_cons, allSteps_cons, ih, hf]

/-- Every prefix of `a :: l` is empty or starts with `a`. -/
theorem forall_prefix_cons {P : List α → Prop} {a : α} {l : List α} :
    (∀ p, p <+: a :: l → P p) ↔ P [] ∧ ∀ p, p <+: l → P (a :: p) := by
  constructor
  · intro h
    exact ⟨h [] List.nil_prefix, fun p hp => h (a :: p) (List.cons_prefix_cons.mpr ⟨rfl, hp⟩)⟩
  · rintro ⟨h0, h⟩ p hp
    cases p with
    | nil => exact h0
    | cons b q =>
      obtain ⟨rfl, hq⟩ := List.cons_prefix_cons.mp hp
      exact h q hq

/-- An invariant of the history and the state that every `ok` step keeps holds
after every run of `ok` steps. -/
theorem foldl_invariant {I : List α → σ → Prop}
    (hinv : ∀ h s a, I h s → ok s a → I (h ++ [a]) (step s a)) :
    ∀ (l h : List α) (s : σ), I h s → AllSteps step ok s l → I (h ++ l) (l.foldl step s) := by
  intro l
  induction l with
  | nil => intro h s hs _; simpa using hs
  | cons a l ih =>
    intro h s hs hl
    have := ih (h ++ [a]) (step s a) (hinv h s a hs hl.1) hl.2
    simpa using this

/-- An invariant of a machine that may stop. -/
theorem foldlM_invariant {step : σ → α → Option σ} {I : σ → Prop} {l : List α} {s s' : σ}
    (hinv : ∀ a ∈ l, ∀ s s', I s → step s a = some s' → I s') (hs : I s)
    (h : l.foldlM step s = some s') : I s' := by
  induction l generalizing s with
  | nil =>
    obtain rfl := Option.some.inj h
    exact hs
  | cons a l ih =>
    rw [List.foldlM_cons] at h
    obtain ⟨t, ht, hrest⟩ := Option.bind_eq_some_iff.mp h
    exact ih (fun b hb => hinv b (List.mem_cons_of_mem _ hb)) (hinv a List.mem_cons_self s t hs ht) hrest

/-- A machine stops when a step of it does. -/
theorem foldlM_eq_none_iff {step : σ → α → Option σ} (l : List α) (s : σ) :
    l.foldlM step s = none ↔
      ∃ l₁ a l₂ t, l = l₁ ++ a :: l₂ ∧ l₁.foldlM step s = some t ∧ step t a = none := by
  constructor
  · intro h
    induction l generalizing s with
    | nil => exact absurd h (Option.some_ne_none s)
    | cons b l ih =>
      rw [List.foldlM_cons] at h
      cases hb : step s b with
      | none => exact ⟨[], b, l, s, rfl, rfl, hb⟩
      | some r =>
        rw [hb] at h
        obtain ⟨l₁, a, l₂, t, rfl, hrun, ha⟩ := ih r h
        refine ⟨b :: l₁, a, l₂, t, rfl, ?_, ha⟩
        rw [List.foldlM_cons, hb]
        exact hrun
  · rintro ⟨l₁, a, l₂, t, rfl, hrun, ha⟩
    simp [List.foldlM_append, hrun, ha]

/-- **Good runs are runs of `ok` steps.**  If from every state that satisfies the
invariant a step is `ok` exactly when it leads to a good state, and `ok` steps
keep the invariant, then all states of a run are good exactly when all its steps
are `ok`.  Only the runs whose steps are `legal` need to be looked at. -/
theorem allSteps_iff_forall_prefix_legal {legal : σ → α → Prop} {I G : List α → σ → Prop}
    (hgood : ∀ h s, I h s → G h s)
    (hstep : ∀ h s a, legal s a → I h s → (ok s a ↔ G (h ++ [a]) (step s a)))
    (hinv : ∀ h s a, legal s a → I h s → ok s a → I (h ++ [a]) (step s a)) :
    ∀ (l h : List α) (s : σ), AllSteps step legal s l → I h s →
      (AllSteps step ok s l ↔ ∀ p, p <+: l → G (h ++ p) (p.foldl step s)) := by
  intro l
  induction l with
  | nil =>
    intro h s _ hs
    refine iff_of_true (allSteps_nil s) ?_
    intro p hp
    rw [List.prefix_nil.mp hp]
    simpa using hgood h s hs
  | cons a l ih =>
    intro h s hlegal hs
    obtain ⟨hla, hll⟩ := hlegal
    rw [forall_prefix_cons, allSteps_cons]
    constructor
    · rintro ⟨ha, hl⟩
      refine ⟨by simpa using hgood h s hs, fun p hp => ?_⟩
      have := (ih (h ++ [a]) (step s a) hll (hinv h s a hla hs ha)).mp hl p hp
      simpa using this
    · rintro ⟨-, hp⟩
      have ha : ok s a := (hstep h s a hla hs).mpr (by simpa using hp [] List.nil_prefix)
      refine ⟨ha, (ih (h ++ [a]) (step s a) hll (hinv h s a hla hs ha)).mpr fun p hpl => ?_⟩
      simpa using hp p hpl

theorem allSteps_of_forall {P : α → Prop} (l : List α) (s : σ) (h : ∀ a ∈ l, P a) :
    AllSteps step (fun _ a => P a) s l := by
  induction l generalizing s with
  | nil => trivial
  | cons a l ih =>
    exact ⟨h a List.mem_cons_self, ih (step s a) fun b hb => h b (List.mem_cons_of_mem a hb)⟩

/-- The same when only the inputs that satisfy `P` need to be looked at. -/
theorem allSteps_iff_forall_prefix_of {P : α → Prop} {I G : List α → σ → Prop}
    (hgood : ∀ h s, I h s → G h s)
    (hstep : ∀ h s a, P a → I h s → (ok s a ↔ G (h ++ [a]) (step s a)))
    (hinv : ∀ h s a, P a → I h s → ok s a → I (h ++ [a]) (step s a))
    (l h : List α) (s : σ) (hP : ∀ a ∈ l, P a) (hs : I h s) :
    AllSteps step ok s l ↔ ∀ p, p <+: l → G (h ++ p) (p.foldl step s) :=
  allSteps_iff_forall_prefix_legal hgood hstep hinv l h s
    (allSteps_of_forall l s hP) hs

/-- The same for all inputs. -/
theorem allSteps_iff_forall_prefix {I G : List α → σ → Prop}
    (hgood : ∀ h s, I h s → G h s)
    (hstep : ∀ h s a, I h s → (ok s a ↔ G (h ++ [a]) (step s a)))
    (hinv : ∀ h s a, I h s → ok s a → I (h ++ [a]) (step s a))
    (l h : List α) (s : σ) (hs : I h s) :
    AllSteps step ok s l ↔ ∀ p, p <+: l → G (h ++ p) (p.foldl step s) :=
  allSteps_iff_forall_prefix_of (P := fun _ => True) hgood (fun h s a _ => hstep h s a)
    (fun h s a _ => hinv h s a) l h s (fun _ _ => trivial) hs

end Run
