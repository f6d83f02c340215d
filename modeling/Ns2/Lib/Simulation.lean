import Mathlib
import Ns2.Lib.Run

/-!
# Machines in lock step

A machine takes an input, changes its state and gives an output, or fails.  Two machines
that do the same, step by step, from related states do the same over whole runs.

* `run step s l` — the run from `s` over the inputs `l`, with its outputs.
* `run_eq_none_iff` — a run fails at its first step that fails.
* `rel_map`, `rel_bind`, `rel_and`, `map_eq_of_rel` — results that are related, or both missing.
* `run_rel` — the simulation rule: related states that step to related states with equal
  outputs, and fail together, do so along every run.
* `outputs step s l`, `outputs_rel` — the same for machines that do not fail, along the runs
  whose steps meet a condition.
-/

namespace Simulation

variable {σ τ α β : Type*}

/-- The run of a machine from a state over a list of inputs: the last state and the
outputs, or nothing when a step fails. -/
def run (step : σ → α → Option (σ × β)) : σ → List α → Option (σ × List β)
  | s, [] => some (s, [])
  | s, a :: l => (step s a).bind fun r => (run step r.1 l).map fun r' => (r'.1, r.2 :: r'.2)

/-- A run fails when a step of it does. -/
theorem run_eq_none_iff {step : σ → α → Option (σ × β)} (l : List α) (s : σ) :
    run step s l = none ↔
      ∃ l₁ a l₂ r, l = l₁ ++ a :: l₂ ∧ run step s l₁ = some r ∧ step r.1 a = none := by
  induction l generalizing s with
  | nil => simp [run]
  | cons b l ih =>
    constructor
    · intro h
      cases hb : step s b with
      | none => exact ⟨[], b, l, (s, []), rfl, rfl, hb⟩
      | some r =>
        simp only [run, hb, Option.bind_some, Option.map_eq_none_iff] at h
        obtain ⟨l₁, a, l₂, r', rfl, hrun, ha⟩ := (ih r.1).mp h
        exact ⟨b :: l₁, a, l₂, (r'.1, r.2 :: r'.2), rfl, by rw [run, hb, Option.bind_some, hrun]; rfl, ha⟩
    · rintro ⟨l₁, a, l₂, r, hl, hrun, ha⟩
      cases l₁ with
      | nil =>
        obtain ⟨rfl, rfl⟩ := List.cons_eq_cons.mp hl
        obtain rfl := Option.some.inj hrun
        simp only [run, ha, Option.bind_none]
      | cons c l₁ =>
        obtain ⟨rfl, rfl⟩ := List.cons_eq_cons.mp hl
        simp only [run] at hrun ⊢
        cases hb : step s b with
        | none => rfl
        | some r' =>
          rw [hb, Option.bind_some] at hrun
          obtain ⟨r'', hr'', rfl⟩ := Option.map_eq_some_iff.mp hrun
          rw [Option.bind_some, (ih r'.1).mpr ⟨l₁, a, l₂, r'', rfl, hr'', ha⟩]
          rfl

/-- A run has an output for each input. -/
theorem length_run {step : σ → α → Option (σ × β)} {l : List α} {s s' : σ} {out : List β}
    (h : run step s l = some (s', out)) : out.length = l.length := by
  induction l generalizing s s' out with
  | nil =>
    obtain ⟨-, rfl⟩ := Prod.mk.inj (Option.some.inj h)
    rfl
  | cons a l ih =>
    simp only [run, Option.bind_eq_some_iff, Option.map_eq_some_iff, Prod.mk.injEq] at h
    obtain ⟨r, -, ⟨t, out'⟩, hr', -, rfl⟩ := h
    rw [List.length_cons, List.length_cons, ih hr']

/-! ## Two machines -/

section rel

variable {γ δ ε ζ : Type*} {P : γ → δ → Prop} {Q : ε → ζ → Prop} {x : Option γ} {y : Option δ}

theorem rel_map {f : γ → ε} {g : δ → ζ} (h : Option.Rel P x y) (hfg : ∀ a b, P a b → Q (f a) (g b)) :
    Option.Rel Q (x.map f) (y.map g) := by
  cases h with
  | none => exact Option.Rel.none
  | some hab => exact Option.Rel.some (hfg _ _ hab)

theorem rel_bind {f : γ → Option ε} {g : δ → Option ζ} (h : Option.Rel P x y)
    (hfg : ∀ a b, P a b → Option.Rel Q (f a) (g b)) : Option.Rel Q (x.bind f) (y.bind g) := by
  cases h with
  | none => exact Option.Rel.none
  | some hab => exact hfg _ _ hab

theorem rel_and {S : δ → Prop} (h : Option.Rel P x y) (hy : ∀ b, y = some b → S b) :
    Option.Rel (fun a b => P a b ∧ S b) x y := by
  cases h with
  | none => exact Option.Rel.none
  | some hab => exact Option.Rel.some ⟨hab, hy _ rfl⟩

/-- Related results are equal where the relation implies so. -/
theorem map_eq_of_rel {f : γ → ε} {g : δ → ε} (h : Option.Rel P x y) (hfg : ∀ a b, P a b → f a = g b) :
    x.map f = y.map g := by
  cases h with
  | none => rfl
  | some hab => exact congrArg some (hfg _ _ hab)

end rel

/-- Related states, equal outputs; or both have failed. -/
def Agree {γ : Type*} (R : σ → τ → Prop) (x : Option (σ × γ)) (y : Option (τ × γ)) : Prop :=
  Option.Rel (fun x y => R x.1 y.1 ∧ x.2 = y.2) x y

namespace Agree

variable {γ δ : Type*} {R : σ → τ → Prop} {x : Option (σ × γ)} {y : Option (τ × γ)}

theorem bind {F : σ × γ → Option (σ × δ)} {G : τ × γ → Option (τ × δ)} (h : Agree R x y)
    (hFG : ∀ s t b, R s t → Agree R (F (s, b)) (G (t, b))) : Agree R (x.bind F) (y.bind G) := by
  cases h with
  | none => exact Option.Rel.none
  | @some a b hab =>
    obtain ⟨s, b'⟩ := a
    obtain ⟨hst, rfl⟩ := hab
    exact hFG s b.1 b.2 hst

theorem map (F : γ → δ) (h : Agree R x y) :
    Agree R (x.map fun r => (r.1, F r.2)) (y.map fun r => (r.1, F r.2)) := by
  cases h with
  | none => exact Option.Rel.none
  | some hab => exact Option.Rel.some ⟨hab.1, congrArg F hab.2⟩

end Agree

/-- **The simulation rule.** -/
theorem run_rel {R : σ → τ → Prop} {f : σ → α → Option (σ × β)} {g : τ → α → Option (τ × β)}
    (h : ∀ s t a, R s t → Agree R (f s a) (g t a)) :
    ∀ (l : List α) (s : σ) (t : τ), R s t → Agree R (run f s l) (run g t l) := by
  intro l
  induction l with
  | nil => exact fun s t hst => Option.Rel.some ⟨hst, rfl⟩
  | cons a l ih =>
    intro s t hst
    exact (h s t a hst).bind fun s' t' b hst' => (ih s' t' hst').map (b :: ·)

/-! ## Machines that do not fail -/

/-- The run of a machine that does not fail: the last state and the outputs. -/
def outputs (step : σ → α → σ × β) : σ → List α → σ × List β
  | s, [] => (s, [])
  | s, a :: l => ((outputs step (step s a).1 l).1, (step s a).2 :: (outputs step (step s a).1 l).2)

theorem outputs_append (step : σ → α → σ × β) (l l' : List α) (s : σ) :
    outputs step s (l ++ l') = ((outputs step (outputs step s l).1 l').1,
      (outputs step s l).2 ++ (outputs step (outputs step s l).1 l').2) := by
  induction l generalizing s with
  | nil => rfl
  | cons a l ih => simp only [List.cons_append, outputs, ih]

/-- The simulation rule under a condition on the steps of the first machine. -/
theorem outputs_rel {R : σ → τ → Prop} {f : σ → α → σ × β} {g : τ → α → τ × β}
    {ok : σ → α → Prop}
    (h : ∀ s t a, R s t → ok s a → R (f s a).1 (g t a).1 ∧ (f s a).2 = (g t a).2) :
    ∀ (l : List α) (s : σ) (t : τ), R s t → Run.AllSteps (fun s a => (f s a).1) ok s l →
      R (outputs f s l).1 (outputs g t l).1 ∧ (outputs f s l).2 = (outputs g t l).2 := by
  intro l
  induction l with
  | nil => exact fun s t hst _ => ⟨hst, rfl⟩
  | cons a l ih =>
    rintro s t hst ⟨hok, hl⟩
    obtain ⟨h1, h2⟩ := h s t a hst hok
    obtain ⟨h3, h4⟩ := ih _ _ h1 hl
    exact ⟨h3, congrArg₂ List.cons h2 h4⟩

end Simulation
