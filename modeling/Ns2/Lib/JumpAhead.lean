import Mathlib

/-!
# Machines that jump ahead

A deterministic machine goes from state to state.  A jump is a function that leads to the state so many
steps ahead, or back, without the steps.

* `Apart step base s z` — `s` is `z` steps after `base`, or `-z` steps before it.
* `Flow act` — the points of a space move with the time, forward and back.
* `Moves` — the steps of the machine are the time 1 of a flow, seen through a map on its states.
* `Moves.apart_iff` — then the distance of two states is the time between their points.
-/

namespace Jump

variable {α V : Type*}

/-- `s` is `z` steps after `base`: some steps of either lead to the same state. -/
def Apart (step : α → α) (base s : α) (z : ℤ) : Prop :=
  ∃ n k : ℕ, (n : ℤ) - k = z ∧ step^[k] s = step^[n] base

/-- A space that moves with the time. -/
structure Flow (act : ℤ → V → V) : Prop where
  zero : ∀ v, act 0 v = v
  add : ∀ z w v, act (z + w) v = act z (act w v)

/-- A machine whose steps are a flow on some of its states. -/
structure Moves (act : ℤ → V → V) (step : α → α) (valid : α → Prop) (φ : α → V) : Prop where
  flow : Flow act
  keeps : ∀ s, valid s → valid (step s)
  point : ∀ s, valid s → φ (step s) = act 1 (φ s)
  inj : ∀ s s', valid s → valid s' → φ s = φ s' → s = s'

variable {act : ℤ → V → V} {step : α → α} {valid : α → Prop} {φ : α → V} {s s' base : α} {z w : ℤ}

namespace Moves

theorem iterate (h : Moves act step valid φ) (hs : valid s) (n : ℕ) :
    valid (step^[n] s) ∧ φ (step^[n] s) = act n (φ s) := by
  induction n with
  | zero => exact ⟨hs, (h.flow.zero _).symm⟩
  | succ n ih =>
    obtain ⟨hv, heq⟩ := ih
    rw [Function.iterate_succ_apply']
    refine ⟨h.keeps _ hv, ?_⟩
    rw [h.point _ hv, heq, ← h.flow.add]
    congr 1
    push_cast
    ring

/-- **The distance of two states is the time between their points.** -/
theorem apart_iff (h : Moves act step valid φ) (hb : valid base) (hs : valid s) :
    Apart step base s z ↔ φ s = act z (φ base) := by
  constructor
  · rintro ⟨n, k, rfl, heq⟩
    have hpoints : act k (φ s) = act n (φ base) := by
      rw [← (h.iterate hs k).2, ← (h.iterate hb n).2, heq]
    rw [sub_eq_neg_add, h.flow.add, ← hpoints, ← h.flow.add, neg_add_cancel, h.flow.zero]
  · intro heq
    refine ⟨z.toNat, (-z).toNat, by omega, ?_⟩
    refine h.inj _ _ (h.iterate hs _).1 (h.iterate hb _).1 ?_
    rw [(h.iterate hs _).2, (h.iterate hb _).2, heq, ← h.flow.add]
    congr 1
    omega

/-- A jump from a state at a distance. -/
theorem apart_add (h : Moves act step valid φ) (hb : valid base) (hs : valid s) (hs' : valid s')
    (hz : Apart step base s z) (hjump : φ s' = act w (φ s)) : Apart step base s' (z + w) := by
  rw [h.apart_iff hb hs']
  rw [hjump, (h.apart_iff hb hs).mp hz, ← h.flow.add, add_comm]

theorem apart_refl (h : Moves act step valid φ) (hb : valid base) : Apart step base base 0 :=
  (h.apart_iff hb hb).mpr (h.flow.zero _).symm

end Moves

end Jump
