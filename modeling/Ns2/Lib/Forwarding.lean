import Mathlib

/-!
# Forwarding through regions

Every vertex is in a region, and something gets smaller at each step that stays in its region.

* `Follows`, `Simple`, `Returns` — walks, walks that visit no vertex twice, and walks whose last
  vertex is in a region that they have left before.
* `simple_of_not_returns` — without such a return no vertex is visited twice.
* `reaches_or_returns` — among finitely many vertices the walk reaches its target or returns.
-/

namespace Forwarding

variable {V R K : Type*} [Preorder K] {next : V → V → Prop} {region : V → R} {φ : V → K} {v : ℕ → V}
  {n : ℕ} {d : V}

/-- The first `n` steps of `v` are steps of `next`. -/
def Follows (next : V → V → Prop) (v : ℕ → V) (n : ℕ) : Prop := ∀ i < n, next (v i) (v (i + 1))

/-- The first `n` steps visit no vertex twice. -/
def Simple (v : ℕ → V) (n : ℕ) : Prop := ∀ i j, i < j → j ≤ n → v i ≠ v j

/-- After `n` steps the walk is in a region that it has left before. -/
def Returns (region : V → R) (v : ℕ → V) (n : ℕ) : Prop :=
  ∃ i j, i < j ∧ j < n ∧ region (v i) = region (v n) ∧ region (v j) ≠ region (v n)

/-- What gets smaller inside the regions gets smaller along a walk that stays in one. -/
theorem lt_of_stays (hφ : ∀ i < n, region (v (i + 1)) = region (v i) → φ (v (i + 1)) < φ (v i))
    {i j : ℕ} (hij : i < j) (hj : j ≤ n)
    (hstay : ∀ k, i ≤ k → k ≤ j → region (v k) = region (v i)) : φ (v j) < φ (v i) := by
  induction j, hij using Nat.le_induction with
  | base =>
    have hi : i + 1 ≤ n := hj
    exact hφ i hi (hstay (i + 1) (by omega) le_rfl)
  | succ j hij ih =>
    have hlt := ih (by omega) fun k hik hkj => hstay k hik (by omega)
    refine lt_trans (hφ j (by omega) ?_) hlt
    rw [hstay (j + 1) (by omega) le_rfl, hstay j (by omega) (by omega)]

/-- Without a return no vertex is visited twice. -/
theorem simple_of_not_returns
    (hφ : ∀ i < n, region (v (i + 1)) = region (v i) → φ (v (i + 1)) < φ (v i))
    (hret : ∀ m ≤ n, ¬ Returns region v m) : Simple v n := by
  intro i j hij hj heq
  have hstay : ∀ k, i ≤ k → k ≤ j → region (v k) = region (v i) := by
    intro k hik hkj
    by_contra hne
    have hki : k ≠ i := fun h => hne (by rw [h])
    have hkj' : k ≠ j := fun h => hne (by rw [h, heq])
    refine hret j hj ⟨i, k, by omega, by omega, by rw [heq], ?_⟩
    rwa [← heq]
  have hlt := lt_of_stays hφ hij hj hstay
  rw [heq] at hlt
  exact lt_irrefl _ hlt

/-- **The walk reaches its target or returns.** -/
theorem reaches_or_returns (next : V → V → Prop) (region : V → R) (φ : V → K) {S : Set V} (hS : S.Finite)
    (h : ∀ u ∈ S, u ≠ d → ∃ w ∈ S, next u w ∧ (region w = region u → φ w < φ u)) {src : V}
    (hsrc : src ∈ S) :
    ∃ (v : ℕ → V) (n : ℕ), v 0 = src ∧ Follows next v n ∧
      ((v n = d ∧ Simple v n) ∨ Returns region v n) := by
  classical
  choose! f hf using h
  set v : ℕ → V := fun i => f^[i] src
  have hsucc : ∀ i, v (i + 1) = f (v i) := fun i => Function.iterate_succ_apply' f i src
  -- as long as the target has not been reached
  have hmem : ∀ n, (∀ i < n, v i ≠ d) → v n ∈ S := by
    intro n
    induction n with
    | zero => exact fun _ => hsrc
    | succ n ih =>
      intro hn
      rw [hsucc]
      exact (hf _ (ih fun i hi => hn i (by omega)) (hn n (by omega))).1
  have hstep : ∀ n, (∀ i < n, v i ≠ d) → ∀ i < n, next (v i) (v (i + 1)) ∧
      (region (v (i + 1)) = region (v i) → φ (v (i + 1)) < φ (v i)) := by
    intro n hn i hi
    rw [hsucc]
    exact (hf _ (hmem i fun k hk => hn k (by omega)) (hn i hi)).2
  by_cases hret : ∃ m, (∀ i < m, v i ≠ d) ∧ Returns region v m
  · obtain ⟨m, hm, hr⟩ := hret
    exact ⟨v, m, rfl, fun i hi => (hstep m hm i hi).1, Or.inr hr⟩
  · push Not at hret
    have hsimple : ∀ n, (∀ i < n, v i ≠ d) → Simple v n := fun n hn =>
      simple_of_not_returns (fun i hi => (hstep n hn i hi).2) fun m hm =>
        hret m fun i hi => hn i (by omega)
    by_cases hex : ∃ n, v n = d
    · have hmin : ∀ i < Nat.find hex, v i ≠ d := fun i hi => Nat.find_min hex hi
      exact ⟨v, Nat.find hex, rfl, fun i hi => (hstep _ hmin i hi).1,
        Or.inl ⟨Nat.find_spec hex, hsimple _ hmin⟩⟩
    · push Not at hex
      have hinj : Function.Injective fun n : ℕ => (⟨v n, hmem n fun i _ => hex i⟩ : S) := by
        intro i j hij
        have hij' : v i = v j := congrArg Subtype.val hij
        rcases lt_trichotomy i j with hlt | heq | hlt
        · exact absurd hij' (hsimple j (fun k _ => hex k) i j hlt le_rfl)
        · exact heq
        · exact absurd hij'.symm (hsimple i (fun k _ => hex k) j i hlt le_rfl)
      have := hS.to_subtype
      exact absurd hinj (not_injective_infinite_finite _)

end Forwarding
