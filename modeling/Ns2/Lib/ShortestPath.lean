import Mathlib

/-!
# Shortest paths

A graph is a relation `E u v c`: an edge from `u` to `v` of cost `c`.

* `Walk`, `Via` — walks from a source and their costs; walks whose first edge goes to a given
  vertex.
* `IsDist`, `FirstHop` — the least cost of a walk, and the first vertices of walks of least
  cost.
* `le_of_exit` — the step of Dijkstra's algorithm: a bound on the edges that leave a set is a
  bound on the walks that leave it.
* `reaches` — following a first hop towards a target reaches it and visits no vertex twice.
-/

namespace ShortestPath

variable {V K : Type*} [AddCommGroup K] [LinearOrder K] [IsOrderedAddMonoid K]

/-- Walks from `s` to a vertex, with their costs. -/
inductive Walk (E : V → V → K → Prop) (s : V) : V → K → Prop where
  | nil : Walk E s s 0
  | snoc {v w : V} {c d : K} (h : Walk E s v c) (e : E v w d) : Walk E s w (c + d)

/-- Walks from `s` that go to `h` first. -/
inductive Via (E : V → V → K → Prop) (s h : V) : V → K → Prop where
  | first {c : K} (e : E s h c) : Via E s h h c
  | snoc {v w : V} {c d : K} (p : Via E s h v c) (e : E v w d) : Via E s h w (c + d)

/-- `c` is the least cost of a walk from `s` to `v`. -/
structure IsDist (E : V → V → K → Prop) (s v : V) (c : K) : Prop where
  walk : Walk E s v c
  least : ∀ c', Walk E s v c' → c ≤ c'

/-- `h` is the first vertex of a walk of least cost from `s` to `v`. -/
def FirstHop (E : V → V → K → Prop) (s v h : V) : Prop := ∃ c, IsDist E s v c ∧ Via E s h v c

/-- `v` can be reached from `s`. -/
def Reachable (E : V → V → K → Prop) (s v : V) : Prop := ∃ c, Walk E s v c

variable {E : V → V → K → Prop} {s t u v w h : V} {c c' d : K}

/-! ## Walks -/

section Walks

omit [LinearOrder K] [IsOrderedAddMonoid K]

theorem Via.walk (p : Via E s h v c) : Walk E s v c := by
  induction p with
  | first e => simpa using Walk.nil.snoc e
  | snoc _ e ih => exact ih.snoc e

/-- A walk is empty or has a first vertex. -/
theorem Walk.via (p : Walk E s v c) : (v = s ∧ c = 0) ∨ ∃ h, Via E s h v c := by
  induction p with
  | nil => exact Or.inl ⟨rfl, rfl⟩
  | snoc p e ih =>
    right
    rcases ih with ⟨rfl, rfl⟩ | ⟨h, q⟩
    · exact ⟨_, by simpa using Via.first e⟩
    · exact ⟨h, q.snoc e⟩

theorem Walk.exists_via (p : Walk E s v c) (hv : v ≠ s) : ∃ h, Via E s h v c := by
  rcases p.via with ⟨rfl, -⟩ | h
  · exact absurd rfl hv
  · exact h

theorem Walk.cons (e : E s h d) (p : Walk E h v c) : Walk E s v (d + c) := by
  induction p with
  | nil => simpa using Walk.nil.snoc e
  | snoc _ e' ih =>
    rw [← add_assoc]
    exact ih.snoc e'

/-- A walk without its first edge. -/
theorem Via.tail (p : Via E s h v c) : ∃ d c', E s h d ∧ Walk E h v c' ∧ c = d + c' := by
  induction p with
  | first e => exact ⟨_, 0, e, Walk.nil, (add_zero _).symm⟩
  | snoc _ e' ih =>
    obtain ⟨d, c', e, q, rfl⟩ := ih
    exact ⟨d, _, e, q.snoc e', add_assoc _ _ _⟩

theorem Via.edge (p : Via E s h v c) : ∃ d, E s h d := by
  obtain ⟨d, -, e, -⟩ := p.tail
  exact ⟨d, e⟩

theorem Walk.trans (p : Walk E s u c) (q : Walk E u v c') : Walk E s v (c + c') := by
  induction q with
  | nil => simpa using p
  | snoc _ e ih =>
    rw [← add_assoc]
    exact ih.snoc e

theorem Reachable.snoc (hr : Reachable E s v) (he : ∃ d, E v w d) : Reachable E s w := by
  obtain ⟨c, p⟩ := hr
  obtain ⟨d, e⟩ := he
  exact ⟨_, p.snoc e⟩

theorem Reachable.trans (hr : Reachable E s u) (hr' : Reachable E u v) : Reachable E s v := by
  obtain ⟨c, p⟩ := hr
  obtain ⟨c', q⟩ := hr'
  exact ⟨_, p.trans q⟩

end Walks

/-- With edges of no negative cost. -/
theorem Walk.nonneg_of_le (hE : ∀ u v d, E u v d → 0 ≤ d) (p : Walk E s v c) : 0 ≤ c := by
  induction p with
  | nil => exact le_rfl
  | snoc _ e ih => exact add_nonneg ih (hE _ _ _ e)

/-- With edges of positive cost. -/
theorem Walk.nonneg (hE : ∀ u v d, E u v d → 0 < d) (p : Walk E s v c) : 0 ≤ c :=
  p.nonneg_of_le fun u v d e => (hE u v d e).le

theorem Via.pos (hE : ∀ u v d, E u v d → 0 < d) (p : Via E s h v c) : 0 < c := by
  obtain ⟨d, c', e, q, rfl⟩ := p.tail
  exact add_pos_of_pos_of_nonneg (hE _ _ _ e) (q.nonneg hE)

/-! ## Distances -/

omit [IsOrderedAddMonoid K] in
theorem IsDist.unique (h₁ : IsDist E s v c) (h₂ : IsDist E s v c') : c = c' :=
  le_antisymm (h₁.least c' h₂.walk) (h₂.least c h₁.walk)

theorem isDist_self (hE : ∀ u v d, E u v d → 0 < d) (s : V) : IsDist E s s 0 :=
  ⟨Walk.nil, fun _ p => p.nonneg hE⟩

/-- The vertex before the last one on a walk of least cost. -/
theorem IsDist.of_snoc (hc : Walk E s u c) (e : E u v d) (h : IsDist E s v (c + d)) :
    IsDist E s u c :=
  ⟨hc, fun _ p => le_of_add_le_add_right (h.least _ (p.snoc e))⟩

/-- A first hop of walks of least cost is not their source. -/
theorem FirstHop.ne (hE : ∀ u v d, E u v d → 0 < d) (h : FirstHop E s v w) : w ≠ s := by
  rintro rfl
  obtain ⟨c, hc, p⟩ := h
  obtain ⟨d, c', e, q, rfl⟩ := p.tail
  exact absurd (hc.least c' q) (not_le.mpr (lt_add_of_pos_left c' (hE _ _ _ e)))

/-- With integer costs there is a least one. -/
theorem Reachable.exists_isDist {E : V → V → ℤ → Prop} (hE : ∀ u v d, E u v d → 0 < d)
    (h : Reachable E s v) : ∃ c, IsDist E s v c := by
  obtain ⟨c, hc, hmin⟩ := Int.exists_least_of_bdd (P := Walk E s v)
    ⟨0, fun _ p => p.nonneg hE⟩ h
  exact ⟨c, hc, hmin⟩

/-- **Leaving a set.**  A walk that starts in `S` and ends outside has an edge that leaves `S`;
a bound on the walks up to and with such an edge is a bound on its cost. -/
theorem le_of_exit {S : V → Prop} {m : K} (hE : ∀ u v d, E u v d → 0 < d) (hs : S s) (ht : ¬ S t)
    (hm : ∀ v w c d, S v → ¬ S w → Walk E s v c → E v w d → m ≤ c + d) (p : Walk E s t c) :
    m ≤ c := by
  induction p with
  | nil => exact absurd hs ht
  | @snoc v w c d p e ih =>
    by_cases hv : S v
    · exact hm v w c d hv ht p e
    · exact (ih hv).trans (le_add_of_nonneg_right (hE _ _ _ e).le)

/-! ## Following first hops -/

/-- The next vertex of a walk of least cost is closer to the target. -/
theorem Via.dist_lt (hE : ∀ u v d, E u v d → 0 < d) (p : Via E s h t c) (hs : IsDist E s t c)
    (hh : IsDist E h t c') : c' < c := by
  obtain ⟨d, a, e, q, rfl⟩ := p.tail
  exact lt_of_le_of_lt (hh.least a q) (lt_add_of_pos_left a (hE _ _ _ e))

/-- The next vertex reaches the target at the cost that is left. -/
theorem Via.isDist (p : Via E s h t c) (hs : IsDist E s t c) : ∃ c', IsDist E h t c' := by
  obtain ⟨d, a, e, q, rfl⟩ := p.tail
  refine ⟨a, q, fun a' q' => ?_⟩
  exact le_of_add_le_add_left (hs.least _ (Walk.cons e q'))

/-- `next` gives the first hop of a walk of least cost to `t` wherever there is a walk. -/
def Leads (E : V → V → K → Prop) (t : V) (next : V → V) : Prop :=
  ∀ v, v ≠ t → Reachable E v t → FirstHop E v t (next v)

section

variable {next : V → V} (hE : ∀ u v d, E u v d → 0 < d) (hnext : Leads E t next)
include hE hnext

theorem Leads.reachable_iterate (hr : Reachable E v t) :
    ∀ n, (∀ i < n, next^[i] v ≠ t) → ∃ c, IsDist E (next^[n] v) t c := by
  have hdist : ∀ u, Reachable E u t → ∃ c, IsDist E u t c := by
    intro u hu
    by_cases hut : u = t
    · exact ⟨0, hut ▸ isDist_self hE t⟩
    · obtain ⟨c, hc, -⟩ := hnext u hut hu
      exact ⟨c, hc⟩
  intro n
  induction n with
  | zero => exact fun _ => hdist v hr
  | succ n ih =>
    intro hn
    obtain ⟨c, hc⟩ := ih fun i hi => hn i (by omega)
    obtain ⟨c₁, hc₁, p⟩ := hnext _ (hn n (Nat.lt_succ_self n)) ⟨c, hc.walk⟩
    rw [Function.iterate_succ_apply']
    exact p.isDist hc₁

/-- Along the iterates the distance to the target goes down. -/
theorem Leads.iterate_lt (hr : Reachable E v t) {i j : ℕ} (hij : i < j)
    (hj : ∀ l < j, next^[l] v ≠ t) (hc : IsDist E (next^[i] v) t c)
    (hc' : IsDist E (next^[j] v) t c') : c' < c := by
  induction j, hij using Nat.le_induction generalizing c' with
  | base =>
    obtain ⟨c₁, hc₁, p⟩ := hnext _ (hj i (Nat.lt_succ_self i)) ⟨c, hc.walk⟩
    rw [Function.iterate_succ_apply'] at hc'
    rw [hc.unique hc₁]
    exact p.dist_lt hE hc₁ hc'
  | succ j hij ih =>
    obtain ⟨b, hb⟩ := hnext.reachable_iterate hE hr j fun l hl => hj l (by omega)
    have h1 := ih (fun l hl => hj l (by omega)) hb
    obtain ⟨c₁, hc₁, p⟩ := hnext _ (hj j (Nat.lt_succ_self j)) ⟨b, hb.walk⟩
    rw [Function.iterate_succ_apply'] at hc'
    rw [hb.unique hc₁] at h1
    exact (p.dist_lt hE hc₁ hc').trans h1

/-- **Following first hops reaches the target and visits no vertex twice**, in a graph with
finitely many vertices. -/
theorem Leads.reaches {F : Set V} (hF : F.Finite) (hmem : ∀ u v d, E u v d → v ∈ F)
    (hr : Reachable E v t) :
    ∃ n, next^[n] v = t ∧ ∀ i j, i < j → j ≤ n → next^[i] v ≠ next^[j] v := by
  have hinj : ∀ i j, i < j → (∀ l < j, next^[l] v ≠ t) → next^[i] v ≠ next^[j] v := by
    intro i j hij hj heq
    obtain ⟨c, hc⟩ := hnext.reachable_iterate hE hr j hj
    exact lt_irrefl c (hnext.iterate_lt hE hr hij hj (heq ▸ hc) hc)
  have hex : ∃ n, next^[n] v = t := by
    by_contra hno
    push Not at hno
    -- all the iterates after the first one are in `F`
    have hin : ∀ n, next^[n + 1] v ∈ F := by
      intro n
      obtain ⟨c, hc⟩ := hnext.reachable_iterate hE hr n fun i _ => hno i
      obtain ⟨c₁, -, p⟩ := hnext _ (hno n) ⟨c, hc.walk⟩
      obtain ⟨d, e⟩ := p.edge
      rw [Function.iterate_succ_apply']
      exact hmem _ _ _ e
    have hinf : Function.Injective fun n : ℕ => (⟨next^[n + 1] v, hin n⟩ : F) := by
      intro i j hij
      have hij' : next^[i + 1] v = next^[j + 1] v := congrArg Subtype.val hij
      rcases lt_trichotomy i j with h | h | h
      · exact absurd hij' (hinj _ _ (by omega) fun l _ => hno l)
      · exact h
      · exact absurd hij'.symm (hinj _ _ (by omega) fun l _ => hno l)
    have := hF.to_subtype
    exact not_injective_infinite_finite _ hinf
  classical
  refine ⟨Nat.find hex, Nat.find_spec hex, fun i j hij hj => ?_⟩
  exact hinj i j hij fun l hl => Nat.find_min hex (by omega)

end

end ShortestPath
