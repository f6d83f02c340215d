import Mathlib

/-!
# Loop-freedom of distance-vector routes

Every node keeps a label for its route to a destination `d`, smaller is better, and maybe a
next hop; messages advertise the label of their sender at some earlier time.

* `LoopFree` — following the next hops visits no node twice before `d`.
* `Route`, `Adopts` — what a node keeps, and the changes it may make: its label does not get
  worse, and a new next hop has advertised a better label.
* `Sound` — every message is at least as bad as its sender, and every next hop is strictly
  better.  `Sound.step` keeps it, `Sound.loopFree` is what it is good for.
* `seqLabel` — labels of a sequence number, where larger is better, and a distance.
-/

namespace DistanceVector

variable {V L : Type*}

/-- Following `next` visits no node twice before `d`. -/
def LoopFree (next : V → Option V) (d : V) : Prop :=
  ∀ (v : ℕ → V) (n : ℕ), (∀ i < n, v i ≠ d ∧ next (v i) = some (v (i + 1))) →
    ∀ i j, i < j → j ≤ n → v i ≠ v j

/-- What a node keeps for a destination. -/
structure Route (V L : Type*) where
  label : L
  next : Option V

/-- The next hop of a node, if it has a route. -/
def nextHop (o : Option (Route V L)) : Option V := o.bind Route.next

section

variable [Preorder L]

/-- A change of what a node keeps for `d`, with the advertisements `M` of other nodes. -/
structure Adopts (M : Set (V × L)) (d : V) (o o' : Option (Route V L)) : Prop where
  /-- The label does not get worse. -/
  label_le : ∀ r, o = some r → ∃ r', o' = some r' ∧ r'.label ≤ r.label
  /-- A next hop has been there with this label, is `d`, or has advertised a better label. -/
  next_of : ∀ r', o' = some r' → ∀ w, r'.next = some w →
    (∃ r, o = some r ∧ r.next = some w ∧ r.label = r'.label) ∨ w = d ∨
      ∃ l, (w, l) ∈ M ∧ l < r'.label

/-- The labels keep their promises. -/
structure Sound (M : Set (V × L)) (d : V) (route : V → Option (Route V L)) : Prop where
  /-- A node is at least as good as it has advertised. -/
  advert : ∀ w l, (w, l) ∈ M → w = d ∨ ∃ r, route w = some r ∧ r.label ≤ l
  /-- A next hop is better. -/
  next : ∀ u r w, u ≠ d → route u = some r → r.next = some w →
    w = d ∨ ∃ r', route w = some r' ∧ r'.label < r.label

variable {M M' : Set (V × L)} {d u : V} {o o' o'' : Option (Route V L)}
  {route route' : V → Option (Route V L)}

/-! ## Changes of one node -/

theorem Adopts.refl (o : Option (Route V L)) : Adopts M d o o where
  label_le r hr := ⟨r, hr, le_rfl⟩
  next_of r' hr' _ hw := Or.inl ⟨r', hr', hw, rfl⟩

theorem Adopts.trans (h : Adopts M d o o') (h' : Adopts M d o' o'') : Adopts M d o o'' where
  label_le r hr := by
    obtain ⟨r', hr', hle⟩ := h.label_le r hr
    obtain ⟨r'', hr'', hle'⟩ := h'.label_le r' hr'
    exact ⟨r'', hr'', hle'.trans hle⟩
  next_of r'' hr'' w hw := by
    rcases h'.next_of r'' hr'' w hw with ⟨r', hr', hw', hl⟩ | h' | h'
    · rw [← hl]
      exact h.next_of r' hr' w hw'
    · exact Or.inr (Or.inl h')
    · exact Or.inr (Or.inr h')

/-- A node without a route may take any that leads to `d` itself, or to a node that has
advertised a better label. -/
theorem Adopts.of_none {r : Route V L}
    (h : ∀ w, r.next = some w → w = d ∨ ∃ l, (w, l) ∈ M ∧ l < r.label) :
    Adopts M d none (some r) where
  label_le r hr := absurd hr (by simp)
  next_of r' hr' w hw := Or.inr (Option.some.inj hr' ▸ h w (Option.some.inj hr' ▸ hw))

/-- A better label, with such a next hop. -/
theorem Adopts.of_le {r r' : Route V L} (hl : r'.label ≤ r.label)
    (h : ∀ w, r'.next = some w → w = d ∨ ∃ l, (w, l) ∈ M ∧ l < r'.label) :
    Adopts M d (some r) (some r') where
  label_le _ hr₀ := ⟨r', rfl, Option.some.inj hr₀ ▸ hl⟩
  next_of _ hr₀ w hw := Or.inr (Option.some.inj hr₀ ▸ h w (Option.some.inj hr₀ ▸ hw))

/-- The next hop is given up, and the label does not get worse. -/
theorem Adopts.give_up {r r' : Route V L} (hl : r'.label ≤ r.label) (h : r'.next = none) :
    Adopts M d (some r) (some r') :=
  Adopts.of_le hl fun w hw => absurd (h.symm.trans hw) (by simp)

theorem Adopts.mono (h : Adopts M d o o') (hM : M ⊆ M') : Adopts M' d o o' where
  label_le := h.label_le
  next_of r' hr' w hw := (h.next_of r' hr' w hw).imp_right
    (Or.imp_right fun ⟨l, hl, hlt⟩ => ⟨l, hM hl, hlt⟩)

/-! ## The invariant -/

/-- Nobody has a route and nothing has been advertised, except by `d`. -/
theorem Sound.init (hM : ∀ w l, (w, l) ∈ M → w = d) (h : ∀ u, u ≠ d → nextHop (route u) = none) :
    Sound M d route where
  advert w l hl := Or.inl (hM w l hl)
  next u r _ hu hr hw := by
    have := h u hu
    rw [hr] at this
    exact absurd (this.symm.trans hw) (by simp)

/-- **One step.**  A node makes such a change and advertises labels that are no better than
its new one; `d` itself may do what it likes. -/
theorem Sound.step (h : Sound M d route) (hother : ∀ v, v ≠ u → route' v = route v)
    (hu : u ≠ d → Adopts M d (route u) (route' u))
    (hM : ∀ w l, (w, l) ∈ M' → (w, l) ∈ M ∨ w = d ∨
      w = u ∧ ∃ r, route' u = some r ∧ r.label ≤ l) : Sound M' d route' := by
  -- the label of a node other than `d` does not get worse
  have hle : ∀ w, w ≠ d → ∀ r, route w = some r → ∃ r', route' w = some r' ∧ r'.label ≤ r.label := by
    intro w hw r hr
    by_cases hwu : w = u
    · subst hwu
      exact (hu hw).label_le r hr
    · exact ⟨r, by rw [hother w hwu, hr], le_rfl⟩
  have hold : ∀ w l, (w, l) ∈ M → w = d ∨ ∃ r, route' w = some r ∧ r.label ≤ l := by
    intro w l hl
    by_cases hw : w = d
    · exact Or.inl hw
    · obtain ⟨r, hr, hrl⟩ := (h.advert w l hl).resolve_left hw
      obtain ⟨r', hr', hr'l⟩ := hle w hw r hr
      exact Or.inr ⟨r', hr', hr'l.trans hrl⟩
  -- a next hop that was better stays better
  have hbetter : ∀ (w : V) (r : Route V L), w = d ∨ (∃ r', route w = some r' ∧ r'.label < r.label) →
      w = d ∨ ∃ r', route' w = some r' ∧ r'.label < r.label := by
    intro w r hb
    by_cases hw : w = d
    · exact Or.inl hw
    · obtain ⟨r', hr', hlt⟩ := hb.resolve_left hw
      obtain ⟨r'', hr'', hr''l⟩ := hle w hw r' hr'
      exact Or.inr ⟨r'', hr'', lt_of_le_of_lt hr''l hlt⟩
  refine ⟨fun w l hl => ?_, fun v r w hv hr hw => ?_⟩
  · rcases hM w l hl with hl | hd | ⟨rfl, hr⟩
    · exact hold w l hl
    · exact Or.inl hd
    · exact Or.inr hr
  · by_cases hvu : v = u
    · subst hvu
      rcases (hu hv).next_of r hr w hw with ⟨r₀, hr₀, hw₀, hl⟩ | hd | ⟨l, hl, hlt⟩
      · exact hbetter w r (hl ▸ h.next v r₀ w hv hr₀ hw₀)
      · exact Or.inl hd
      · rcases hold w l hl with hd | ⟨r', hr', hle⟩
        · exact Or.inl hd
        · exact Or.inr ⟨r', hr', lt_of_le_of_lt hle hlt⟩
    · rw [hother v hvu] at hr
      exact hbetter w r (h.next v r w hv hr hw)

/-- **Loop-freedom.**  Along the next hops the labels get better. -/
theorem Sound.loopFree (h : Sound M d route) : LoopFree (fun u => nextHop (route u)) d := by
  intro v n hstep
  have hroute : ∀ i < n, ∃ r, route (v i) = some r ∧ r.next = some (v (i + 1)) := fun i hi => by
    obtain ⟨r, hr, hn⟩ := Option.bind_eq_some_iff.mp (hstep i hi).2
    exact ⟨r, hr, hn⟩
  have hlt : ∀ i j, i < j → j ≤ n → v j = d ∨
      ∀ r, route (v i) = some r → ∃ r', route (v j) = some r' ∧ r'.label < r.label := by
    intro i j hij
    induction j, hij using Nat.le_induction with
    | base =>
      intro hn
      obtain ⟨r, hr, hnext⟩ := hroute i hn
      rcases h.next (v i) r _ (hstep i hn).1 hr hnext with hd | hb
      · exact Or.inl hd
      · exact Or.inr fun r' hr' => Option.some.inj (hr.symm.trans hr') ▸ hb
    | succ j hij ih =>
      intro hn
      obtain ⟨rj, hrj, hnext⟩ := hroute j hn
      rcases h.next (v j) rj _ (hstep j hn).1 hrj hnext with hd | ⟨r', hr', hlt'⟩
      · exact Or.inl hd
      · refine Or.inr fun r hr => ?_
        rcases ih (Nat.le_of_succ_le hn) with hd | hb
        · exact absurd hd (hstep j hn).1
        · obtain ⟨r₀, hr₀, hlt₀⟩ := hb r hr
          obtain rfl := Option.some.inj (hrj.symm.trans hr₀)
          exact ⟨r', hr', hlt'.trans hlt₀⟩
  intro i j hij hj heq
  rcases hlt i j hij hj with hd | hb
  · exact (hstep i (lt_of_lt_of_le hij hj)).1 (heq.trans hd)
  · obtain ⟨r, hr, -⟩ := hroute i (lt_of_lt_of_le hij hj)
    obtain ⟨r', hr', hlt'⟩ := hb r hr
    rw [← heq, hr] at hr'
    obtain rfl := Option.some.inj hr'
    exact lt_irrefl _ hlt'

end

/-! ## Sequence numbers and distances -/

/-- The label of a route with sequence number `s` and distance `m`. -/
def seqLabel (s m : ℕ) : ℕᵒᵈ ×ₗ ℕ := toLex (OrderDual.toDual s, m)

theorem seqLabel_le_iff {s m s' m' : ℕ} :
    seqLabel s m ≤ seqLabel s' m' ↔ s' < s ∨ s = s' ∧ m ≤ m' := by
  simp [seqLabel, Prod.Lex.le_iff]

theorem seqLabel_lt_iff {s m s' m' : ℕ} :
    seqLabel s m < seqLabel s' m' ↔ s' < s ∨ s = s' ∧ m < m' := by
  simp [seqLabel, Prod.Lex.lt_iff]

end DistanceVector
