import Ns2.Tcp.Reass

/-!
# Flags that no segment had

The flags of a block, and those that the queue returns, come from the segments that were added.

* `Without f` — no node of the queue has a flag of `f`.
* `add_without`, `clearto_without`, `clear_without` — the operations keep that.
* `reass_without` — a receiver that has got no segment with such a flag.
-/

namespace Ns2.Tcp.ReassemblyQueue

/-- No node has a flag of `f`. -/
def Without (f : TcpFlag) (q : ReassemblyQueue) : Prop := ∀ x, q.pflags_ x &&& f = 0

variable {q q' : ReassemblyQueue} {f g tiflags flags : TcpFlag} {s e initcnt : ℤ} {rqflags : ℕ}

theorem or_and_eq_zero {a b : TcpFlag} (ha : a &&& f = 0) (hb : b &&& f = 0) : (a ||| b) &&& f = 0 := by
  rw [Nat.and_or_distrib_right, ha, hb]
  rfl

theorem without_new (n : ℤ) : (new n).Without f := fun _ => Nat.zero_and f

/-- The flags of one node change. -/
theorem Without.update (h : q.Without f) (hg : g &&& f = 0) {x : Ptr}
    (hq : q'.pflags_ = Function.update q.pflags_ x g) : q'.Without f := by
  intro y
  rw [hq]
  by_cases hy : y = x
  · rw [hy, Function.update_self]
    exact hg
  · rw [Function.update_of_ne hy]
    exact h y

/-! ## Clearing -/

theorem clearLoop_without {fuel : ℕ} {p p' : Option Ptr} (hq : q.Without f) (hg : g &&& f = 0)
    (h : clearLoop s fuel q p g = some (q', p', flags)) : q'.Without f ∧ flags &&& f = 0 := by
  induction fuel generalizing q p g with
  | zero => cases h
  | succ fuel ih =>
    cases p with
    | none =>
      cases h
      exact ⟨hq, hg⟩
    | some p =>
      rw [clearLoop] at h
      split_ifs at h
      · refine ih ?_ (or_and_eq_zero hg (hq p)) h
        exact hq
      · cases h
        exact ⟨hq, hg⟩

theorem trim_without (hq : q.Without f) (hg : g &&& f = 0) (p : Option Ptr) :
    (q.trim s g p).1.Without f ∧ (q.trim s g p).2 &&& f = 0 := by
  cases p with
  | none => exact ⟨hq, hg⟩
  | some p =>
    rw [trim]
    split_ifs
    · exact ⟨hq, or_and_eq_zero hg (hq p)⟩
    · exact ⟨hq, hg⟩

theorem clearto_without (hq : q.Without f) (h : q.clearto s = some (q', flags)) :
    q'.Without f ∧ flags &&& f = 0 := by
  unfold clearto at h
  split at h
  · cases h
  · rename_i q₁ p g hloop
    obtain ⟨h1, h2⟩ := clearLoop_without hq (Nat.zero_and f) hloop
    obtain ⟨h3, h4⟩ := trim_without (s := s) h1 h2 p
    obtain ⟨rfl, rfl⟩ := Prod.mk.inj (Option.some.inj h)
    exact ⟨h3, h4⟩

theorem clear_without (hq : q.Without f) (h : q.clear = some q') : q'.Without f := by
  obtain ⟨l, -, rfl⟩ := Option.map_eq_some_iff.mp h
  exact hq

/-! ## Adding a block -/

theorem coalesce_without {p r : Option Ptr} {n : Ptr} (hq : q.Without f)
    (h : q.coalesce p n r = some (q', flags)) : q'.Without f ∧ flags &&& f = 0 := by
  have hor : ∀ x, (q.pflags_ x ||| q.pflags_ n) &&& f = 0 := fun x => or_and_eq_zero (hq x) (hq n)
  unfold coalesce at h
  split at h
  · split_ifs at h
    · cases h
      exact ⟨hq.update (hor _) rfl, hor _⟩
    · cases h
      exact ⟨hq.update (hor _) rfl, hor _⟩
    · cases h
      exact ⟨hq.update (hor _) rfl, hor _⟩
    · cases h
      exact ⟨hq, Nat.zero_and f⟩
  · split_ifs at h
    · cases h
      exact ⟨hq.update (hor _) rfl, hor _⟩
    · cases h
      exact ⟨hq, Nat.zero_and f⟩
  · split_ifs at h
    cases h
    exact ⟨hq.update (hor _) rfl, hor _⟩
  · cases h

theorem endfast_without {p r : Option Ptr} {needmerge : Bool} (hq : q.Without f) (ht : tiflags &&& f = 0)
    (h : q.endfast p r s e tiflags rqflags initcnt needmerge = some (q', flags)) :
    q'.Without f ∧ flags &&& f = 0 := by
  have hnew : (q.insertNode p r s e tiflags rqflags initcnt).Without f := hq.update ht rfl
  unfold endfast at h
  dsimp only at h
  by_cases hmerge : needmerge = true
  · rw [if_pos hmerge] at h
    exact coalesce_without hnew h
  · rw [if_neg hmerge] at h
    cases h
    exact ⟨hnew, ht⟩

/-- How the loop may end. -/
def Swept.Without (f : TcpFlag) : Swept → Prop
  | .exactOverlap q flags => q.Without f ∧ flags &&& f = 0
  | .done q tiflags _ _ => q.Without f ∧ tiflags &&& f = 0

theorem sweep_without {last p : Option Ptr} {fuel : ℕ} {altered : Bool} {w : Swept} (hq : q.Without f)
    (ht : tiflags &&& f = 0) (h : sweep last s e fuel q p tiflags initcnt altered = some w) :
    w.Without f := by
  induction fuel generalizing q p tiflags initcnt altered with
  | zero => cases h
  | succ fuel ih =>
    cases p with
    | none =>
      cases h
      exact ⟨hq, ht⟩
    | some r =>
      have hor : (q.pflags_ r ||| tiflags) &&& f = 0 := or_and_eq_zero (hq r) ht
      rw [sweep] at h
      split_ifs at h
      · cases h
        exact ⟨hq, ht⟩
      · cases h
        exact ⟨hq.update hor rfl, hor⟩
      · refine ih ?_ (or_and_eq_zero ht (hq r)) h
        exact hq
      · exact ih hq ht h

theorem extendLeft_without (hq : q.Without f) (ht : tiflags &&& f = 0) (x : Option Ptr) :
    (q.extendLeft s tiflags x).Without f := by
  cases x with
  | none => exact hq
  | some x => exact hq.update (or_and_eq_zero (hq x) ht) rfl

theorem extendRight_without (hq : q.Without f) (ht : tiflags &&& f = 0) (x : Option Ptr) :
    (q.extendRight e tiflags x).Without f := by
  cases x with
  | none => exact hq
  | some x => exact hq.update (or_and_eq_zero (hq x) ht) rfl

theorem merge_without {p r : Option Ptr} (hq : q.Without f) (ht : tiflags &&& f = 0)
    (h : q.merge p r s e tiflags rqflags initcnt = some (q', flags)) : q'.Without f ∧ flags &&& f = 0 := by
  unfold merge at h
  obtain ⟨l, -, h⟩ := Option.bind_eq_some_iff.mp h
  obtain ⟨m, -, h⟩ := Option.bind_eq_some_iff.mp h
  have h₂ := extendRight_without (e := e) (extendLeft_without (s := s) hq ht l) ht m
  dsimp only at h
  split_ifs at h
  · obtain ⟨x, -, heq⟩ := Option.map_eq_some_iff.mp h
    obtain ⟨rfl, rfl⟩ := Prod.mk.inj heq
    exact ⟨h₂, ht⟩
  · exact endfast_without h₂ ht h

theorem again2_without {fuel : ℕ} (hq : q.Without f) (ht : tiflags &&& f = 0)
    (h : again2 s e rqflags fuel q tiflags initcnt = some (q', flags)) :
    q'.Without f ∧ flags &&& f = 0 := by
  induction fuel generalizing q tiflags initcnt with
  | zero => cases h
  | succ fuel ih =>
    unfold again2 at h
    split at h
    · split_ifs at h
      · exact endfast_without hq ht h
      · exact endfast_without hq ht h
      · obtain ⟨r, -, h⟩ := Option.bind_eq_some_iff.mp h
        obtain ⟨p, -, h⟩ := Option.bind_eq_some_iff.mp h
        obtain ⟨w, hw, h⟩ := Option.bind_eq_some_iff.mp h
        have hswept := sweep_without hq ht hw
        cases w with
        | exactOverlap q₁ g =>
          obtain ⟨rfl, rfl⟩ := Prod.mk.inj (Option.some.inj h)
          exact hswept
        | done q₁ g cnt altered =>
          dsimp only at h
          split_ifs at h
          · exact endfast_without hswept.1 hswept.2 h
          · exact ih hswept.1 hswept.2 h
          · exact merge_without hswept.1 hswept.2 h
    · cases h

theorem add_without (hq : q.Without f) (ht : tiflags &&& f = 0)
    (h : q.add s e tiflags rqflags = some (q', flags)) : q'.Without f ∧ flags &&& f = 0 := by
  unfold add at h
  split at h
  · cases h
  · split at h
    · split_ifs at h
      cases h
      exact ⟨hq.update ht rfl, ht⟩
    · exact again2_without hq ht h

/-- **A segment without the flags.** -/
theorem reass_without {state_ : TcpState} (hq : q.Without f) (ht : tiflags &&& f = 0)
    (h : q.reass state_ s e tiflags = some (q', flags)) : q'.Without f ∧ flags &&& f = 0 := by
  unfold reass at h
  split at h
  · cases h
  · obtain ⟨⟨q₁, g⟩, hadd, h⟩ := Option.bind_eq_some_iff.mp h
    obtain ⟨h1, h2⟩ := add_without hq ht hadd
    dsimp only at h
    split_ifs at h
    · cases h
      exact ⟨h1, Nat.zero_and f⟩
    · cases h
      exact ⟨h1, Nat.zero_and f⟩
    · obtain ⟨⟨q₂, g'⟩, hclear, heq⟩ := Option.map_eq_some_iff.mp h
      obtain ⟨h3, h4⟩ := clearto_without h1 hclear
      obtain ⟨rfl, rfl⟩ := Prod.mk.inj heq
      exact ⟨h3, or_and_eq_zero h2 h4⟩

end Ns2.Tcp.ReassemblyQueue
