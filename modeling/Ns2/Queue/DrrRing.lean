import Ns2.Lib.Cycle
import Ns2.Queue.Drr

/-!
# The active buckets of deficit round robin

* `Ring s l` — the list of active buckets is `l`, with the current one first.
* `Ring.activate`, `Ring.idle`, `Ring.advance` — a bucket joins, a bucket leaves,
  it is the turn of the next bucket.
* `Ring.getMaxflow` — the bucket with most bytes is one of them.
-/

namespace Ns2.Queue.DRR

open Function (update)
open Linked

/-- The active buckets are `l`, the current one first. -/
structure Ring (s : DRR) (l : List ℕ) : Prop where
  curr : s.curr = l.head?
  cycle : IsCycle s.next s.prev l

/-- Two states that differ in the list of active buckets only. -/
def SameButRing (s s' : DRR) : Prop :=
  s' = { s with prev := s'.prev, next := s'.next, curr := s'.curr }

variable {s s' : DRR} {l A B t : List ℕ} {a b : ℕ}

theorem Ring.congr (h : Ring s l) (hc : s'.curr = s.curr) (hn : s'.next = s.next)
    (hp : s'.prev = s.prev) : Ring s' l :=
  ⟨hc.trans h.curr, hn ▸ hp ▸ h.cycle⟩

/-- A bucket joins the others. -/
theorem Ring.activate (h : Ring s l) (hb : b ∉ l) :
    ∃ s', s.activate b = some s' ∧ Ring s' (l ++ [b]) ∧ SameButRing s s' := by
  unfold DRR.activate
  cases l with
  | nil =>
    rw [h.curr]
    refine ⟨_, rfl, ⟨rfl, IsCycle.singleton ?_ ?_⟩, rfl⟩
    · exact Function.update_self _ _ _
    · exact Function.update_self _ _ _
  | cons a t =>
    obtain ⟨p, hp⟩ := h.cycle.exists_prev
    have hab : a ≠ b := fun hab => hb (hab ▸ List.mem_cons_self)
    have hcurr : s.curr = some a := h.curr
    have hprev : update s.prev b (s.prev a) a = some p := by
      rw [Function.update_of_ne hab, hp]
    rw [hcurr]
    simp only [hprev, Option.map_some]
    refine ⟨_, rfl, ⟨rfl, ?_⟩, rfl⟩
    have hins := h.cycle.insert hb hp
    rw [← hp] at hins
    exact hins

/-- The neighbours of a bucket that is not alone are linked. -/
theorem Ring.unlink (h : Ring s (A ++ b :: B)) (hne : A ++ B ≠ []) :
    ∃ s', s.unlink b = some s' ∧ IsCycle s'.next s'.prev (A ++ B) ∧
      s'.next b = s.next b ∧ s' = { s with prev := s'.prev, next := s'.next } := by
  obtain ⟨hn, hp⟩ := h.cycle.pointers
  obtain ⟨p, hp⟩ : ∃ p, s.prev b = some p :=
    ⟨_, hp.trans (List.getLast?_eq_some_getLast (List.cons_ne_nil _ _))⟩
  have hBA : B ++ A ≠ [] := fun hBA => hne (by
    obtain ⟨rfl, rfl⟩ := List.append_eq_nil_iff.mp hBA
    rfl)
  obtain ⟨n, r, hcons⟩ := List.exists_cons_of_ne_nil hBA
  have hnext : s.next b = some n := by
    rw [hn, hcons]
    rfl
  have hrot : IsCycle s.next s.prev (b :: (B ++ A)) := h.cycle.rotate
  have hnb : n ≠ b := by
    rintro rfl
    rw [hcons] at hrot
    exact (List.nodup_cons.mp hrot.nodup).1 List.mem_cons_self
  have hpb : p ≠ b := by
    rintro rfl
    have hlast : (p :: (B ++ A)).getLast? = some p := hrot.prev.symm.trans hp
    rw [hcons, List.getLast?_cons_cons] at hlast
    exact (List.nodup_cons.mp hrot.nodup).1 (hcons ▸ List.mem_of_getLast? hlast)
  have hprev : update s.prev n (s.prev b) b = some p := by
    rw [Function.update_of_ne hnb.symm, hp]
  unfold DRR.unlink
  simp only [hnext, hprev, Option.bind_eq_bind, Option.bind_some]
  refine ⟨_, rfl, ?_, ?_, rfl⟩
  · have hrem := h.cycle.remove hnext hp hnb
    rw [← hp] at hrem
    exact hrem
  · simp only
    rw [Function.update_of_ne hpb.symm, hnext]

/-- A bucket leaves the others. -/
theorem Ring.idle (h : Ring s (A ++ b :: B)) :
    ∃ s', s.idle b = some s' ∧ Ring s' (A ++ B) ∧ SameButRing s s' := by
  have hnext := h.cycle.pointers.1
  unfold DRR.idle
  cases A with
  | nil =>
    have hcurr : s.curr = some b := h.curr
    rw [if_pos hcurr]
    cases B with
    | nil =>
      have hself : s.next b = some b := hnext
      rw [if_pos hself]
      exact ⟨_, rfl, ⟨rfl, List.nodup_nil, trivial⟩, rfl⟩
    | cons n B =>
      have hn : s.next b = some n := hnext
      have hnb : n ≠ b := by
        rintro rfl
        have hnd : (n :: n :: B).Nodup := h.cycle.nodup
        exact (List.nodup_cons.mp hnd).1 List.mem_cons_self
      obtain ⟨s', hs', hcyc, hn', heq⟩ := Ring.unlink (A := []) h (List.cons_ne_nil n B)
      rw [if_neg fun hc => hnb (Option.some.inj (hn.symm.trans hc)), hs']
      refine ⟨_, rfl, ⟨?_, hcyc⟩, ?_⟩
      · exact hn'.trans hn
      · unfold SameButRing
        rw [heq]
  | cons a A =>
    have hcurr : s.curr = some a := h.curr
    have hab : a ≠ b := by
      rintro rfl
      have hnd : (a :: (A ++ a :: B)).Nodup := h.cycle.nodup
      exact (List.nodup_cons.mp hnd).1 (by simp)
    rw [hcurr, if_neg fun hc => hab (Option.some.inj hc)]
    obtain ⟨s', hs', hcyc, -, heq⟩ := Ring.unlink (A := a :: A) h (List.cons_ne_nil a _)
    refine ⟨s', hs', ⟨?_, hcyc⟩, ?_⟩
    · rw [heq]
      exact hcurr
    · unfold SameButRing
      rw [heq]

/-- It is the turn of the next bucket. -/
theorem Ring.advance (h : Ring s (a :: t)) (hc : s'.curr = s.next a) (hn : s'.next = s.next)
    (hp : s'.prev = s.prev) : Ring s' (t ++ [a]) :=
  ⟨hc.trans h.cycle.next, hn ▸ hp ▸ IsCycle.rotate (A := [a]) (B := t) h.cycle⟩

/-! ## The bucket with most bytes -/

/-- The loop over the rest of the active buckets. -/
theorem maxflowLoop_spec {z m : ℕ} (h : (l ++ [z]).IsChain (Adj s.next s.prev)) :
    ∃ m', s.maxflowLoop l.length (l ++ [z]).head? m = some m' ∧ (m' = m ∨ m' ∈ l) ∧
      s.bcount m ≤ s.bcount m' ∧ ∀ x ∈ l, s.bcount x ≤ s.bcount m' := by
  induction l generalizing m with
  | nil => exact ⟨m, rfl, Or.inl rfl, le_rfl, fun x hx => absurd hx List.not_mem_nil⟩
  | cons x l ih =>
    have hchain : (x :: (l ++ [z])).IsChain (Adj s.next s.prev) := h
    have hnext : s.next x = (l ++ [z]).head? := by
      cases l with
      | nil => exact (List.isChain_cons_cons.mp hchain).1.1
      | cons y l => exact (List.isChain_cons_cons.mp hchain).1.1
    obtain ⟨m', hm', hmem, hle, hall⟩ :=
      ih (m := if s.bcount m < s.bcount x then x else m) hchain.tail
    refine ⟨m', ?_, ?_, ?_, ?_⟩
    · show s.maxflowLoop l.length (s.next x) _ = some m'
      rw [hnext]
      exact hm'
    · rcases hmem with rfl | hmem
      · split_ifs
        · exact Or.inr List.mem_cons_self
        · exact Or.inl rfl
      · exact Or.inr (List.mem_cons_of_mem x hmem)
    · split_ifs at hle <;> omega
    · intro y hy
      rcases List.mem_cons.mp hy with rfl | hy
      · split_ifs at hle <;> omega
      · exact hall y hy

/-- The bucket with most bytes. -/
theorem Ring.getMaxflow (h : Ring s (a :: t)) (hf : s.flwcnt = (a :: t).length) :
    ∃ m, s.getMaxflow a = some m ∧ m ∈ a :: t ∧ ∀ x ∈ a :: t, s.bcount x ≤ s.bcount m := by
  obtain ⟨m, hm, hmem, -, hall⟩ := maxflowLoop_spec (l := a :: t) (m := a) h.cycle.isChain
  have hlen : s.flwcnt.toNat = (a :: t).length := by
    rw [hf]
    exact Int.toNat_natCast _
  refine ⟨m, ?_, ?_, hall⟩
  · unfold DRR.getMaxflow
    rw [hlen]
    exact hm
  · rcases hmem with rfl | hmem
    · exact List.mem_cons_self
    · exact hmem

end Ns2.Queue.DRR
