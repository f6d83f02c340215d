import Ns2.Lib.Holes
import Ns2.Tcp.FullSender
import Ns2.Tcp.ReassemblyFlags

/-!
# What a SACK sender sends next

`SackFullTcpAgent::nxt_tseq` of `tcp/tcp-full.cc`, and `nexthole` of `tcp/rq.cc`.

* `nexthole_spec` — `nexthole` finds the first hole, and counts the blocks after it.
* `holeLoop_eq_none` — when the first hole is not to be filled, no later one is.
* `holeToFill_isSome` — the search comes to an end.
* `nxtTseq_spec` — what is sent next lies in no block, if and only if there is a hole to be
  filled or `t_seqno_` lies in no block.
-/

namespace Ns2.Tcp

open Intervals Linked

namespace ReassemblyQueue

variable {q : ReassemblyQueue} {xs A B : List Ptr} {seq : ℤ} {x : Ptr}

/-- The number lies in a block of the queue. -/
def Reported (q : ReassemblyQueue) (n : ℤ) : Prop :=
  ∃ p ∈ q.fifoNodes, q.startseq_ p ≤ n ∧ n < q.endseq_ p

instance (q : ReassemblyQueue) (n : ℤ) : Decidable (q.Reported n) :=
  inferInstanceAs (Decidable (∃ p ∈ q.fifoNodes, q.startseq_ p ≤ n ∧ n < q.endseq_ p))

theorem Holds.reported_iff (h : q.Holds xs) {n : ℤ} : q.Reported n ↔ n ∈ q.covered xs := by
  rw [Reported, h.fifoNodes_eq]
  exact Iff.rfl

/-- `nxtcnt` and `nxtbytes` for the blocks after a hole. -/
def counted (q : ReassemblyQueue) (ys : List Ptr) : ℤ × ℤ :=
  if ys = [] then (-1, -1) else (ys.length, total q.startseq_ q.endseq_ ys)

/-- `cnts` counts the blocks from a block on. -/
theorem cnts_spec (h : q.Holds (A ++ B)) :
    ∀ (fuel : ℕ) (blks bytes : ℤ), B.length < fuel →
      q.cnts fuel B.head? blks bytes
        = some (blks + B.length, bytes + total q.startseq_ q.endseq_ B) := by
  induction B generalizing A with
  | nil =>
    intro fuel blks bytes hfuel
    obtain ⟨fuel, rfl⟩ := Nat.exists_eq_add_of_lt hfuel
    simp [cnts, total]
  | cons b B ih =>
    intro fuel blks bytes hfuel
    obtain ⟨fuel, rfl⟩ : ∃ f, fuel = f + 1 := ⟨fuel - 1, by omega⟩
    rw [List.length_cons] at hfuel
    have hnext : q.next_ b = B.head? := h.fifo.next A b B rfl
    rw [List.head?_cons, cnts, hnext, ih (A := A ++ [b]) (by simpa using h) fuel _ _ (by omega),
      total_cons, List.length_cons]
    push_cast
    ring_nf

theorem cnts_counted (h : q.Holds (A ++ B)) (hne : B ≠ []) :
    q.cnts q.bound B.head? 0 0 = some (q.counted B) := by
  have hlen := h.length_lt_bound
  rw [List.length_append] at hlen
  rw [cnts_spec h q.bound 0 0 (by omega), counted, if_neg hne, zero_add, zero_add]

/-- The loop of `nexthole`. -/
theorem nextholeLoop_spec (h : q.Holds (A ++ B)) :
    ∀ fuel, B.length < fuel → q.nextholeLoop seq fuel B.head?
      = some ((hole q.startseq_ q.endseq_ seq B).elim (-1, -1, -1) fun r => (r.1, q.counted r.2)) := by
  induction B generalizing A with
  | nil =>
    intro fuel hfuel
    obtain ⟨fuel, rfl⟩ := Nat.exists_eq_add_of_lt hfuel
    rfl
  | cons b B ih =>
    intro fuel hfuel
    obtain ⟨fuel, rfl⟩ : ∃ f, fuel = f + 1 := ⟨fuel - 1, by omega⟩
    rw [List.length_cons] at hfuel
    have hnext : q.next_ b = B.head? := h.fifo.next A b B rfl
    rw [List.head?_cons, nextholeLoop, hole]
    split
    · have hcnt := cnts_counted h (List.cons_ne_nil b B)
      rw [List.head?_cons] at hcnt
      rw [hcnt]
      rfl
    · split
      · have h' : q.Holds ((A ++ [b]) ++ B) := by simpa using h
        rw [hnext]
        cases B with
        | nil => rfl
        | cons c B =>
          have hcnt := cnts_counted h' (List.cons_ne_nil c B)
          rw [List.head?_cons] at hcnt
          rw [List.head?_cons]
          simp only [hcnt]
          rfl
      · rw [hnext]
        exact ih (A := A ++ [b]) (by simpa using h) fuel (by omega)

/-- `nexthole` finds the first hole, and counts the blocks after it. -/
theorem nexthole_spec (h : q.Holds xs) (seq : ℤ) : q.nexthole seq
    = some ((hole q.startseq_ q.endseq_ seq xs).elim (-1, -1, -1) fun r => (r.1, q.counted r.2)) := by
  rw [nexthole, h.head_eq]
  exact nextholeLoop_spec (A := []) h q.bound h.length_lt_bound

/-- There is less after a later hole. -/
theorem counted_mono (hs : Separated q.startseq_ q.endseq_ (A ++ B)) :
    (q.counted B).1 ≤ (q.counted (A ++ B)).1 ∧ (q.counted B).2 ≤ (q.counted (A ++ B)).2 := by
  have hA := hs.left.total_nonneg
  have hAB := hs.total_nonneg
  unfold counted
  by_cases hB : B = []
  · rw [if_pos hB]
    split
    · exact ⟨le_rfl, le_rfl⟩
    · dsimp only
      constructor <;> omega
  · rw [if_neg hB, if_neg (by simp [hB]), total_append, List.length_append]
    dsimp only
    constructor <;> omega

end ReassemblyQueue

namespace FullTcpSender

open ReassemblyQueue

variable {a : FullTcpSender} {xs : List Ptr} {seq seq' : ℤ}

/-- The thresholds are met by larger counts, too. -/
theorem threshMet_mono {c b c' b' : ℤ} (hc : c ≤ c') (hb : b ≤ b') (h : a.threshMet c b = true) :
    a.threshMet c' b' = true := by
  unfold threshMet at h ⊢
  rw [decide_eq_true_eq] at h ⊢
  rcases h with h | ⟨h, h1⟩ | ⟨h, h1⟩ | ⟨h, h1⟩ | ⟨h, h1, h2⟩
  · exact Or.inl h
  · exact Or.inr (Or.inl ⟨h, h1.trans hc⟩)
  · exact Or.inr (Or.inr (Or.inl ⟨h, h1.trans hb⟩))
  · exact Or.inr (Or.inr (Or.inr (Or.inl ⟨h, h1.imp (fun h => h.trans hc) fun h => h.trans hb⟩)))
  · exact Or.inr (Or.inr (Or.inr (Or.inr ⟨h, h1.trans hc, h2.trans hb⟩)))

/-- The first hole from `seq` on is to be filled. -/
def ToFill (a : FullTcpSender) (seq : ℤ) : Prop :=
  ∃ r, a.sq_.nexthole seq = some r ∧ 0 < r.1 ∧ a.threshMet r.2.1 r.2.2 = true

/-- When the first hole is not to be filled, no later one is. -/
theorem ToFill.of_le (hq : a.sq_.Holds xs) (hle : seq ≤ seq')
    (hpos : ∀ r, a.sq_.nexthole seq = some r → 0 < r.1) (h : a.ToFill seq') : a.ToFill seq := by
  obtain ⟨r, hr, hr1, hr2⟩ := h
  rw [nexthole_spec hq, Option.some_inj] at hr
  cases hhole : hole a.sq_.startseq_ a.sq_.endseq_ seq' xs with
  | none =>
    rw [hhole] at hr
    subst hr
    exact absurd hr1 (show ¬ (0 : ℤ) < -1 by decide)
  | some v =>
    obtain ⟨k, ys'⟩ := v
    rw [hhole] at hr
    subst hr
    obtain ⟨k', ys, hfirst, pre, rfl⟩ := hole_mono hq.blocks hle hhole
    have hspec := nexthole_spec hq seq
    rw [hfirst] at hspec
    refine ⟨_, hspec, hpos _ hspec, ?_⟩
    have hsep : Separated a.sq_.startseq_ a.sq_.endseq_ (pre ++ ys') := by
      obtain ⟨-, pre', hpre⟩ := hole_suffix hfirst
      have hall := hq.blocks
      rw [hpre] at hall
      exact hall.right
    obtain ⟨hc, hb⟩ := counted_mono hsep
    exact threshMet_mono hc hb hr2

/-- When the hole from a place on is not to be filled, the loop finds none. -/
theorem holeLoop_none (hq : a.sq_.Holds xs) (hseg : 0 ≤ a.maxseg_) :
    ∀ (fuel : ℕ) (seq : ℤ), ¬ a.ToFill seq → ∀ o, a.holeLoop fuel seq = some o → o = none := by
  intro fuel
  induction fuel with
  | zero =>
    intro seq _ o h
    cases h
  | succ fuel ih =>
    intro seq hnot o h
    have hspec := nexthole_spec hq seq
    unfold holeLoop at h
    rw [hspec, Option.bind_some] at h
    split at h
    · cases h
      rfl
    · rename_i hpos
      split at h
      · rename_i hmet
        exact absurd ⟨_, hspec, not_le.mp hpos, hmet⟩ hnot
      · split at h
        · cases h
          rfl
        · refine ih _ (fun hlater => hnot (hlater.of_le hq ?_ fun r hr => ?_)) o h
          · cases hhole : hole a.sq_.startseq_ a.sq_.endseq_ seq xs with
            | none =>
              rw [hhole] at hpos
              exact absurd (show (-1 : ℤ) ≤ 0 by decide) hpos
            | some v =>
              obtain ⟨k, ys⟩ := v
              have hge := (hole_suffix hhole).1
              show seq ≤ k + a.maxseg_
              omega
          · rw [hspec, Option.some_inj] at hr
            rw [← hr]
            exact not_le.mp hpos

/-- When the first hole is to be filled, the search finds it. -/
theorem holeToFill_of_toFill (h : a.ToFill a.h_seqno_) :
    ∃ s, a.holeToFill = some (some s) ∧ ∃ c, a.sq_.nexthole a.h_seqno_ = some (s, c) := by
  obtain ⟨r, hr, hpos, hmet⟩ := h
  refine ⟨r.1, ?_, r.2, hr⟩
  unfold holeToFill holeLoop
  rw [hr, Option.bind_some, if_neg (not_le.mpr hpos), if_pos hmet]

/-- The search comes to an end. -/
theorem holeLoop_isSome (hq : a.sq_.Holds xs) (hseg : 0 < a.maxseg_) :
    ∀ (fuel : ℕ) (seq : ℤ), (a.sq_.maxend - seq).toNat + 1 < fuel → (a.holeLoop fuel seq).isSome := by
  intro fuel
  induction fuel with
  | zero =>
    intro seq hfuel
    omega
  | succ fuel ih =>
    intro seq hfuel
    unfold holeLoop
    rw [nexthole_spec hq seq, Option.bind_some]
    split
    · rfl
    · rename_i hpos
      split
      · rfl
      · split
        · rfl
        · rename_i hcnt
          cases hhole : hole a.sq_.startseq_ a.sq_.endseq_ seq xs with
          | none =>
            rw [hhole] at hpos
            exact absurd (show (-1 : ℤ) ≤ 0 by decide) hpos
          | some v =>
            obtain ⟨k, ys⟩ := v
            obtain ⟨hle, pre, hpre⟩ := hole_suffix hhole
            rw [hhole] at hcnt
            -- there is a block after the hole, so that it is not the last one
            have hne : ys ≠ [] := by
              rintro rfl
              exact hcnt (show (-1 : ℤ) ≤ 0 by decide)
            have hlt : k < a.sq_.maxend := by
              obtain ⟨zs, z, rfl⟩ : ∃ zs z, ys = zs ++ [z] :=
                ⟨ys.dropLast, ys.getLast hne, (List.dropLast_append_getLast hne).symm⟩
              have hlo := hole_lt hq.blocks hhole z (by simp)
              have hz := hq.blocks.pos z (by rw [hpre]; simp)
              have htail : a.sq_.tail_ = some z := by
                rw [hq.fifo.tail, hpre]
                simp
              unfold maxend
              rw [htail]
              show k < a.sq_.endseq_ z
              omega
            refine ih _ ?_
            show (a.sq_.maxend - (k + a.maxseg_)).toNat + 1 < fuel
            omega

/-- **What is sent next.**  In recovery, `nxt_tseq` returns; and what it returns lies in no
block of the queue, if and only if the first hole from `h_seqno_` on is to be filled or
`t_seqno_` lies in no block. -/
theorem nxtTseq_spec (hq : a.sq_.Holds xs) (hseg : 0 < a.maxseg_) (hkind : a.kind = .sack)
    (hrec : a.highest_ack_ < a.recover_) :
    ∃ b n, a.nxtTseq = some (b, n) ∧
      (¬ a.sq_.Reported n ↔ a.ToFill a.h_seqno_ ∨ ¬ a.sq_.Reported a.t_seqno_) := by
  by_cases hfill : a.ToFill a.h_seqno_
  · obtain ⟨s, hs, c, hc⟩ := holeToFill_of_toFill hfill
    refine ⟨_, s, by unfold nxtTseq; rw [if_pos ⟨hkind, hrec⟩, hs]; rfl, ?_⟩
    refine iff_of_true ?_ (Or.inl hfill)
    rw [hq.reported_iff]
    obtain ⟨r, hr, hpos, -⟩ := hfill
    rw [hc, Option.some_inj] at hr
    subst hr
    rw [nexthole_spec hq, Option.some_inj] at hc
    cases hhole : hole a.sq_.startseq_ a.sq_.endseq_ a.h_seqno_ xs with
    | none =>
      rw [hhole] at hc
      cases hc
      exact absurd hpos (by decide)
    | some v =>
      rw [hhole] at hc
      cases hc
      exact hole_notMem hq.blocks hhole
  · obtain ⟨o, ho⟩ := Option.isSome_iff_exists.mp
      (holeLoop_isSome hq hseg ((a.sq_.maxend - a.h_seqno_).toNat + 2) a.h_seqno_ (by omega))
    obtain rfl := holeLoop_none hq hseg.le _ _ hfill o ho
    have ho : a.holeToFill = some none := ho
    refine ⟨_, a.t_seqno_, by unfold nxtTseq; rw [if_pos ⟨hkind, hrec⟩, ho]; rfl, ?_⟩
    exact ⟨Or.inr, fun hor => hor.resolve_left hfill⟩

end FullTcpSender

end Ns2.Tcp
