import Ns2.Queue.SrrMatrix

/-!
# Service by weight

* `visits` — the queues of the columns that the sequence names, in order.
* `Upcoming` — the queues that the next calls of `getNextNode` return: the rest of the column, the columns
  that the sequence names before it comes back to this one, and the column up to the current node.
* `calls_upcoming` — the calls return them, and then they are upcoming again.
* `count_upcoming` — each queue is upcoming as often as its weight.
* `serves_by_weight` — **no operation exits, and each queue is served by its weight**.
-/

namespace Ns2.Queue

open Ruler

variable {s s' : SRR} {m : ℕ → ℕ → Prop} {k x : ℕ} {U : List ℕ}

/-! ## Upcoming queues -/

/-- The length of the sequence for the highest column `k`. -/
def period (k : ℕ) : ℕ := 2 ^ (k + 1) - 1

/-- The column that is read at the place `j`. -/
def term (k j : ℕ) : ℕ := k + 1 - pwss (j % period k)

/-- The queues of the columns that the sequence names at `n` places from `j` on. -/
def visits (column : ℕ → List ℕ) (k j n : ℕ) : List ℕ :=
  (List.range' j n).flatMap fun i => column (term k i)

/-- The current node is `q`, between `pre` and `post` in the column that was read at the place `i`. -/
structure At (s : SRR) (k i q : ℕ) (pre post : List ℕ) : Prop where
  top : s.currMaxColumn = k
  curr : s.pwmCurr = some (q, term k i)
  col : s.column (term k i) = pre ++ q :: post
  ptr : s.ptr = (i + 1) % period k

/-- The queues that the next calls return. -/
def Upcoming (s : SRR) (k : ℕ) (U : List ℕ) : Prop :=
  ∃ i q pre post, At s k i q pre post ∧
    U = post ++ visits s.column k (i + 1) (period k - 1) ++ (pre ++ [q])

theorem period_pos (k : ℕ) : 0 < period k := by
  have := two_le_two_pow k
  rw [period]
  omega

theorem term_add_period (k j : ℕ) : term k (j + period k) = term k j := by
  rw [term, term, Nat.add_mod_right]

/-- A round that begins at `j` begins with the column of `j`. -/
theorem visits_first (column : ℕ → List ℕ) (k j : ℕ) :
    visits column k j (period k) = column (term k j) ++ visits column k (j + 1) (period k - 1) := by
  obtain ⟨n, hn⟩ : ∃ n, period k = n + 1 := ⟨period k - 1, by have := period_pos k; omega⟩
  rw [hn, Nat.add_sub_cancel, visits, List.range'_succ, List.flatMap_cons]
  rfl

/-- A round that begins after `j` ends with the column of `j`. -/
theorem visits_last (column : ℕ → List ℕ) (k j : ℕ) :
    visits column k (j + 1) (period k) = visits column k (j + 1) (period k - 1) ++ column (term k j) := by
  obtain ⟨n, hn⟩ : ∃ n, period k = n + 1 := ⟨period k - 1, by have := period_pos k; omega⟩
  have hterm : term k (j + 1 + n) = term k j := by
    rw [Nat.add_assoc, Nat.add_comm 1 n, ← hn, term_add_period]
  unfold visits
  rw [hn, Nat.add_sub_cancel, List.range'_concat, List.flatMap_append, Nat.one_mul, List.flatMap_singleton,
    hterm]

/-- The pointer goes to the next place. -/
theorem inc_ptr_mod (k j : ℕ) : WSS.inc_ptr (j % period k) (k + 1) = (j + 1) % period k := by
  have hlt := Nat.mod_lt j (period_pos k)
  have hpow : 2 ^ (k + 1) = period k + 1 := by
    have := two_le_two_pow k
    rw [period]
    omega
  have hmod : (j + 1) % period k = (j % period k + 1) % period k := (Nat.mod_add_mod j _ 1).symm
  rw [WSS.inc_ptr, hpow, hmod]
  split_ifs with hend
  · rw [show j % period k + 1 = period k by omega, Nat.mod_self]
  · exact (Nat.mod_eq_of_lt (by omega)).symm

/-- **Reading** from the place `j` on goes to the first queue of the round, and the others are upcoming. -/
theorem again_upcoming {n j : ℕ} (h : s.again n = some s') (hk : s.currMaxColumn = k)
    (hptr : s.ptr = j % period k) :
    ∃ x T c, visits s.column k j (period k) = x :: T ∧ Upcoming s' k (T ++ [x]) ∧
      s'.pwmCurr = some (x, c) ∧ s'.column = s.column := by
  induction n generalizing s j with
  | zero => exact absurd h (by simp [SRR.again])
  | succ n ih =>
    have horder : (s.currMaxColumn + 1).toNat = k + 1 := by omega
    have hget : WSS.get s.ptr (k + 1) = some (pwss (j % period k)) := by
      have hlt := Nat.mod_lt j (period_pos k)
      rw [← hptr] at hlt ⊢
      rw [period] at hlt
      exact if_neg (by omega)
    unfold SRR.again at h
    dsimp only at h
    rw [horder, hget, Option.bind_some] at h
    have hinc : WSS.inc_ptr s.ptr (k + 1) = (j + 1) % period k := by rw [hptr, inc_ptr_mod]
    cases hcol : s.column (term k j) with
    | nil =>
      rw [show k + 1 - pwss (j % period k) = term k j from rfl, hcol] at h
      obtain ⟨x, T, c, hv, hrest⟩ := ih (j := j + 1) h hk hinc
      refine ⟨x, T, c, ?_, hrest⟩
      rw [visits_first, hcol, List.nil_append, ← hv]
      dsimp only
      rw [visits_last, hcol, List.append_nil]
    | cons q l =>
      rw [show k + 1 - pwss (j % period k) = term k j from rfl, hcol] at h
      obtain rfl := Option.some.inj h
      refine ⟨q, l ++ visits s.column k (j + 1) (period k - 1), term k j, ?_, ?_, rfl, rfl⟩
      · rw [visits_first, hcol, List.cons_append]
      · exact ⟨j, q, [], l, ⟨hk, rfl, hcol, hinc⟩, rfl⟩

/-- **One call** returns the first upcoming queue, which is then the last one. -/
theorem next_upcoming {b : ℤ} (h : Upcoming s k U) (hnodup : ∀ c, (s.column c).Nodup) (hb : b ≠ 0)
    (hnext : s.getNextNode b = some s') :
    ∃ x T c, U = x :: T ∧ Upcoming s' k (T ++ [x]) ∧ s'.pwmCurr = some (x, c) ∧ s'.column = s.column := by
  obtain ⟨i, q, pre, post, ⟨htop, hcurr, hcol, hptr⟩, rfl⟩ := h
  have hpre : q ∉ pre := by
    have hnd := hnodup (term k i)
    rw [hcol] at hnd
    intro hmem
    exact (List.nodup_append.mp hnd).2.2 q hmem q List.mem_cons_self rfl
  unfold SRR.getNextNode at hnext
  rw [if_neg hb, hcurr, Option.bind_some] at hnext
  dsimp only at hnext
  rw [hcol, nextOf_append hpre] at hnext
  cases post with
  | nil =>
    -- the column ends here, and the round after it is the rest of the round and this column
    have hbusy : s.currMaxColumn ≠ -1 := by omega
    rw [List.head?_nil] at hnext
    dsimp only at hnext
    rw [if_neg hbusy] at hnext
    obtain ⟨x, T, c, hv, hrest⟩ := again_upcoming hnext htop hptr
    refine ⟨x, T, c, ?_, hrest⟩
    rw [← hv, visits_last, hcol, List.nil_append]
  | cons x post =>
    rw [List.head?_cons] at hnext
    obtain rfl := Option.some.inj hnext
    refine ⟨x, post ++ visits s.column k (i + 1) (period k - 1) ++ (pre ++ [q]), term k i, ?_, ?_, rfl, rfl⟩
    · simp only [List.cons_append]
    · refine ⟨i, x, pre ++ [q], post, ⟨htop, rfl, ?_, hptr⟩, ?_⟩
      · rw [hcol, List.append_assoc, List.singleton_append]
      · rw [List.append_assoc]

/-- **Consecutive calls** return what is upcoming, and then it is upcoming again. -/
theorem calls_upcoming {bs : List ℤ} {L T : List ℕ} (h : Upcoming s k (L ++ T)) (hshape : Shape s m)
    (hptr : PtrOk s) (hk : k < MAXWSSORDER) (hb : ∀ b ∈ bs, b ≠ 0) (hlen : bs.length = L.length) :
    ∃ s', s.calls bs = some (L, s') ∧ Upcoming s' k (T ++ L) := by
  induction bs generalizing s L T with
  | nil =>
    obtain rfl := List.eq_nil_of_length_eq_zero hlen.symm
    exact ⟨s, rfl, by rwa [List.append_nil]⟩
  | cons b bs ih =>
    obtain ⟨y, L, rfl⟩ := List.exists_cons_of_length_eq_add_one hlen.symm
    obtain ⟨i, q, pre, post, hat, hU⟩ := h
    obtain ⟨s₁, hnext, hshape₁, hptr₁, -⟩ := getNextNode_spec (b := b) hshape hptr hat.top hk
    obtain ⟨x, U, c, hx, hup, hcurr, -⟩ := next_upcoming ⟨i, q, pre, post, hat, hU⟩ hshape.nodup
      (hb b List.mem_cons_self) hnext
    obtain ⟨rfl, rfl⟩ := List.cons.inj hx
    have hup : Upcoming s₁ k (L ++ (T ++ [y])) := by
      rw [← List.append_assoc]
      exact hup
    obtain ⟨s₂, hcalls, hup₂⟩ := ih hup hshape₁ hptr₁ (fun b' hb' => hb b' (List.mem_cons_of_mem _ hb'))
      (Nat.succ.inj hlen)
    refine ⟨s₂, ?_, by rwa [List.append_assoc, List.singleton_append] at hup₂⟩
    rw [SRR.calls, hnext, Option.bind_some, hcurr, Option.bind_some, hcalls]
    rfl

/-! ## How often a queue is upcoming -/

theorem count_visits (column : ℕ → List ℕ) (j n : ℕ) :
    (visits column k j n).count x = ∑ i ∈ Finset.range n, (column (term k (j + i))).count x := by
  induction n with
  | zero => rfl
  | succ n ih =>
    have hsucc : visits column k j (n + 1) = visits column k j n ++ column (term k (j + n)) := by
      unfold visits
      rw [List.range'_concat, List.flatMap_append, Nat.one_mul, List.flatMap_singleton]
    rw [hsucc, List.count_append, ih, Finset.sum_range_succ]

/-- In one round the column `c` is read `2 ^ c` times. -/
theorem count_round (column : ℕ → List ℕ) (hk : k < MAXWSSORDER) (j : ℕ) :
    (visits column k j (period k)).count x = ∑ c ∈ Finset.range (k + 1), 2 ^ c * (column c).count x := by
  have hpow : 2 ^ (k + 1) ≤ 2 ^ MAXWSSORDER := Nat.pow_le_pow_right (by decide) hk
  have hruler : ∀ i, 0 < i → i < 2 ^ (k + 1) → IsRuler i (pwss (i - 1) - 1) := by
    intro i h0 hi
    have h := (pwss_spec (p := i - 1) (by omega)).2
    rwa [Nat.sub_add_cancel h0] at h
  rw [count_visits, sum_shift (f := fun i => (column (term k i)).count x) fun i => by rw [term_add_period],
    ← sum_ruler_reflect hruler fun c => (column c).count x, Finset.sum_Ico_eq_sum_range]
  refine Finset.sum_congr rfl fun i hi => ?_
  have hi : i < period k := Finset.mem_range.mp hi
  have hlast : i + 1 < 2 ^ (k + 1) := by
    rw [period] at hi
    omega
  have hone := (pwss_spec (p := i) (by omega)).1
  have hcolumn : term k i = k + 1 - 1 - (pwss (1 + i - 1) - 1) := by
    rw [term, Nat.mod_eq_of_lt hi, Nat.add_sub_cancel_left]
    omega
  rw [hcolumn]

/-- **Each queue is upcoming as often as its weight.** -/
theorem count_upcoming {weight : ℕ → ℕ} (h : Upcoming s k U)
    (hshape : Shape s fun q c => (weight q).testBit c = true) (hk : k < MAXWSSORDER) (q : ℕ) :
    U.count q = weight q := by
  obtain ⟨i, p, pre, post, ⟨htop, -, hcol, -⟩, rfl⟩ := h
  have hround : (post ++ visits s.column k (i + 1) (period k - 1) ++ (pre ++ [p])).count q =
      (visits s.column k (i + 1) (period k)).count q := by
    have hcons : pre ++ p :: post = pre ++ ([p] ++ post) := rfl
    rw [visits_last, hcol, hcons]
    simp only [List.count_append]
    ring
  have hcount : ∀ c, (s.column c).count q = ((weight q).testBit c).toNat := by
    intro c
    have hmem := hshape.mem c q
    rw [(hshape.nodup c).count]
    by_cases hq : q ∈ s.column c
    · rw [if_pos hq, hmem.mp hq]
      rfl
    · rw [if_neg hq, Bool.eq_false_iff.mpr (mt hmem.mpr hq)]
      rfl
  have hlt : weight q < 2 ^ (k + 1) := by
    refine Nat.lt_pow_two_of_testBit _ fun c hc => Bool.eq_false_iff.mpr fun hbit => ?_
    have := hshape.high c (List.ne_nil_of_mem ((hshape.mem c q).mpr hbit))
    omega
  rw [hround, count_round s.column hk]
  simp only [hcount]
  rw [sum_two_pow_testBit, Nat.mod_eq_of_lt hlt]

namespace Matrix

variable {m : Matrix}

/-- All upcoming queues together. -/
theorem Inv.length_upcoming (h : m.Inv) (hup : Upcoming m.srr k U) (hk : k < MAXWSSORDER) :
    U.length = m.total := by
  have hids : ∀ q ∈ (U : Multiset ℕ), q ∈ Finset.range MAXFLOW := by
    intro q hq
    have hpos := List.count_pos_iff.mpr (Multiset.mem_coe.mp hq)
    rw [count_upcoming hup h.shape hk] at hpos
    by_contra hge
    rw [Finset.mem_range, not_lt] at hge
    rw [h.ids q hge] at hpos
    exact absurd hpos (lt_irrefl 0)
  have hsum := Multiset.sum_count_eq_card hids
  rw [Multiset.coe_card] at hsum
  rw [← hsum, total]
  refine Finset.sum_congr rfl fun q _ => ?_
  rw [Multiset.coe_count]
  exact count_upcoming hup h.shape hk q

/-- While the matrix is not empty, a queue has a weight. -/
theorem Inv.exists_weight (h : m.Inv) (hk : m.srr.currMaxColumn = k) : ∃ q, m.weight q ≠ 0 := by
  obtain ⟨q, hq⟩ := List.exists_mem_of_ne_nil _ (h.shape.top k hk)
  exact ⟨q, h.weight_ne hq⟩

/-- **After the sequence has been read**, the matrix is reachable and queues are upcoming. -/
theorem Settled.upcoming (h : m.Settled) : m.Reachable ∧ ∃ k U, Upcoming m.srr k U := by
  induction h with
  | @read m b s h hreads hb hnext =>
    obtain ⟨curr, hcurr, htail⟩ := hreads
    have hinv := h.inv
    have hbusy : m.srr.currMaxColumn ≠ -1 := fun hidle => by simp [(hinv.shape.idle hidle).1] at hcurr
    have hlow := hinv.shape.low
    obtain ⟨k, hk⟩ := Int.eq_ofNat_of_zero_le (by omega : 0 ≤ m.srr.currMaxColumn)
    have hlegal : (Op.next b).Legal m := Or.inr (hinv.exists_weight hk)
    refine ⟨h.step hlegal (by rw [step, hnext]; rfl), k, ?_⟩
    have hplace : m.srr.ptr = m.srr.ptr % period k := by
      have := hinv.ptr.lt k hk
      exact (Nat.mod_eq_of_lt (by rw [period]; omega)).symm
    unfold SRR.getNextNode at hnext
    rw [if_neg hb, hcurr, Option.bind_some] at hnext
    rw [htail] at hnext
    dsimp only at hnext
    rw [if_neg hbusy] at hnext
    obtain ⟨x, T, c, -, hup, -⟩ := again_upcoming hnext hk hplace
    exact ⟨_, hup⟩
  | @next m b s h hnext ih =>
    obtain ⟨hreach, k, U, hup⟩ := ih
    by_cases hb : b = 0
    · rw [SRR.getNextNode, if_pos hb] at hnext
      obtain rfl := Option.some.inj hnext
      exact ⟨hreach, k, U, hup⟩
    · obtain ⟨x, T, c, -, hup', -⟩ := next_upcoming hup hreach.inv.shape.nodup hb hnext
      obtain ⟨i, q, pre, post, hat, -⟩ := hup
      have hlegal : (Op.next b).Legal m := Or.inr (hreach.inv.exists_weight hat.top)
      exact ⟨hreach.step hlegal (by rw [step, hnext]; rfl), k, _, hup'⟩
  | @setrate m order h horder ih =>
    obtain ⟨hreach, k, U, i, q, pre, post, hat, hU⟩ := ih
    exact ⟨hreach.step (show (Op.setrate order).Legal m from horder) rfl, k, U, i, q, pre, post,
      ⟨hat.top, hat.curr, hat.col, hat.ptr⟩, hU⟩

/-- **Smoothed round robin serves by weight.**  In a reachable matrix every operation succeeds; while a
queue has a weight, the pointer is at a term of the sequence and the current node is in its column, with
a queue that has a weight; and once the sequence has been read, as many calls as the total weight
return each queue as often as its weight. -/
theorem serves_by_weight (h : m.Reachable) :
    (∀ op : Op, op.Legal m → ∃ m', m.step op = some m') ∧
      ((∃ q, m.weight q ≠ 0) → m.srr.ptr + 2 ≤ 2 ^ (m.srr.currMaxColumn + 1).toNat ∧
        ∃ q c, m.srr.pwmCurr = some (q, c) ∧ q ∈ m.srr.column c ∧ m.weight q ≠ 0) ∧
      (m.Settled → ∀ bs : List ℤ, (∀ b ∈ bs, b ≠ 0) → bs.length = m.total →
        ∃ L s', m.srr.calls bs = some (L, s') ∧ ∀ q, L.count q = m.weight q) := by
  have hinv := h.inv
  refine ⟨fun op hop => ?_, fun ⟨q, hq⟩ => ?_, fun hsettled bs hb hlen => ?_⟩
  · obtain ⟨m', hstep, -⟩ := step_inv hinv hop
    exact ⟨m', hstep⟩
  · have hbusy := hinv.busy hq
    have hlow := hinv.shape.low
    obtain ⟨k, hk⟩ := Int.eq_ofNat_of_zero_le (by omega : 0 ≤ m.srr.currMaxColumn)
    obtain ⟨-, p, c, hcurr, hp⟩ := hinv.shape.busy hbusy
    refine ⟨?_, p, c, hcurr, hp, hinv.weight_ne hp⟩
    rw [show (m.srr.currMaxColumn + 1).toNat = k + 1 by omega]
    exact hinv.ptr.lt k hk
  · obtain ⟨-, k, U, hup⟩ := hsettled.upcoming
    have hk : k < MAXWSSORDER := by
      obtain ⟨i, q, pre, post, hat, -⟩ := hup
      exact hinv.lt_order hat.top
    have hlen' : bs.length = U.length := hlen.trans (hinv.length_upcoming hup hk).symm
    obtain ⟨s', hcalls, -⟩ := calls_upcoming (T := []) (by rwa [List.append_nil]) hinv.shape hinv.ptr hk hb
      hlen'
    exact ⟨U, s', hcalls, count_upcoming hup hinv.shape hk⟩

/-- Two queues with the weights 3 and 5 are served so by eight calls. -/
theorem serves_by_weight_threeFive :
    ∃ m : Matrix, m.Settled ∧ m.weight 1 = 3 ∧ m.weight 2 = 5 ∧
      ∃ L s', m.srr.calls (List.replicate 8 1) = some (L, s') ∧ ∀ q, L.count q = m.weight q := by
  have hcolumns : 2 + 1 ≤ MAXWSSORDER := by decide
  have h1 : Reachable _ := Reachable.new.step (show (Op.setrate 2).Legal _ from hcolumns) rfl
  have h2 : Reachable _ :=
    h1.step (show (Op.join 1 3).Legal _ from ⟨by decide, rfl, by decide, by decide⟩) rfl
  have h3 : Reachable _ :=
    h2.step (show (Op.join 2 5).Legal _ from ⟨by decide, rfl, by decide, by decide⟩) rfl
  have h4 : Settled _ := Settled.read h3 ⟨_, rfl, rfl⟩ (one_ne_zero : (1 : ℤ) ≠ 0) rfl
  refine ⟨_, h4, rfl, rfl, (serves_by_weight h4.upcoming.1).2.2 h4 _ (fun b hb => ?_) (by decide)⟩
  rw [List.eq_of_mem_replicate hb]
  exact one_ne_zero

end Matrix

end Ns2.Queue
