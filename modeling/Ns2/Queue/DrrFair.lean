import Ns2.Queue.DrrTurns

/-!
# Fairness of deficit round robin

Two buckets that always have packets are compared.  The queue may be in any state that a run can
reach, and other buckets come and go meanwhile.

* `pair` — which of the two buckets is visited first.
* `earned` — what a bucket has left of the quanta of the rounds that are over.
* `Lag` — how far one bucket is ahead, which only the packets sent change.
* `Lag.visit`, `Lag.deque`, `Lag.enque` — the calls.
* `drr_fair` — the bytes that the two have sent differ by less than a constant.
-/

namespace Ns2.Queue.DRR

open Function (update update_self update_of_ne)
open Linked

variable {c : Config} {s s' s₁ : DRR} {a b x y n : ℕ} {p pkt : Pkt} {ps rest : List Pkt}
  {r : Option Pkt} {l t o : List ℕ} {M : ℤ}

/-! ## The order of two buckets -/

/-- The two buckets, in the order of the list. -/
def pair (x y : ℕ) (l : List ℕ) : List ℕ := l.filter fun z => z = x ∨ z = y

/-- Others come and go. -/
theorem pair_other {A B : List ℕ} (hx : b ≠ x) (hy : b ≠ y) :
    pair x y (A ++ b :: B) = pair x y (A ++ B) := by
  simp [pair, List.filter_append, hx, hy]

/-- Both are on the list, once each. -/
theorem pair_eq (hxy : x ≠ y) (hnodup : l.Nodup) (hx : x ∈ l) (hy : y ∈ l) :
    pair x y l = [x, y] ∨ pair x y l = [y, x] := by
  have hmem : ∀ z, z ∈ pair x y l ↔ z = x ∨ z = y := fun z => by
    simp only [pair, List.mem_filter, decide_eq_true_eq]
    refine ⟨And.right, fun h => ⟨?_, h⟩⟩
    rcases h with rfl | rfl
    · exact hx
    · exact hy
  have hnd : (pair x y l).Nodup := hnodup.filter _
  refine List.perm_pair.mp ((List.perm_ext_iff_of_nodup hnd (by simp [hxy])).mpr fun z => ?_)
  simp [hmem]

/-- One if the bucket comes first. -/
def first (x : ℕ) (o : List ℕ) : ℤ := if o.head? = some x then 1 else 0

/-! ## What a bucket has earned -/

/-- The deficit counter without the quantum of a turn that is not over. -/
def earned (c : Config) (s : DRR) (b : ℕ) : ℤ := s.deficitCounter b - if s.turn b then c.quantum_ else 0

theorem earned_congr (ht : s'.turn b = s.turn b) (hd : s'.deficitCounter b = s.deficitCounter b) :
    earned c s' b = earned c s b := by
  rw [earned, ht, hd, earned]

/-- A quantum is not earned before the turn is over. -/
theorem earned_grant (s : DRR) (c : Config) (a b : ℕ) : earned c (s.grant c a) b = earned c s b := by
  unfold earned grant
  split
  · rfl
  · rename_i hturn
    by_cases hb : b = a
    · subst hb
      simp [hturn]
    · simp [hb]

/-- The buckets with packets owe nothing, and have less than the largest packet to spare. -/
def Bounded (c : Config) (M : ℤ) (s : DRR) : Prop :=
  ∀ b, s.queue b ≠ [] → 0 ≤ s.deficitCounter b ∧ earned c s b < M

/-- How a round of `deque` ends, when the bucket at the pointer is `a`. -/
inductive Served (c : Config) (s s' : DRR) (a : ℕ) (t : List ℕ) : Option Pkt → Prop
  /-- A packet is sent, and the bucket leaves the list if it was the last one. -/
  | sent {p : Pkt} {l : List ℕ} (hring : Ring s' l)
      (hl : l = a :: t ∧ s'.queue a ≠ [] ∨ l = t ∧ s'.queue a = [])
      (hqueue : ∀ b, b ≠ a → s'.queue b = s.queue b) (hhome : c.bucket p = some a) (hsize : 1 ≤ p.size)
      (hearned : ∀ b, s'.queue b ≠ [] → earned c s' b = earned c s b - if b = a then p.size else 0)
      (hdeficit : ∀ b, s'.queue b ≠ [] → 0 ≤ s.deficitCounter b → 0 ≤ s'.deficitCounter b) :
      Served c s s' a t (some p)
  /-- It is the turn of the next bucket. -/
  | turned (hring : Ring s' (t ++ [a])) (hqueue : s'.queue = s.queue)
      (hearned : ∀ b, earned c s' b = earned c s b + if b = a then c.quantum_ else 0)
      (hdeficit : ∀ b, 0 ≤ s.deficitCounter b → 0 ≤ s'.deficitCounter b)
      (hsmall : ∃ p ∈ s.queue a, s'.deficitCounter a < p.size ∧ s'.turn a = false) :
      Served c s s' a t none

theorem grant_deficit (hquantum : 0 < c.quantum_) (hd : 0 ≤ s.deficitCounter b) :
    0 ≤ (s.grant c a).deficitCounter b := by
  unfold grant
  split
  · exact hd
  · by_cases hb : b = a
    · subst hb
      simp only [update_self]
      omega
    · simpa [hb] using hd

/-- After a packet is sent the bucket leaves the list if it is empty. -/
theorem retire_ring (hring : Ring s (a :: t)) (hpkts : s.pkts a = (s.queue a).length)
    (h : s.retire a = some s') :
    s'.queue = s.queue ∧ (∀ b, s'.queue b ≠ [] →
      s'.turn b = s.turn b ∧ s'.deficitCounter b = s.deficitCounter b) ∧
      ∃ l, Ring s' l ∧ (l = a :: t ∧ s'.queue a ≠ [] ∨ l = t ∧ s'.queue a = []) := by
  unfold DRR.retire at h
  split at h
  · rename_i hzero
    have hempty : s.queue a = [] := List.length_eq_zero_iff.mp (by omega)
    obtain ⟨u, hu, hring', hsame⟩ := Ring.idle (s := { s with
      turn := update s.turn a false
      flwcnt := s.flwcnt - 1
      deficitCounter := update s.deficitCounter a 0 }) (A := []) (b := a) (B := t)
      (hring.congr rfl rfl rfl)
    obtain rfl := Option.some.inj (hu.symm.trans h)
    unfold SameButRing at hsame
    have hqueue : u.queue = s.queue := by rw [hsame]
    refine ⟨hqueue, fun b hb => ?_, t, hring', Or.inr ⟨rfl, by rw [hqueue, hempty]⟩⟩
    have hba : b ≠ a := by
      rintro rfl
      exact hb (by rw [hqueue, hempty])
    rw [hsame]
    exact ⟨update_of_ne hba _ _, update_of_ne hba _ _⟩
  · rename_i hmore
    cases h
    refine ⟨rfl, fun b _ => ⟨rfl, rfl⟩, a :: t, hring, Or.inl ⟨rfl, fun hempty => hmore ?_⟩⟩
    rw [hpkts, hempty]
    rfl

/-- **One round of `deque`.** -/
theorem visit_served (hgood : Good c s) (hquantum : 0 < c.quantum_) (hring : Ring s (a :: t))
    (hmem : ∀ b, b ∈ a :: t ↔ s.queue b ≠ []) (hv : s.visit c = some (s', r)) :
    Served c s s' a t r := by
  obtain ⟨p, rest, hq⟩ := List.exists_cons_of_ne_nil ((hmem a).mp List.mem_cons_self)
  have hp : p ∈ s.queue a := hq ▸ List.mem_cons_self
  have hcurr : s.curr = some a := hring.curr
  obtain ⟨hgq, hgs, hgc, hgn, hgp, -, hgo, -⟩ := grant_spec s c a
  have hhead : ((s.grant c a).queue a).head? = some p := by
    rw [hgq, hq]
    rfl
  unfold DRR.visit at hv
  simp only [hcurr, hhead, Option.bind_eq_bind, Option.bind_some] at hv
  split at hv
  · -- the packet is sent
    rename_i hfit
    obtain ⟨⟨u, q⟩, htake, hv⟩ := Option.bind_eq_some_iff.mp hv
    obtain ⟨v, hretire, hv⟩ := Option.bind_eq_some_iff.mp hv
    cases hv
    obtain ⟨rest', hrest, hu⟩ := take_some htake
    obtain ⟨rfl, rfl⟩ : p = q ∧ rest = rest' :=
      List.cons_eq_cons.mp ((hq.symm.trans (congrFun hgq a).symm).trans hrest)
    have hring_u : Ring u (a :: t) := by
      rw [hu]
      exact hring.congr hgc hgn hgp
    have hturn_u : u.turn = (s.grant c a).turn := by
      rw [hu]
      rfl
    have hdeficit_u : u.deficitCounter = update (s.grant c a).deficitCounter a
        ((s.grant c a).deficitCounter a - p.size) := by
      rw [hu]
      rfl
    have hpkts_u : u.pkts a = (u.queue a).length := by
      have hpkts : (s.grant c a).pkts a = (rest.length : ℤ) + 1 := by
        rw [hgs.pkts, hgood.counts.pkts, hq, List.length_cons, Nat.cast_succ]
      rw [hu]
      simp [taken, hpkts]
    have hqueue_u : ∀ b, b ≠ a → u.queue b = s.queue b := fun b hb => by
      rw [hu]
      exact (update_of_ne hb _ _).trans (congrFun hgq b)
    obtain ⟨hqueue, hsame, l, hring', hl⟩ := retire_ring hring_u hpkts_u hretire
    refine .sent hring' hl (fun b hb => (congrFun hqueue b).trans (hqueue_u b hb)) (hgood.counts.home a p hp)
      (hgood.counts.size a p hp) (fun b hb => ?_) fun b hb hd => ?_
    · obtain ⟨hturn, hdef⟩ := hsame b hb
      rw [← earned_grant s c a b]
      unfold earned
      rw [hturn, hdef, hturn_u, hdeficit_u]
      by_cases hba : b = a
      · subst hba
        rw [update_self, if_pos rfl]
        dsimp only
        omega
      · rw [update_of_ne hba, if_neg hba, sub_zero]
    · rw [(hsame b hb).2, hdeficit_u]
      have hdef := grant_deficit (c := c) (a := a) hquantum hd
      by_cases hba : b = a
      · subst hba
        rw [update_self]
        omega
      · rwa [update_of_ne hba]
  · -- the pointer moves on
    rename_i hsmall
    cases hv
    have hdef := fun b => grant_deficit (s := s) (a := a) (b := b) hquantum
    refine .turned (hring.advance (congrFun hgn a) hgn hgp) hgq (fun b => ?_) hdef
      ⟨p, hp, not_le.mp hsmall, update_self _ _ _⟩
    rw [← earned_grant s c a b]
    unfold earned
    by_cases hb : b = a
    · subst hb
      simp [grant_turn]
    · simp [hb]

/-- A round of `deque` keeps the bounds. -/
theorem Bounded.visit (h : Bounded c M s) (hgood : Good c s) (hquantum : 0 < c.quantum_)
    (hM : ∀ b, ∀ p ∈ s.queue b, p.size ≤ M) (hpos : s.bytecnt ≠ 0) (hv : s.visit c = some (s', r)) :
    Bounded c M s' := by
  obtain ⟨l, hring, hmem, -⟩ := hgood.active
  obtain ⟨z, hz⟩ := hgood.counts.exists_queue hpos
  obtain ⟨a, t, rfl⟩ := List.exists_cons_of_ne_nil (List.ne_nil_of_mem ((hmem z).mpr hz))
  intro b hb
  cases visit_served hgood hquantum hring hmem hv with
  | sent hring' hl hqueue hhome hsize hearned hdeficit =>
    have hb₀ : s.queue b ≠ [] := by
      by_cases hba : b = a
      · subst hba
        exact (hmem b).mp List.mem_cons_self
      · rwa [← hqueue b hba]
    obtain ⟨hzero, hlt⟩ := h b hb₀
    refine ⟨hdeficit b hb hzero, ?_⟩
    rw [hearned b hb]
    split <;> omega
  | turned hring' hqueue hearned hdeficit hsmall =>
    obtain ⟨hzero, hlt⟩ := h b (hqueue ▸ hb)
    refine ⟨hdeficit b hzero, ?_⟩
    by_cases hba : b = a
    · subst hba
      obtain ⟨p, hp, hd, hturn⟩ := hsmall
      have hle := hM b p hp
      rw [earned, hturn, if_neg Bool.false_ne_true]
      omega
    · rw [hearned b, if_neg hba, add_zero]
      exact hlt

/-- So do drops. -/
theorem Bounded.moved (h : Bounded c M s) (hmoved : Moved s s') : Bounded c M s' := by
  intro b hb
  obtain ⟨hzero, hlt⟩ := h b (hmoved.queue b hb)
  rw [earned_congr (congrFun hmoved.turn b) (congrFun hmoved.deficit b), congrFun hmoved.deficit b]
  exact ⟨hzero, hlt⟩

/-- A bucket that joins the list begins with nothing. -/
theorem join_deficit (hc : Counts c s) (hempty : s.queue b = [])
    (hj : (s.arrive c b pkt).joinIfFirst b = some s₁) : s₁.deficitCounter b = 0 := by
  have hone : (s.arrive c b pkt).pkts b = 1 := by
    simp [arrive, hc.pkts, hempty]
  unfold DRR.joinIfFirst at hj
  rw [if_pos hone] at hj
  obtain ⟨u, -, rfl⟩ := Option.map_eq_some_iff.mp hj
  exact update_self _ _ _

/-- So does a packet that arrives. -/
theorem Bounded.join (h : Bounded c M s) (hgood : Good c s) (hquantum : 0 < c.quantum_)
    (hsize : 1 ≤ pkt.size) (hM : pkt.size ≤ M) (hj : (s.arrive c b pkt).joinIfFirst b = some s₁)
    (hqueue : s₁.queue = update s.queue b (s.queue b ++ [pkt])) : Bounded c M s₁ := by
  obtain ⟨hturn, -, -, hdeficit⟩ := join_spec hgood.counts hj
  intro z hz
  by_cases hz₀ : s.queue z = []
  · have hzb : z = b := by
      by_contra hzb
      rw [hqueue, update_of_ne hzb] at hz
      exact hz hz₀
    subst hzb
    have hzero := join_deficit hgood.counts hz₀ hj
    refine ⟨hzero.ge, ?_⟩
    rw [earned, hzero]
    split <;> omega
  · obtain ⟨hzero, hlt⟩ := h z hz₀
    rw [earned_congr (congrFun hturn z) (hdeficit z hz₀), hdeficit z hz₀]
    exact ⟨hzero, hlt⟩

/-! ## How far a bucket is ahead -/

/-- How far `x` is ahead of `y`, when they are visited in the order `o`. -/
def lag (c : Config) (s : DRR) (x y : ℕ) (o : List ℕ) : ℤ :=
  earned c s x - earned c s y + c.quantum_ * first x o

/-- Both buckets have packets and are visited in the order `o`. -/
structure Lag (c : Config) (M : ℤ) (s : DRR) (x y : ℕ) (o : List ℕ) : Prop where
  good : Good c s
  bounded : Bounded c M s
  order : ∃ l, Ring s l ∧ (∀ b, b ∈ l ↔ s.queue b ≠ []) ∧ pair x y l = o
  left : s.queue x ≠ []
  right : s.queue y ≠ []

/-- A bucket that is not on one of the two places comes or goes. -/
theorem Lag.lag_lt (h : Lag c M s x y o) (hquantum : 0 < c.quantum_) :
    lag c s x y o < M + 2 * c.quantum_ ∧ -(M + c.quantum_) < lag c s x y o := by
  have hx := h.bounded x h.left
  have hy := h.bounded y h.right
  have hge : ∀ b, 0 ≤ s.deficitCounter b → -c.quantum_ ≤ earned c s b := fun b hb => by
    unfold earned
    split <;> omega
  have hx' := hge x hx.1
  have hy' := hge y hy.1
  unfold lag first
  split <;> constructor <;> omega

/-- If the flag of a bucket is set only during its turn, the bound is closer. -/
theorem Lag.lag_lt_of_proper (h : Lag c M s x y o) (hxy : x ≠ y) (hquantum : 0 < c.quantum_)
    (hproper : ∀ b, s.queue b ≠ [] → s.curr ≠ some b → s.turn b = false) :
    lag c s x y o < M + c.quantum_ ∧ -M < lag c s x y o := by
  obtain ⟨l, hring, hmem, hpair⟩ := h.order
  have hx := h.bounded x h.left
  have hy := h.bounded y h.right
  -- the bucket at the pointer comes first
  have hfirst : ∀ b, (b = x ∨ b = y) → s.turn b = true → o.head? = some b := by
    intro b hb hturn
    have hcurr : s.curr = some b := by
      by_contra hne
      have hq : s.queue b ≠ [] := by
        rcases hb with rfl | rfl
        · exact h.left
        · exact h.right
      rw [hproper b hq hne] at hturn
      exact Bool.false_ne_true hturn
    obtain ⟨t, rfl⟩ : ∃ t, l = b :: t := List.head?_eq_some_iff.mp (hring.curr.symm.trans hcurr)
    rw [← hpair, pair, List.filter_cons, if_pos (decide_eq_true hb)]
    rfl
  unfold lag first
  unfold earned at hx hy ⊢
  cases hturnx : s.turn x with
  | true =>
    have hturny : s.turn y = false := by
      by_contra hne
      have h₁ := hfirst x (Or.inl rfl) hturnx
      have h₂ := hfirst y (Or.inr rfl) (by simpa using hne)
      exact hxy (Option.some.inj (h₁.symm.trans h₂))
    rw [if_pos (hfirst x (Or.inl rfl) hturnx)]
    simp only [hturnx, hturny, if_true, Bool.false_eq_true, if_false] at hx hy ⊢
    constructor <;> omega
  | false =>
    cases hturny : s.turn y with
    | true =>
      have hne : o.head? ≠ some x := fun hhead =>
        hxy (Option.some.inj (hhead.symm.trans (hfirst y (Or.inr rfl) hturny)))
      rw [if_neg hne]
      simp only [hturnx, hturny, if_true, Bool.false_eq_true, if_false] at hx hy ⊢
      constructor <;> omega
    | false =>
      simp only [hturnx, hturny, Bool.false_eq_true, if_false] at hx hy ⊢
      split <;> constructor <;> omega

/-! ## `deque` -/

/-- The bytes of a bucket among some packets. -/
def sentBy (c : Config) (b : ℕ) (ps : List Pkt) : ℤ := bytes (ofBucket c b ps)

theorem sentBy_append (b : ℕ) (ps qs : List Pkt) :
    sentBy c b (ps ++ qs) = sentBy c b ps + sentBy c b qs := by
  simp [sentBy, ofBucket_append, bytes]

theorem sentBy_singleton (hhome : c.bucket p = some a) (b : ℕ) :
    sentBy c b [p] = if b = a then p.size else 0 := by
  by_cases hb : b = a
  · subst hb
    simp [sentBy, ofBucket, hhome, bytes]
  · have hne : c.bucket p ≠ some b := fun h => hb (Option.some.inj (h.symm.trans hhome))
    simp [sentBy, ofBucket, hne, hb, bytes]

/-- When the pointer moves on, the first of the two goes behind the other. -/
theorem pair_turned (hxy : x ≠ y) (hnodup : (a :: t).Nodup) (hx : x ∈ a :: t) (hy : y ∈ a :: t) :
    first x (pair x y (t ++ [a])) = first x (pair x y (a :: t)) -
      (if x = a then 1 else 0) + if y = a then 1 else 0 := by
  have hcons : pair x y (a :: t) = pair x y [a] ++ pair x y t := by
    rw [← List.singleton_append, pair, List.filter_append]
    rfl
  have happend : pair x y (t ++ [a]) = pair x y t ++ pair x y [a] := List.filter_append _ _
  have hnd : a ∉ t := (List.nodup_cons.mp hnodup).1
  have hrest : ∀ z, z ∈ pair x y t ↔ z ∈ t ∧ (z = x ∨ z = y) := fun z => by
    simp [pair, List.mem_filter]
  have hpair := pair_eq hxy hnodup hx hy
  by_cases hax : x = a
  · subst hax
    have hone : pair x y [x] = [x] := by simp [pair]
    have hy' : pair x y t = [y] := by
      rw [hcons, hone] at hpair
      rcases hpair with h | h
      · exact List.cons_injective h
      · exact absurd (List.cons.inj h).1 hxy
    rw [happend, hcons, hone, hy']
    simp [first, hxy.symm]
  · by_cases hay : y = a
    · subst hay
      have hone : pair x y [y] = [y] := by simp [pair]
      have hx' : pair x y t = [x] := by
        rw [hcons, hone] at hpair
        rcases hpair with h | h
        · exact absurd (List.cons.inj h).1 (Ne.symm hxy)
        · exact List.cons_injective h
      rw [happend, hcons, hone, hx']
      simp [first, hxy, hxy.symm]
    · have hnone : pair x y [a] = [] := by simp [pair, Ne.symm hax, Ne.symm hay]
      rw [happend, hcons, hnone]
      simp [hax, hay]

/-- One round of `deque`: only what is sent changes how far `x` is ahead. -/
theorem Lag.visit (h : Lag c M s x y o) (hxy : x ≠ y) (hquantum : 0 < c.quantum_)
    (hM : ∀ b, ∀ p ∈ s.queue b, p.size ≤ M) (hv : s.visit c = some (s', r))
    (hx' : s'.queue x ≠ []) (hy' : s'.queue y ≠ []) :
    ∃ o', Lag c M s' x y o' ∧
      lag c s' x y o' = lag c s x y o - (sentBy c x r.toList - sentBy c y r.toList) := by
  obtain ⟨l, hring, hmem, hpair⟩ := h.order
  obtain ⟨s'', r', hv', hgood', -⟩ := h.good.visit hquantum (h.good.counts.bytecnt_pos h.left).ne'
  obtain ⟨rfl, rfl⟩ := Prod.mk.inj (Option.some.inj (hv'.symm.trans hv))
  obtain ⟨a, t, rfl⟩ := List.exists_cons_of_ne_nil (List.ne_nil_of_mem ((hmem x).mpr h.left))
  have hnodup := hring.cycle.nodup
  have hnot : a ∉ t := (List.nodup_cons.mp hnodup).1
  have hbounded := h.bounded.visit h.good hquantum hM (h.good.counts.bytecnt_pos h.left).ne' hv
  cases visit_served h.good hquantum hring hmem hv with
  | @sent p l hring' hl hqueue hhome hsize hearned hdeficit =>
    have hmem' : ∀ b, b ∈ l ↔ s''.queue b ≠ [] := fun b => by
      by_cases hba : b = a
      · subst hba
        rcases hl with ⟨rfl, hne⟩ | ⟨rfl, hempty⟩
        · exact iff_of_true List.mem_cons_self hne
        · exact iff_of_false hnot (not_not.mpr hempty)
      · rw [hqueue b hba, ← hmem b]
        rcases hl with ⟨rfl, -⟩ | ⟨rfl, -⟩
        · exact Iff.rfl
        · simp [hba]
    have hpair' : pair x y l = o := by
      rcases hl with ⟨rfl, -⟩ | ⟨rfl, hempty⟩
      · exact hpair
      · rw [← hpair]
        refine (pair_other (A := []) ?_ ?_).symm
        · rintro rfl
          exact hx' hempty
        · rintro rfl
          exact hy' hempty
    refine ⟨o, ⟨hgood', hbounded, ⟨l, hring', hmem', hpair'⟩, hx', hy'⟩, ?_⟩
    unfold lag
    rw [hearned x hx', hearned y hy', Option.toList_some, sentBy_singleton hhome,
      sentBy_singleton hhome]
    ring
  | turned hring' hqueue hearned hdeficit hsmall =>
    have hmem' : ∀ b, b ∈ t ++ [a] ↔ s''.queue b ≠ [] := fun b => by
      rw [hqueue, ← hmem b]
      simp [or_comm]
    refine ⟨_, ⟨hgood', hbounded, ⟨_, hring', hmem', rfl⟩, hx', hy'⟩, ?_⟩
    unfold lag
    rw [hearned x, hearned y, pair_turned hxy hnodup ((hmem x).mpr h.left) ((hmem y).mpr h.right),
      hpair]
    simp only [Option.toList_none, sentBy, ofBucket, List.filter_nil, bytes, List.map_nil,
      List.sum_nil]
    split_ifs <;> ring

/-- The loop of `deque`. -/
theorem Lag.dequeLoop (h : Lag c M s x y o) (hxy : x ≠ y) (hquantum : 0 < c.quantum_)
    (hM : ∀ b, ∀ p ∈ s.queue b, p.size ≤ M) (hr : dequeLoop c n s = some (s', p))
    (hx' : s'.queue x ≠ []) (hy' : s'.queue y ≠ []) :
    ∃ o', Lag c M s' x y o' ∧
      lag c s' x y o' = lag c s x y o - (sentBy c x [p] - sentBy c y [p]) := by
  induction n generalizing s o with
  | zero => cases hr
  | succ n ih =>
    have hpos := (h.good.counts.bytecnt_pos h.left).ne'
    obtain ⟨s₁, r, hv, hgood, hleave, hle, hnone⟩ := h.good.visit hquantum hpos
    unfold DRR.dequeLoop at hr
    rw [hv] at hr
    cases r with
    | some q =>
      simp only at hr
      obtain ⟨rfl, rfl⟩ := Prod.mk.inj (Option.some.inj hr)
      have hvisit := h.visit hxy hquantum hM hv hx' hy'
      rwa [Option.toList_some] at hvisit
    | none =>
      simp only at hr
      have hqueue : s₁.queue = s.queue := funext fun b => by
        have hfront := hleave.front b
        simpa [ofBucket] using hfront
      obtain ⟨o₁, h₁, hlag₁⟩ := h.visit hxy hquantum hM hv (hqueue ▸ h.left) (hqueue ▸ h.right)
      obtain ⟨o', h', hlag'⟩ := ih h₁ (hqueue ▸ hM) hr
      refine ⟨o', h', hlag'.trans ?_⟩
      rw [hlag₁]
      simp [sentBy, ofBucket, bytes]

/-- `deque`. -/
theorem Lag.deque (h : Lag c M s x y o) (hxy : x ≠ y) (hquantum : 0 < c.quantum_)
    (hM : ∀ b, ∀ p ∈ s.queue b, p.size ≤ M) (hr : deque c n s = some (s', r))
    (hx' : s'.queue x ≠ []) (hy' : s'.queue y ≠ []) :
    ∃ o', Lag c M s' x y o' ∧
      lag c s' x y o' = lag c s x y o - (sentBy c x r.toList - sentBy c y r.toList) := by
  unfold DRR.deque at hr
  rw [if_neg (h.good.counts.bytecnt_pos h.left).ne'] at hr
  obtain ⟨⟨s₁, p⟩, hloop, heq⟩ := Option.map_eq_some_iff.mp hr
  obtain ⟨rfl, rfl⟩ := Prod.mk.inj heq
  have hsent := h.dequeLoop hxy hquantum hM hloop hx' hy'
  rwa [← Option.toList_some] at hsent

/-! ## `enque` -/

theorem lag_congr (ht : ∀ b, b = x ∨ b = y → s'.turn b = s.turn b)
    (hd : ∀ b, b = x ∨ b = y → s'.deficitCounter b = s.deficitCounter b) :
    lag c s' x y o = lag c s x y o := by
  unfold lag
  rw [earned_congr (ht x (Or.inl rfl)) (hd x (Or.inl rfl)),
    earned_congr (ht y (Or.inr rfl)) (hd y (Or.inr rfl))]

/-- A packet arrives. -/
theorem Lag.join (h : Lag c M s x y o) (hquantum : 0 < c.quantum_) (hb : c.bucket pkt = some b)
    (hsize : 1 ≤ pkt.size) (hM : pkt.size ≤ M) (hj : (s.arrive c b pkt).joinIfFirst b = some s₁) :
    Lag c M s₁ x y o ∧ lag c s₁ x y o = lag c s x y o := by
  obtain ⟨s₂, hs₂, hgood, hqueue⟩ := h.good.arrive hb hsize
  obtain rfl := Option.some.inj (hs₂.symm.trans hj)
  obtain ⟨hturn, -, -, hdeficit⟩ := join_spec h.good.counts hj
  obtain ⟨l, hring, hmem, hpair⟩ := h.order
  have hne : ∀ z, s.queue z ≠ [] → s₂.queue z ≠ [] := fun z hz => by
    rw [hqueue]
    by_cases hzb : z = b
    · subst hzb
      simp
    · rwa [update_of_ne hzb]
  have horder : ∃ l, Ring s₂ l ∧ (∀ z, z ∈ l ↔ s₂.queue z ≠ []) ∧ pair x y l = o := by
    have hpk : (s.arrive c b pkt).pkts b = s.pkts b + 1 := update_self _ _ _
    unfold DRR.joinIfFirst at hj
    split at hj
    · -- the bucket goes to the end of the list
      rename_i hone
      have hempty : s.queue b = [] := h.good.counts.pkts_eq_zero.mp (by omega)
      have hnot : b ∉ l := fun hbl => (hmem b).mp hbl hempty
      obtain ⟨u, hu, rfl⟩ := Option.map_eq_some_iff.mp hj
      obtain ⟨u', hu', hring', -⟩ := Ring.activate (s := s.arrive c b pkt) (hring.congr rfl rfl rfl) hnot
      obtain rfl := Option.some.inj (hu'.symm.trans hu)
      refine ⟨l ++ [b], hring'.congr rfl rfl rfl, fun z => ?_, ?_⟩
      · rw [hqueue]
        by_cases hzb : z = b
        · subst hzb
          simp
        · rw [update_of_ne hzb, ← hmem z]
          simp [hzb]
      · rw [pair_other, List.append_nil, hpair]
        · rintro rfl
          exact h.left hempty
        · rintro rfl
          exact h.right hempty
    · rename_i hmany
      have hne₀ : s.queue b ≠ [] := fun hempty => hmany (by
        rw [hpk, h.good.counts.pkts_eq_zero.mpr hempty, zero_add])
      cases hj
      refine ⟨l, hring.congr rfl rfl rfl, fun z => ?_, hpair⟩
      rw [hmem z, hqueue]
      by_cases hzb : z = b
      · subst hzb
        simp [hne₀]
      · rw [update_of_ne hzb]
  refine ⟨⟨hgood, h.bounded.join h.good hquantum hsize hM hs₂ hqueue, horder, hne x h.left,
    hne y h.right⟩, lag_congr (fun z _ => congrFun hturn z) fun z hz => ?_⟩
  rcases hz with rfl | rfl
  · exact hdeficit z h.left
  · exact hdeficit z h.right

/-- A packet is dropped. -/
theorem Lag.dropOne (h : Lag c M s x y o) (hd : s.dropOne = some (s', p)) (hx' : s'.queue x ≠ [])
    (hy' : s'.queue y ≠ []) : Lag c M s' x y o ∧ lag c s' x y o = lag c s x y o := by
  have hmoved := dropOne_moved h.good hd
  obtain ⟨s'', p', hd', hgood, -⟩ := h.good.dropOne (h.good.counts.bytecnt_pos h.left)
  obtain ⟨rfl, rfl⟩ := Prod.mk.inj (Option.some.inj (hd'.symm.trans hd))
  obtain ⟨l, hring, hmem, hpair⟩ := h.order
  unfold DRR.dropOne at hd
  simp only [Option.bind_eq_bind] at hd
  obtain ⟨a, -, hd⟩ := Option.bind_eq_some_iff.mp hd
  obtain ⟨m, -, hd⟩ := Option.bind_eq_some_iff.mp hd
  obtain ⟨⟨u, q⟩, htake, hd⟩ := Option.bind_eq_some_iff.mp hd
  obtain ⟨v, hleave, hd⟩ := Option.bind_eq_some_iff.mp hd
  cases hd
  obtain ⟨rest, hq, rfl⟩ := take_some htake
  have hcounts := h.good.counts.take hq
  have hm : m ∈ l := (hmem m).mpr (by simp [hq])
  have hother : ∀ z, z ≠ m → (s.taken m q rest).queue z = s.queue z := fun z hz => update_of_ne hz _ _
  have horder : ∃ l, Ring s'' l ∧ (∀ z, z ∈ l ↔ s''.queue z ≠ []) ∧ pair x y l = o := by
    unfold DRR.leaveIfEmpty at hleave
    split at hleave
    · -- the bucket leaves the list
      rename_i hzero
      obtain ⟨w, hw, rfl⟩ := Option.map_eq_some_iff.mp hleave
      have hempty : (s.taken m q rest).queue m = [] := hcounts.pkts_eq_zero.mp hzero
      obtain ⟨A, B, rfl⟩ := List.append_of_mem hm
      obtain ⟨w', hw', hring', hsame⟩ := Ring.idle (s := s.taken m q rest) (hring.congr rfl rfl rfl)
      obtain rfl := Option.some.inj (hw'.symm.trans hw)
      have hqueue : w'.queue = (s.taken m q rest).queue := hsame.sameCounts.queue
      have hnot : m ∉ A ++ B :=
        (List.nodup_cons.mp ((List.perm_middle.nodup_iff).mp hring.cycle.nodup)).1
      refine ⟨A ++ B, hring'.congr rfl rfl rfl, fun z => ?_, ?_⟩
      · show z ∈ A ++ B ↔ w'.queue z ≠ []
        rw [hqueue]
        by_cases hzm : z = m
        · subst hzm
          exact iff_of_false hnot (not_not.mpr hempty)
        · rw [hother z hzm, ← hmem z]
          simp [hzm]
      · rw [← hpair]
        refine (pair_other ?_ ?_).symm
        · rintro rfl
          exact hx' (by
            show w'.queue m = []
            rw [hqueue, hempty])
        · rintro rfl
          exact hy' (by
            show w'.queue m = []
            rw [hqueue, hempty])
    · rename_i hmore
      cases hleave
      have hne : (s.taken m q rest).queue m ≠ [] := fun hempty => hmore (hcounts.pkts_eq_zero.mpr hempty)
      refine ⟨l, hring.congr rfl rfl rfl, fun z => ?_, hpair⟩
      by_cases hzm : z = m
      · subst hzm
        exact iff_of_true hm hne
      · rw [hother z hzm, hmem z]
  exact ⟨⟨hgood, h.bounded.moved hmoved, horder, hx', hy'⟩,
    lag_congr (fun z _ => congrFun hmoved.turn z) fun z _ => congrFun hmoved.deficit z⟩

/-- The loop of `enque`. -/
theorem Lag.dropLoop (h : Lag c M s x y o) (hlimit : 0 ≤ c.blimit_)
    (hr : dropLoop c n s = some (s', ps)) (hx' : s'.queue x ≠ []) (hy' : s'.queue y ≠ []) :
    Lag c M s' x y o ∧ lag c s' x y o = lag c s x y o := by
  induction n generalizing s ps with
  | zero =>
    unfold DRR.dropLoop at hr
    split at hr
    · cases hr
    · cases hr
      exact ⟨h, rfl⟩
  | succ n ih =>
    unfold DRR.dropLoop at hr
    split at hr
    · obtain ⟨s₁, q, hd, hgood, -⟩ := h.good.dropOne (h.good.counts.bytecnt_pos h.left)
      simp only [hd, Option.bind_eq_bind, Option.bind_some] at hr
      obtain ⟨⟨s₂, qs⟩, hloop, heq⟩ := Option.bind_eq_some_iff.mp hr
      cases heq
      have hmoved := dropLoop_moved hgood hlimit hloop
      obtain ⟨h₁, hlag₁⟩ := h.dropOne hd (hmoved.queue x hx') (hmoved.queue y hy')
      obtain ⟨h', hlag'⟩ := ih h₁ hloop
      exact ⟨h', hlag'.trans hlag₁⟩
    · cases hr
      exact ⟨h, rfl⟩

/-- `enque`. -/
theorem Lag.enque (h : Lag c M s x y o) (hlimit : 0 ≤ c.blimit_) (hquantum : 0 < c.quantum_)
    (hv : Valid c pkt) (hM : pkt.size ≤ M) (hr : enque c n s pkt = some (s', ps))
    (hx' : s'.queue x ≠ []) (hy' : s'.queue y ≠ []) :
    Lag c M s' x y o ∧ lag c s' x y o = lag c s x y o := by
  obtain ⟨⟨b, hb⟩, hsize⟩ := hv
  obtain ⟨s₁, hj, -⟩ := h.good.arrive hb hsize
  obtain ⟨h₁, hlag₁⟩ := h.join hquantum hb hsize hM hj
  unfold DRR.enque at hr
  simp only [hb, hj, Option.bind_eq_bind, Option.bind_some] at hr
  obtain ⟨h', hlag'⟩ := h₁.dropLoop hlimit hr hx' hy'
  exact ⟨h', hlag'.trans hlag₁⟩

/-! ## Runs -/

/-- The loop of `deque` keeps the bounds. -/
theorem Bounded.dequeLoop (h : Bounded c M s) (hgood : Good c s) (hquantum : 0 < c.quantum_)
    (hM : ∀ b, ∀ p ∈ s.queue b, p.size ≤ M) (hpos : s.bytecnt ≠ 0)
    (hr : dequeLoop c n s = some (s', p)) : Bounded c M s' := by
  induction n generalizing s with
  | zero => cases hr
  | succ n ih =>
    obtain ⟨s₁, r, hv, hgood₁, hleave, hle, hnone⟩ := hgood.visit hquantum hpos
    have h₁ := h.visit hgood hquantum hM hpos hv
    unfold DRR.dequeLoop at hr
    rw [hv] at hr
    cases r with
    | some q =>
      cases hr
      exact h₁
    | none =>
      have hqueue : s₁.queue = s.queue := funext fun b => by
        have hfront := hleave.front b
        simpa [ofBucket] using hfront
      exact ih h₁ hgood₁ (hqueue ▸ hM) ((hnone rfl).1 ▸ hpos) hr

/-- What is queued has arrived. -/
theorem Inv.mem_arrived {w : World} (h : Inv c w) (hp : p ∈ w.drr.queue b) : p ∈ w.arrived := by
  have hmem : p ∈ ofBucket c b w.arrived := by
    rw [← h.inOrder b]
    exact List.mem_append_right _ hp
  exact List.mem_of_mem_filter hmem

variable {w w' : World}

/-- One call keeps the bounds. -/
theorem Bounded.step (h : Bounded c M w.drr) (hinv : Inv c w) (hlimit : 0 ≤ c.blimit_)
    (hquantum : 0 < c.quantum_) (hM : ∀ p ∈ w'.arrived, p.size ≤ M) (hstep : Step c w w') :
    Bounded c M w'.drr := by
  cases hstep with
  | @enque n pkt s' ps hv henq =>
    obtain ⟨⟨b, hb⟩, hsize⟩ := hv
    obtain ⟨s₁, hj, hgood₁, hqueue⟩ := hinv.good.arrive hb hsize
    unfold DRR.enque at henq
    simp only [hb, hj, Option.bind_eq_bind, Option.bind_some] at henq
    have h₁ := h.join hinv.good hquantum hsize (hM pkt (by simp)) hj hqueue
    exact h₁.moved (dropLoop_moved hgood₁ hlimit henq)
  | @deque n s' r hdeq =>
    unfold DRR.deque at hdeq
    split at hdeq
    · cases hdeq
      exact h
    · rename_i hpos
      obtain ⟨⟨s₁, p⟩, hloop, heq⟩ := Option.map_eq_some_iff.mp hdeq
      obtain ⟨rfl, -⟩ := Prod.mk.inj heq
      exact h.dequeLoop hinv.good hquantum (fun b q hq => hM q (hinv.mem_arrived hq)) hpos hloop

theorem Step.arrived_subset (hstep : Step c w w') : ∀ p ∈ w.arrived, p ∈ w'.arrived := by
  cases hstep with
  | enque => exact fun p hp => List.mem_append_left _ hp
  | deque => exact fun p hp => hp

/-- In every run the bounds hold. -/
theorem Reachable.bounded (h : Reachable c w) (hlimit : 0 ≤ c.blimit_) (hquantum : 0 < c.quantum_)
    (hM : ∀ p ∈ w.arrived, p.size ≤ M) : Bounded c M w.drr := by
  induction h with
  | refl => exact fun b hb => absurd rfl hb
  | @tail w₁ w₂ hreach hstep ih =>
    exact (ih fun p hp => hM p (hstep.arrived_subset p hp)).step (Reachable.inv hreach hlimit hquantum)
      hlimit hquantum hM hstep

/-- The packet, if it was sent. -/
def Departure.sent : Departure → Option Pkt
  | .delivered p => some p
  | .dropped _ => none

/-- The packets sent. -/
def World.delivered (w : World) : List Pkt := w.left.filterMap Departure.sent

/-- One call, after which both buckets have packets. -/
def Busy (c : Config) (x y : ℕ) (w w' : World) : Prop :=
  Step c w w' ∧ w'.drr.queue x ≠ [] ∧ w'.drr.queue y ≠ []

/-- How many bytes of `x` have been sent more than of `y`. -/
def World.surplus (w : World) (c : Config) (x y : ℕ) : ℤ :=
  sentBy c x w.delivered - sentBy c y w.delivered

/-- One call. -/
theorem Lag.step (h : Lag c M w.drr x y o) (hinv : Inv c w) (hlimit : 0 ≤ c.blimit_)
    (hquantum : 0 < c.quantum_) (hxy : x ≠ y) (hM : ∀ p ∈ w'.arrived, p.size ≤ M)
    (hstep : Busy c x y w w') :
    ∃ o', Lag c M w'.drr x y o' ∧
      lag c w'.drr x y o' + w'.surplus c x y = lag c w.drr x y o + w.surplus c x y := by
  obtain ⟨hstep, hx', hy'⟩ := hstep
  cases hstep with
  | @enque n pkt s' ps hv henq =>
    obtain ⟨h', hlag⟩ := h.enque hlimit hquantum hv (hM pkt (by simp)) henq hx' hy'
    refine ⟨o, h', ?_⟩
    have hnone : (ps.map Departure.dropped).filterMap Departure.sent = [] := by
      simp [Departure.sent]
    simp only [World.surplus, World.delivered, List.filterMap_append, hnone, List.append_nil, hlag]
  | @deque n s' r hdeq =>
    obtain ⟨o', h', hlag⟩ := h.deque hxy hquantum (fun b q hq => hM q (hinv.mem_arrived hq)) hdeq hx' hy'
    refine ⟨o', h', ?_⟩
    have hsome : (r.toList.map Departure.delivered).filterMap Departure.sent = r.toList := by
      cases r <;> simp [Departure.sent]
    simp only [World.surplus, World.delivered, List.filterMap_append, hsome, sentBy_append, hlag]
    ring

/-- A run. -/
theorem Lag.run (h : Lag c M w.drr x y o) (hreach : Reachable c w) (hlimit : 0 ≤ c.blimit_)
    (hquantum : 0 < c.quantum_) (hxy : x ≠ y) (hM : ∀ p ∈ w'.arrived, p.size ≤ M)
    (hrun : Relation.ReflTransGen (Busy c x y) w w') :
    Reachable c w' ∧ ∃ o', Lag c M w'.drr x y o' ∧
      lag c w'.drr x y o' + w'.surplus c x y = lag c w.drr x y o + w.surplus c x y := by
  induction hrun with
  | refl => exact ⟨hreach, o, h, rfl⟩
  | @tail w₁ w₂ _ hstep ih =>
    obtain ⟨hreach₁, o₁, h₁, hlag₁⟩ := ih fun p hp => hM p (hstep.1.arrived_subset p hp)
    obtain ⟨o₂, h₂, hlag₂⟩ := h₁.step (hreach₁.inv hlimit hquantum) hlimit hquantum hxy hM hstep
    exact ⟨hreach₁.tail hstep.1, o₂, h₂, hlag₂.trans hlag₁⟩

/-- The flag of a bucket with packets is set only during its turn. -/
def Proper (s : DRR) : Prop := ∀ b, s.queue b ≠ [] → s.curr ≠ some b → s.turn b = false

/-- **Deficit round robin is fair.**  While two buckets always have packets, whatever the others do,
the bytes sent of the one and of the other differ by less than two packets of the largest size and
three quanta.  If the flags of the buckets with packets are set only during their turns at the
beginning and at the end, then they differ by less than two packets and one quantum. -/
theorem drr_fair (c : Config) (hlimit : 0 ≤ c.blimit_) (hquantum : 0 < c.quantum_) {M : ℤ} {x y : ℕ}
    (hxy : x ≠ y) {w w' : World} (hw : Reachable c w) (hx : w.drr.queue x ≠ [])
    (hy : w.drr.queue y ≠ []) (hrun : Relation.ReflTransGen (Busy c x y) w w')
    (hM : ∀ p ∈ w'.arrived, p.size ≤ M) :
    |w'.surplus c x y - w.surplus c x y| < 2 * M + 3 * c.quantum_ ∧
      (Proper w.drr → Proper w'.drr →
        |w'.surplus c x y - w.surplus c x y| < 2 * M + c.quantum_) := by
  have hgood := (hw.inv hlimit hquantum).good
  have hsub : ∀ p ∈ w.arrived, p ∈ w'.arrived := by
    clear hM
    induction hrun with
    | refl => exact fun p hp => hp
    | tail _ hstep ih => exact fun p hp => hstep.1.arrived_subset p (ih p hp)
  obtain ⟨l, hring, hmem, -⟩ := hgood.active
  have h : Lag c M w.drr x y (pair x y l) :=
    ⟨hgood, hw.bounded hlimit hquantum fun p hp => hM p (hsub p hp), ⟨l, hring, hmem, rfl⟩, hx, hy⟩
  obtain ⟨-, o', h', hlag⟩ := h.run hw hlimit hquantum hxy hM hrun
  have hlt := h.lag_lt hquantum
  have hlt' := h'.lag_lt hquantum
  refine ⟨abs_lt.mpr ⟨by omega, by omega⟩, fun hproper hproper' => ?_⟩
  have hclose := h.lag_lt_of_proper hxy hquantum hproper
  have hclose' := h'.lag_lt_of_proper hxy hquantum hproper'
  exact abs_lt.mpr ⟨by omega, by omega⟩

/-- Two buckets with two packets each; one of the packets is sent. -/
theorem drr_fair_two :
    ∃ w w', Reachable defaults w ∧ Busy defaults 1 2 w w' ∧ w'.delivered.length = 1 ∧
      |w'.surplus defaults 1 2 - w.surplus defaults 1 2| < 2 * 200 + 3 * 250 := by
  have h₁ : Reachable defaults _ := Relation.ReflTransGen.single (Step.enque
    ⟨⟨1, by decide⟩, by decide⟩ (rfl : enque defaults 1 init ⟨1, 1, 200⟩ = some (_, _)))
  have h₂ := h₁.tail (Step.enque ⟨⟨2, by decide⟩, by decide⟩
    (rfl : enque defaults 1 _ ⟨2, 2, 200⟩ = some (_, _)))
  have h₃ := h₂.tail (Step.enque ⟨⟨1, by decide⟩, by decide⟩
    (rfl : enque defaults 1 _ ⟨3, 1, 200⟩ = some (_, _)))
  have h₄ := h₃.tail (Step.enque ⟨⟨2, by decide⟩, by decide⟩
    (rfl : enque defaults 1 _ ⟨4, 2, 200⟩ = some (_, _)))
  obtain ⟨w, w', hw, hx, hy, hbusy, hlen, hM⟩ : ∃ w w', Reachable defaults w ∧
      w.drr.queue 1 ≠ [] ∧ w.drr.queue 2 ≠ [] ∧ Busy defaults 1 2 w w' ∧ w'.delivered.length = 1 ∧
      ∀ p ∈ w'.arrived, p.size ≤ 200 :=
    ⟨_, _, h₄, by decide, by decide,
      ⟨Step.deque (rfl : deque defaults 4 _ = some (_, _)), by decide, by decide⟩, rfl, by decide⟩
  exact ⟨w, w', hw, hbusy, hlen, (drr_fair defaults (by decide) (by decide) (by decide) hw hx hy
    (Relation.ReflTransGen.single hbusy) hM).1⟩

end Ns2.Queue.DRR
