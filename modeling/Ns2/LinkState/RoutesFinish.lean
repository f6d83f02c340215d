import Ns2.Lib.Descent
import Ns2.LinkState.RoutesReturn

/-!
# When the route computation finishes

* `Finishes` — the computation returns, given enough rounds.
* `height_step` — following links one gets closer to the largest cost, or along a link of cost 0
  that is on no cycle.
* `weight` — what the tentative paths can still give rise to; it falls with every path popped.
* `finishes_iff` — **the computation finishes if the database is harmless, and only then.**
-/

namespace Ns2.LinkState

open ShortestPath Relation
open LsPaths (merge)

/-- The computation returns, given enough rounds. -/
def Finishes (db : LsMap ℤ (List LsLinkState)) (me : ℤ) : Prop :=
  ∃ N, ∀ n ≥ N, ∃ t, _computeRoutes db me n = some t

section Heights

variable {E : ℤ → ℤ → ℤ → Prop} {me : ℤ} {u v w c d : ℤ} {D : Finset ℤ}

/-- One link further, at the cost of the walk there. -/
def Onward (E : ℤ → ℤ → ℤ → Prop) (me : ℤ) (x y : ℤ × ℤ) : Prop :=
  Walk E me x.1 x.2 ∧ x.2 ≤ LS_MAX_COST ∧ y.2 ≤ LS_MAX_COST + 1 ∧
    ∃ d, E x.1 y.1 d ∧ y.2 = x.2 + d

/-- Several links further. -/
theorem onward_walk {x y : ℤ × ℤ} (h : TransGen (Onward E me) x y) :
    Walk E me x.1 x.2 ∧ x.2 ≤ LS_MAX_COST ∧
      ∃ w d c, E x.1 w d ∧ Walk E w y.1 c ∧ y.2 = x.2 + d + c := by
  induction h with
  | single h =>
    obtain ⟨p, hle, -, d, e, heq⟩ := h
    exact ⟨p, hle, _, d, 0, e, Walk.nil, by omega⟩
  | tail _ h ih =>
    obtain ⟨p, hle, w, d, c, e, q, heq⟩ := ih
    obtain ⟨-, -, -, d', e', heq'⟩ := h
    exact ⟨p, hle, w, d, c + d', e, q.snoc e', by omega⟩

/-- The nodes with the costs at which they can become tentative. -/
noncomputable def states (D : Finset ℤ) : Finset (ℤ × ℤ) := D ×ˢ Finset.Icc 0 (LS_MAX_COST + 1)

/-- How many such nodes are ahead. -/
noncomputable def ahead (E : ℤ → ℤ → ℤ → Prop) (me : ℤ) (D : Finset ℤ) (v c : ℤ) : ℕ :=
  Descent.height (states D) (Onward E me) (v, c)

theorem height_step (hnn : ∀ u v d, E u v d → 0 ≤ d) (hD : ∀ u v d, E u v d → v ∈ D)
    (hacyc : ∀ v c, Walk E me v c → c ≤ LS_MAX_COST → ¬ OnZeroCycle E v) (p : Walk E me u c)
    (hc : c ≤ LS_MAX_COST) (e : E u v d) (hd : c + d ≤ LS_MAX_COST + 1) :
    ahead E me D v (c + d) < ahead E me D u c := by
  apply Descent.height_lt
  · exact ⟨p, hc, hd, d, e, rfl⟩
  · have hnonneg := (p.snoc e).nonneg_of_le hnn
    exact Finset.mem_product.mpr ⟨hD _ _ _ e, Finset.mem_Icc.mpr ⟨hnonneg, hd⟩⟩
  · intro hcycle
    obtain ⟨q, hle, w, d', c', e', q', heq⟩ := onward_walk hcycle
    have hd' := hnn _ _ _ e'
    have hc' := q'.nonneg_of_le hnn
    simp only at heq
    obtain rfl : d' = 0 := by omega
    obtain rfl : c' = 0 := by omega
    exact hacyc v _ q hle ⟨w, e', q'⟩

end Heights

section Weight

variable {E : ℤ → ℤ → ℤ → Prop} {me : ℤ} {m u v c d b : ℤ} {D : Finset ℤ} {P T P' T' : LsPaths}
  {L nhl : List ℤ} {ep : LsEqualPaths} {key : ℤ → ℤ → ℕ} {M : ℕ}

/-- What the next hops of one node count for. -/
def share (key : ℤ → ℤ → ℕ) (M : ℕ) (v : ℤ) : Option LsEqualPaths → ℕ
  | none => 0
  | some ep => ep.nextHopList.length * M ^ (key v ep.cost + 1)

/-- What the tentative paths can still give rise to. -/
def weight (D : Finset ℤ) (key : ℤ → ℤ → ℕ) (M : ℕ) (T : LsPaths) : ℕ :=
  ∑ v ∈ D, share key M v T[v]?

theorem length_appendUnique_le (l x : List ℤ) :
    (appendUnique l x).length ≤ l.length + x.length := by
  unfold appendUnique
  induction x generalizing l with
  | nil => exact le_rfl
  | cons a x ih =>
    refine (ih _).trans ?_
    by_cases ha : a ∈ l
    · simp [ha]
    · simp [ha]
      omega

theorem share_merge (old : Option LsEqualPaths) (v c : ℤ) (L : List ℤ) :
    share key M v (some (merge old c L)) ≤ share key M v old + L.length * M ^ (key v c + 1) := by
  unfold LsPaths.merge
  cases old with
  | none => exact Nat.le_add_left _ _
  | some ep =>
    dsimp only
    split_ifs with h1 h2
    · exact Nat.le_add_right _ _
    · exact Nat.le_add_left _ _
    · obtain rfl : c = ep.cost := by omega
      simp only [share]
      rw [← Nat.add_mul]
      exact Nat.mul_le_mul_right _ (length_appendUnique_le _ _)

theorem weight_insertNextHopList (T : LsPaths) (d c : ℤ) (L : List ℤ) :
    weight D key M (T.insertNextHopList d c L) ≤
      weight D key M T + L.length * M ^ (key d c + 1) := by
  have hone : ∑ v ∈ D, (if v = d then L.length * M ^ (key d c + 1) else 0) ≤
      L.length * M ^ (key d c + 1) := by
    rw [Finset.sum_ite_eq']
    split_ifs
    · exact le_rfl
    · exact Nat.zero_le _
  refine le_trans ?_ (Nat.add_le_add_left hone _)
  rw [weight, weight, ← Finset.sum_add_distrib]
  apply Finset.sum_le_sum
  intro v _
  rw [LsPaths.getElem?_insertNextHopList]
  by_cases hv : v = d
  · subst hv
    rw [if_pos rfl, if_pos rfl]
    exact share_merge _ _ _ _
  · rw [if_neg hv, if_neg hv]
    exact le_rfl

/-- A path that is popped counts no more. -/
theorem Popped.weight_le (h : Popped E me m P T d c b P' T') (hd : d ∈ D) :
    weight D key M T' + M ^ (key d c + 1) ≤ weight D key M T := by
  obtain ⟨ed, nhl, hTd, rfl, hlist, hT'd⟩ := h.taken
  have hsum : ∑ v ∈ D, (share key M v T'[v]? + if v = d then M ^ (key d ed.cost + 1) else 0) ≤
      weight D key M T := by
    apply Finset.sum_le_sum
    intro v _
    by_cases hv : v = d
    · subst hv
      rw [if_pos rfl, hT'd, hTd]
      by_cases hn : nhl = []
      · simp [share, hn, hlist]
      · simp only [share, if_neg hn, hlist, List.length_cons]
        rw [Nat.succ_mul]
    · rw [if_neg hv, (h.others v hv).2, Nat.add_zero]
  rw [Finset.sum_add_distrib, Finset.sum_ite_eq', if_pos hd] at hsum
  exact hsum

/-- The next hops are nodes near by, without duplicates. -/
structure HopsIn (E : ℤ → ℤ → ℤ → Prop) (me : ℤ) (D : Finset ℤ) (ep : LsEqualPaths) : Prop where
  nodup : ep.nextHopList.Nodup
  mem : ∀ h ∈ ep.nextHopList, h ∈ D
  ne : ∀ h ∈ ep.nextHopList, h ≠ me
  walk : ∀ h ∈ ep.nextHopList, ∃ a, Walk E me h a ∧ a ≤ ep.cost

theorem HopsIn.length_le (h : HopsIn E me D ep) : ep.nextHopList.length ≤ D.card := by
  rw [← List.toFinset_card_of_nodup h.nodup]
  apply Finset.card_le_card
  intro a ha
  exact h.mem a (List.mem_toFinset.mp ha)

theorem HopsIn.merge {old : Option LsEqualPaths} (hold : ∀ ep, old = some ep → HopsIn E me D ep)
    (hL : HopsIn E me D ⟨c, L⟩) : HopsIn E me D (merge old c L) := by
  unfold LsPaths.merge
  cases old with
  | none => exact hL
  | some ep =>
    have hep := hold ep rfl
    dsimp only
    split_ifs with h1 h2
    · exact hep
    · exact hL
    · obtain rfl : c = ep.cost := by omega
      refine ⟨nodup_appendUnique hep.nodup, ?_, ?_, ?_⟩
      · intro h hh
        exact (mem_appendUnique.mp hh).elim (hep.mem h) (hL.mem h)
      · intro h hh
        exact (mem_appendUnique.mp hh).elim (hep.ne h) (hL.ne h)
      · intro h hh
        exact (mem_appendUnique.mp hh).elim (hep.walk h) (hL.walk h)

/-- All next hops are such, and the node itself is not tentative. -/
structure HopsOk (E : ℤ → ℤ → ℤ → Prop) (me : ℤ) (D : Finset ℤ) (P T : LsPaths) : Prop where
  notSelf : T[me]? = none
  mem : ∀ (v : ℤ) (ep : LsEqualPaths), T[v]? = some ep → v ∈ D
  tentative : ∀ (v : ℤ) (ep : LsEqualPaths), T[v]? = some ep → HopsIn E me D ep
  installed : ∀ (v : ℤ) (ep : LsEqualPaths), v ≠ me → P[v]? = some ep → HopsIn E me D ep

theorem HopsOk.insertNextHopList (h : HopsOk E me D P T) (hd : d ≠ me) (hdD : d ∈ D)
    (hL : HopsIn E me D ⟨c, L⟩) : HopsOk E me D P (T.insertNextHopList d c L) := by
  refine ⟨?_, fun v ep hv => ?_, fun v ep hv => ?_, h.installed⟩
  · rw [LsPaths.getElem?_insertNextHopList, if_neg hd.symm]
    exact h.notSelf
  · rw [LsPaths.getElem?_insertNextHopList] at hv
    by_cases hvd : v = d
    · exact hvd ▸ hdD
    · rw [if_neg hvd] at hv
      exact h.mem v ep hv
  · rw [LsPaths.getElem?_insertNextHopList] at hv
    by_cases hvd : v = d
    · rw [if_pos hvd] at hv
      obtain rfl := Option.some.inj hv
      exact HopsIn.merge (fun ep hep => h.tentative d ep hep) hL
    · rw [if_neg hvd] at hv
      exact h.tentative v ep hv

/-- The next hops of a tentative node without the one that is taken. -/
theorem HopsOk.popped (h : HopsOk E me D P T) (hp : Popped E me m P T d c b P' T') :
    HopsOk E me D P' T' ∧ d ≠ me ∧ d ∈ D ∧ b ≠ me ∧ ∃ a, Walk E me b a ∧ a ≤ c := by
  obtain ⟨ed, nhl, hTd, rfl, hlist, hT'd⟩ := hp.taken
  have hd : d ≠ me := by
    rintro rfl
    exact absurd (h.notSelf.symm.trans hTd) (by simp)
  have hed := h.tentative d ed hTd
  have hb : b ∈ ed.nextHopList := by simp [hlist]
  have hsub : ∀ a ∈ nhl, a ∈ ed.nextHopList := fun a ha => by simp [hlist, ha]
  have hone : HopsIn E me D ⟨ed.cost, [b]⟩ := by
    refine ⟨List.nodup_singleton b, ?_, ?_, ?_⟩
    · intro a ha
      exact hed.mem a (List.mem_singleton.mp ha ▸ hb)
    · intro a ha
      exact hed.ne a (List.mem_singleton.mp ha ▸ hb)
    · intro a ha
      exact hed.walk a (List.mem_singleton.mp ha ▸ hb)
  have hrest : HopsIn E me D ⟨ed.cost, nhl⟩ :=
    ⟨(List.nodup_cons.mp (hlist ▸ hed.nodup)).2, fun a ha => hed.mem a (hsub a ha),
      fun a ha => hed.ne a (hsub a ha), fun a ha => hed.walk a (hsub a ha)⟩
  have hT' : ∀ (v : ℤ) (ep : LsEqualPaths), T'[v]? = some ep →
      (v = d ∧ ep = ⟨ed.cost, nhl⟩) ∨ T[v]? = some ep := by
    intro v ep hv
    by_cases hvd : v = d
    · rw [hvd, hT'd] at hv
      by_cases hn : nhl = []
      · rw [if_pos hn] at hv
        exact absurd hv (by simp)
      · rw [if_neg hn] at hv
        exact Or.inl ⟨hvd, (Option.some.inj hv).symm⟩
    · exact Or.inr ((hp.others v hvd).2 ▸ hv)
  refine ⟨⟨?_, ?_, ?_, ?_⟩, hd, h.mem d ed hTd, hed.ne b hb, hed.walk b hb⟩
  · rw [(hp.others me hd.symm).2]
    exact h.notSelf
  · intro v ep hv
    rcases hT' v ep hv with ⟨rfl, -⟩ | hv
    · exact h.mem v ed hTd
    · exact h.mem v ep hv
  · intro v ep hv
    rcases hT' v ep hv with ⟨-, rfl⟩ | hv
    · exact hrest
    · exact h.tentative v ep hv
  · intro v ep hvme hv
    by_cases hvd : v = d
    · rw [hvd, hp.installed] at hv
      obtain rfl := Option.some.inj hv
      exact HopsIn.merge (fun ep hep => h.installed d ep hd hep) hone
    · exact h.installed v ep hvme ((hp.others v hvd).1 ▸ hv)

/-- A walk of cost 0 that comes back. -/
theorem onZeroCycle_of_snoc (hnn : ∀ u v d, E u v d → 0 ≤ d) (p : Walk E v u c) (e : E u v d)
    (h0 : c + d ≤ 0) : OnZeroCycle E v := by
  have hc := p.nonneg_of_le hnn
  have hd := hnn _ _ _ e
  obtain rfl : d = 0 := by omega
  rcases p.via with ⟨rfl, -⟩ | ⟨y, q⟩
  · exact ⟨u, e, Walk.nil⟩
  · obtain ⟨d', c', e', q', rfl⟩ := q.tail
    have hd' := hnn _ _ _ e'
    have hc' := q'.nonneg_of_le hnn
    obtain rfl : d' = 0 := by omega
    obtain rfl : c' = 0 := by omega
    exact ⟨y, e', by simpa using q'.snoc e⟩

end Weight

section Loops

variable {db : LsMap ℤ (List LsLinkState)} {me m u : ℤ} {P T : LsPaths} {l : List LsLinkState}
  {M : ℕ}

/-- How many nodes are ahead in a database. -/
noncomputable def key (db : LsMap ℤ (List LsLinkState)) (me v c : ℤ) : ℕ :=
  ahead (linkEdge db) me (neighbors db) v c

/-- What the tentative paths can still give rise to. -/
noncomputable def potential (db : LsMap ℤ (List LsLinkState)) (me : ℤ) (M : ℕ) (T : LsPaths) : ℕ :=
  weight (neighbors db) (key db me) M T

/-- One link adds at most the next hops of its node, one step further. -/
theorem relax_potential (hr : InRange db) (hh : Harmless db me) (hM : 1 ≤ M) {ep : LsEqualPaths}
    {link : LsLinkState} (h : Settled (linkEdge db) me m P T)
    (hhops : HopsOk (linkEdge db) me (neighbors db) P T) (hu : P[u]? = some ep) (hm : ep.cost = m)
    (hE : link.status_ = .up → LinkOf (linkEdge db) u link) :
    HopsOk (linkEdge db) me (neighbors db) P (relax me u P (hopsFrom me u P) T link) ∧
      potential db me M (relax me u P (hopsFrom me u P) T link) ≤
        potential db me M T + (neighbors db).card * M ^ key db me u m := by
  subst hm
  have p := (h.dist u ep hu).walk
  have h0 := p.nonneg_of_le hr.nonneg
  rw [relax_eq hu h0 h.bound fun hup => ⟨(hE hup).nonneg, (hE hup).le⟩]
  by_cases hins : link.status_ = .up ∧ ep.cost + link.cost_ ≤ P.lookupCost link.neighborId_
  · rw [if_pos hins]
    have e := (hE hins.1).edge
    have hle := hins.2.trans (h.lookupCost_le_top _)
    have hvD := mem_neighbors e
    have hvme : link.neighborId_ ≠ me := by
      intro hvme
      obtain ⟨es, hes, hes0⟩ := h.self
      have hcost := hins.2
      rw [hvme, lookupCost_eq hes, hes0] at hcost
      rw [hvme] at e
      exact hh.acyclic me 0 Walk.nil (by decide) (onZeroCycle_of_snoc hr.nonneg p e hcost)
    have hL : HopsIn (linkEdge db) me (neighbors db)
        ⟨ep.cost + link.cost_, passed me u link.neighborId_ (hopsFrom me u P)⟩ := by
      by_cases hume : u = me
      · simp only [passed, if_pos hume]
        refine ⟨List.nodup_singleton _, ?_, ?_, ?_⟩
        · intro a ha
          exact List.mem_singleton.mp ha ▸ hvD
        · intro a ha
          exact List.mem_singleton.mp ha ▸ hvme
        · intro a ha
          obtain rfl := List.mem_singleton.mp ha
          exact ⟨_, p.snoc e, le_rfl⟩
      · have hep := hhops.installed u ep hume hu
        simp only [passed, hopsFrom, if_neg hume, hops_eq hu]
        refine ⟨hep.nodup, hep.mem, hep.ne, fun a ha => ?_⟩
        obtain ⟨c, q, hc⟩ := hep.walk a ha
        exact ⟨c, q, hc.trans (le_add_of_nonneg_right (hE hins.1).nonneg)⟩
    refine ⟨hhops.insertNextHopList hvme hvD hL, ?_⟩
    have hkey : key db me link.neighborId_ (ep.cost + link.cost_) + 1 ≤ key db me u ep.cost :=
      height_step hr.nonneg (fun _ _ _ => mem_neighbors) hh.acyclic p h.bound e hle
    refine (weight_insertNextHopList T _ _ _).trans (Nat.add_le_add_left ?_ _)
    exact Nat.mul_le_mul hL.length_le (Nat.pow_le_pow_right hM hkey)
  · rw [if_neg hins]
    exact ⟨hhops, Nat.le_add_right _ _⟩

/-- All links of a node. -/
theorem foldl_relax_potential (hr : InRange db) (hh : Harmless db me) (hM : 1 ≤ M)
    {ep : LsEqualPaths} (h : Settled (linkEdge db) me m P T)
    (hhops : HopsOk (linkEdge db) me (neighbors db) P T) (hu : P[u]? = some ep) (hm : ep.cost = m)
    (hnhl : u ≠ me → hopsFrom me u P ≠ [])
    (hE : ∀ link ∈ l, link.status_ = .up → LinkOf (linkEdge db) u link) :
    HopsOk (linkEdge db) me (neighbors db) P (l.foldl (relax me u P (hopsFrom me u P)) T) ∧
      potential db me M (l.foldl (relax me u P (hopsFrom me u P)) T) ≤
        potential db me M T + l.length * ((neighbors db).card * M ^ key db me u m) := by
  have h0 : 0 ≤ m := hm ▸ (h.dist u ep hu).walk.nonneg_of_le hr.nonneg
  induction l generalizing T with
  | nil => exact ⟨hhops, Nat.le_add_right _ _⟩
  | cons link l ih =>
    have hElink := hE link List.mem_cons_self
    obtain ⟨hhops', hpot⟩ := relax_potential hr hh hM h hhops hu hm hElink
    have hext := (h.relax hu hm h0 hnhl hElink).1
    obtain ⟨hhops'', hpot'⟩ :=
      ih hext.settled hhops' fun x hx => hE x (List.mem_cons_of_mem _ hx)
    refine ⟨hhops'', ?_⟩
    rw [List.foldl_cons, List.length_cons, Nat.succ_mul]
    omega

/-- More than what the links of any node add. -/
def Ample (db : LsMap ℤ (List LsLinkState)) (M : ℕ) : Prop :=
  ∀ (u : ℤ) (l : List LsLinkState), db[u]? = some l → l.length * (neighbors db).card < M

theorem exists_ample (db : LsMap ℤ (List LsLinkState)) : ∃ M, 1 ≤ M ∧ Ample db M := by
  refine ⟨(db.toList.map fun e => e.2.length).sum * (neighbors db).card + 1, Nat.le_add_left _ _,
    fun u l hl => Nat.lt_succ_of_le (Nat.mul_le_mul_right _ ?_)⟩
  have hmem : (u, l) ∈ db.toList := Std.TreeMap.mem_toList_iff_getElem?_eq_some.mpr hl
  exact List.single_le_sum (fun _ _ => Nat.zero_le _) _ (List.mem_map.mpr ⟨(u, l), hmem, rfl⟩)

/-- The invariant of the loops. -/
structure Ready (db : LsMap ℤ (List LsLinkState)) (me m : ℤ) (P T : LsPaths) : Prop where
  settled : Settled (linkEdge db) me m P T
  followed : Followed (linkEdge db) (fun _ => False) P T
  hops : HopsOk (linkEdge db) me (neighbors db) P T

/-- The links of a node are followed, and add less than the path to it counted for. -/
theorem Expanding.ready (hr : InRange db) (hh : Harmless db me) (hM : 1 ≤ M) (ha : Ample db M)
    (h : Expanding db me m u l P T) (hhops : HopsOk (linkEdge db) me (neighbors db) P T) :
    ∃ T', LinkState.expand me u l P T = some T' ∧ Ready db me m P T' ∧
      potential db me M T' < potential db me M T + M ^ (key db me u m + 1) := by
  obtain ⟨hexp, hext, hf, -⟩ := h.expand hr
  obtain ⟨ep, hep, hm⟩ := h.installed
  obtain ⟨hhops', hpot⟩ :=
    foldl_relax_potential hr hh hM h.settled hhops hep hm h.hopsFrom_ne_nil (h.linkOf hr)
  refine ⟨_, hexp, ⟨hext.settled, hf, hhops'⟩, lt_of_le_of_lt hpot (Nat.add_lt_add_left ?_ _)⟩
  calc l.length * ((neighbors db).card * M ^ key db me u m)
      = l.length * (neighbors db).card * M ^ key db me u m := (Nat.mul_assoc _ _ _).symm
    _ < M * M ^ key db me u m :=
        Nat.mul_lt_mul_of_pos_right (ha u l h.record) (Nat.pow_pos hM)
    _ = M ^ (key db me u m + 1) := (Nat.pow_succ').symm

/-- Some tentative path is within the largest cost. -/
theorem Ready.exists_within (hr : InRange db) (hh : Harmless db me) (h : Ready db me m P T)
    {x : ℤ} {ex : LsEqualPaths} (hx : T[x]? = some ex) :
    ∃ (y : ℤ) (ey : LsEqualPaths), T[y]? = some ey ∧ ey.cost ≤ LS_MAX_COST := by
  by_contra hno
  push Not at hno
  have hxc : ex.cost = LS_MAX_COST + 1 := le_antisymm (h.settled.top x ex hx) (hno x ex hx)
  refine hh.noneAtBound x ⟨hxc ▸ h.settled.walk x ex hx, fun a p => ?_⟩
  by_contra hlt
  push Not at hlt
  rcases h.settled.near_of_walk hr.nonneg h.followed p hlt.le with ⟨ep, hep, hle⟩ | ⟨y, ey, hy, hle⟩
  · have := h.settled.both x ep ex hep hx
    omega
  · have := hno y ey hy
    omega

theorem popLoop_returns (hr : InRange db) (hh : Harmless db me) {n : ℕ}
    (h : Ready db me m P T) (hM : 1 ≤ M) (hn : potential db me M T < n) :
    ∃ P' T', popLoop db n P T = some (P', T', none) ∨
      ∃ u l m', popLoop db n P T = some (P', T', some (u, l)) ∧ Expanding db me m' u l P' T' ∧
        HopsOk (linkEdge db) me (neighbors db) P' T' ∧
        potential db me M T' + M ^ (key db me u m' + 1) ≤ potential db me M T := by
  induction n generalizing m P T with
  | zero => omega
  | succ n ih =>
    rw [popLoop]
    cases hT : T.isEmpty with
    | true => exact ⟨P, T, Or.inl rfl⟩
    | false =>
      obtain ⟨v, hv⟩ := Std.TreeMap.isEmpty_eq_false_iff_exists_mem.mp hT
      obtain ⟨ev, hev⟩ := Option.ne_none_iff_exists'.mp
        (Std.TreeMap.mem_iff_isSome_getElem?.mp hv |> Option.isSome_iff_ne_none.mp)
      obtain ⟨x, ex, hx, hxc⟩ := h.exists_within hr hh hev
      obtain ⟨d, c, b, hpop, hp⟩ := h.settled.pop hr.nonneg h.followed hx hxc
      obtain ⟨hhops, hdme, hdD, hbme, a, pb, hac⟩ := h.hops.popped hp
      have hpot : potential db me M T.popShortestPath.1 + M ^ (key db me d c + 1) ≤
          potential db me M T := hp.weight_le hdD
      have hvalid : (⟨d, c, b⟩ : LsPath).isValid = true := by
        have h1 := hh.valid d c hp.dist.walk hp.le hdme
        have h2 := hh.valid b a pb (hac.trans hp.le) hbme
        have h3 : c ≠ LS_INVALID_COST := by
          have := hp.le
          unfold LS_INVALID_COST
          unfold LS_MAX_COST at this
          omega
        simp only [LsPath.isValid, decide_eq_true_eq]
        exact ⟨h1, h3, h2⟩
      simp only [Bool.false_eq_true, if_false, hpop, hvalid, not_true_eq_false]
      cases hdb : db[d]? with
      | some l =>
        exact ⟨_, _, Or.inr ⟨d, l, c, rfl,
          ⟨hp.settled, hp.followed, hdb, _, hp.installed, hp.cost⟩, hhops, hpot⟩⟩
      | none =>
        have hpow : 0 < M ^ (key db me d c + 1) := Nat.pow_pos hM
        obtain ⟨P', T', hor⟩ := ih ⟨hp.settled, hp.followed.of_unknown hdb, hhops⟩ (by omega)
        refine ⟨P', T', hor.imp_right ?_⟩
        rintro ⟨u, l, m', hloop, hexp, hhops', hpot'⟩
        exact ⟨u, l, m', hloop, hexp, hhops', by omega⟩

theorem mainLoop_returns (hr : InRange db) (hh : Harmless db me) (hM : 1 ≤ M) (ha : Ample db M)
    {n : ℕ} (h : Expanding db me m u l P T) (hhops : HopsOk (linkEdge db) me (neighbors db) P T)
    (hn : potential db me M T + M ^ (key db me u m + 1) < n) :
    ∃ P', mainLoop db me n P T u l = some P' := by
  induction n generalizing m u l P T with
  | zero => omega
  | succ n ih =>
    obtain ⟨T₁, hexp, hready, hlt⟩ := h.ready hr hh hM ha hhops
    obtain ⟨P', T', hloop | ⟨u', l', m', hloop, hexp', hhops', hle⟩⟩ :=
      popLoop_returns hr hh (n := n) hready hM (by omega)
    · exact ⟨P', by simp only [mainLoop, hexp, hloop, Option.bind_eq_bind, Option.bind_some]⟩
    · obtain ⟨P'', hmain⟩ := ih hexp' hhops' (by omega)
      refine ⟨P'', ?_⟩
      simp only [mainLoop, hexp, hloop, Option.bind_eq_bind, Option.bind_some, hmain]

theorem hopsOk_start (D : Finset ℤ) : HopsOk (linkEdge db) me D (start me) ∅ :=
  ⟨Std.TreeMap.getElem?_emptyc, fun _ _ hv => absurd hv not_tentative,
    fun _ _ hv => absurd hv not_tentative, fun _ _ hne hv => absurd (start_eq_some hv).1 hne⟩

/-- The computation finishes for a harmless database. -/
theorem Harmless.finishes (hr : InRange db) (hh : Harmless db me) : Finishes db me := by
  obtain ⟨M, hM, ha⟩ := exists_ample db
  refine ⟨potential db me M ∅ + M ^ (key db me me 0 + 1) + 1, fun n hn => ?_⟩
  unfold _computeRoutes
  cases hdb : db[me]? with
  | none => exact ⟨_, rfl⟩
  | some l =>
    exact mainLoop_returns hr hh hM ha (expanding_start hr hdb) (hopsOk_start _) (by omega)

/-- **The route computation finishes if the database is harmless, and only then.** -/
theorem finishes_iff (hr : InRange db) : Finishes db me ↔ Harmless db me := by
  constructor
  · rintro ⟨N, hN⟩
    obtain ⟨t, ht⟩ := hN N le_rfl
    exact harmless_of_returns hr ht
  · exact fun hh => hh.finishes hr

end Loops

theorem harmless_oneLink : InRange (oneLink 7) ∧ Harmless (oneLink 7) 0 := by
  have hself : Walk (linkEdge (oneLink 7)) 0 0 0 := Walk.nil
  have hseven : Walk (linkEdge (oneLink 7)) 0 7 (0 + 1) :=
    Walk.nil.snoc (linkEdge_oneLink.mpr ⟨rfl, rfl, rfl⟩)
  refine ⟨fun u v c e => ?_, fun v c p _ hcycle => ?_, fun v hdist => ?_, fun v c p _ hne => ?_⟩
  · obtain ⟨-, -, rfl⟩ := linkEdge_oneLink.mp e
    decide
  · obtain ⟨w, e, -⟩ := hcycle
    exact absurd (linkEdge_oneLink.mp e).2.2 (by decide)
  · have := hdist.least
    unfold LS_MAX_COST at this
    rcases walk_oneLink hdist.walk with rfl | rfl
    · linarith [this _ hself]
    · linarith [this _ hseven]
  · rcases walk_oneLink p with rfl | rfl
    · exact absurd rfl hne
    · decide

theorem finishes_iff_oneLink : Finishes (oneLink 7) 0 :=
  (finishes_iff harmless_oneLink.1).mpr harmless_oneLink.2

/-- Two nodes with links of cost 0. -/
def zeroLinks : LsMap ℤ (List LsLinkState) :=
  ((∅ : LsMap ℤ (List LsLinkState)).insert 0 [⟨1, .up, 0, 0⟩]).insert 1 [⟨0, .up, 0, 0⟩]

/-- Three nodes in a row, the last one at the cost after the largest one. -/
def farNode : LsMap ℤ (List LsLinkState) :=
  ((∅ : LsMap ℤ (List LsLinkState)).insert 0 [⟨1, .up, 65534, 0⟩]).insert 1 [⟨2, .up, 1, 0⟩]

theorem linkEdge_zeroLinks {u v c : ℤ} : linkEdge zeroLinks u v c ↔
    (u = 0 ∧ v = 1 ∧ c = 0) ∨ (u = 1 ∧ v = 0 ∧ c = 0) := by
  unfold linkEdge zeroLinks
  simp only [getElem?_lsInsert, Std.TreeMap.getElem?_emptyc]
  by_cases h1 : u = 1
  · simp [h1, eq_comm]
  · by_cases h0 : u = 0
    · simp [h0, eq_comm]
    · simp [h0, h1]

theorem linkEdge_farNode {u v c : ℤ} : linkEdge farNode u v c ↔
    (u = 0 ∧ v = 1 ∧ c = 65534) ∨ (u = 1 ∧ v = 2 ∧ c = 1) := by
  unfold linkEdge farNode
  simp only [getElem?_lsInsert, Std.TreeMap.getElem?_emptyc]
  by_cases h1 : u = 1
  · simp [h1, eq_comm]
  · by_cases h0 : u = 0
    · simp [h0, eq_comm]
    · simp [h0, h1]

/-- The links of cost 0 are followed for ever, and the node that is too far is not found. -/
theorem not_finishes : (InRange zeroLinks ∧ ¬ Finishes zeroLinks 0) ∧
    InRange farNode ∧ ¬ Finishes farNode 0 := by
  have hzero : InRange zeroLinks := by
    intro u v c e
    rcases linkEdge_zeroLinks.mp e with ⟨-, -, rfl⟩ | ⟨-, -, rfl⟩ <;> decide
  have hfar : InRange farNode := by
    intro u v c e
    rcases linkEdge_farNode.mp e with ⟨-, -, rfl⟩ | ⟨-, -, rfl⟩ <;> decide
  refine ⟨⟨hzero, ?_⟩, hfar, ?_⟩
  · rintro ⟨N, hN⟩
    obtain ⟨t, ht⟩ := hN N le_rfl
    have hback : Walk (linkEdge zeroLinks) 1 0 0 := by
      simpa using Walk.nil.snoc (linkEdge_zeroLinks.mpr (Or.inr ⟨rfl, rfl, rfl⟩))
    exact (harmless_of_returns hzero ht).acyclic 0 0 Walk.nil (by decide)
      ⟨1, linkEdge_zeroLinks.mpr (Or.inl ⟨rfl, rfl, rfl⟩), hback⟩
  · rintro ⟨N, hN⟩
    obtain ⟨t, ht⟩ := hN (N + 4) (Nat.le_add_right N 4)
    have habort : _computeRoutes farNode 0 (N + 4) = none := rfl
    exact absurd (habort.symm.trans ht) (by simp)

end Ns2.LinkState
