import Mathlib
import Ns2.LinkState.ComputeRoutes

/-!
# The route computation is correct

* `Sound.popped` — the invariant when a path of least cost is popped.
* `exists_tentative`, `pop_spec` — Dijkstra's argument: the path popped has the least cost.
* `popLoop_spec`, `mainLoop_spec` — the loops end, since every pop installs a next hop.
* `computeRoutes_correct` — the table has the nodes that can be reached, their costs and all
  first hops of paths of least cost.
-/

namespace Ns2.LinkState

open ShortestPath

section Pop

variable {E : ℤ → ℤ → ℤ → Prop} {me : ℤ} {m c d v u : ℤ} {P T : LsPaths} {ep : LsEqualPaths}

/-! ## Popping a path -/

/-- The next hops found for `v`. -/
def hops (P : LsPaths) (v : ℤ) : List ℤ :=
  match P[v]? with
  | none => []
  | some ep => ep.nextHopList

theorem hops_eq (h : P[v]? = some ep) : hops P v = ep.nextHopList := by
  rw [hops, h]

/-- The popped path is installed with the ones of its destination. -/
theorem getElem?_insertPath_popped {b : ℤ} (hcost : ∀ ep, P[d]? = some ep → ep.cost = c)
    (hb : b ∉ hops P d) (v : ℤ) :
    (P.insertPath ⟨d, c, b⟩)[v]? = if v = d then some ⟨c, hops P d ++ [b]⟩ else P[v]? := by
  rw [LsPaths.getElem?_insertPath]
  by_cases hv : v = d
  · rw [if_pos hv, if_pos hv]
    unfold LsPaths.merge
    cases hd : P[d]? with
    | none =>
      rw [hops, hd]
      rfl
    | some ep =>
      rw [hops_eq hd] at hb ⊢
      have := hcost ep hd
      subst this
      simp [appendUnique, hb]
  · rw [if_neg hv, if_neg hv]

/-- What was installed for `d` before has the same cost and other next hops. -/
theorem Sound.hops_before (h : Sound E me m P T) (hd : T[d]? = some ep) (hne : d ≠ me) :
    (∀ a ∈ hops P d, Via E me a d ep.cost ∧ a ∉ ep.nextHopList) ∧ (hops P d).Nodup := by
  cases hPd : P[d]? with
  | none => simp [hops, hPd]
  | some ep' =>
    obtain ⟨hcost, hdisj⟩ := h.both d ep' ep hPd hd
    rw [hops_eq hPd]
    have hgood := h.good d ep' hne hPd
    exact ⟨fun a ha => ⟨hcost ▸ hgood.via a ha, hdisj a ha⟩, hgood.nodup⟩

section Popped

variable {P' T' : LsPaths} {b : ℤ} {nhl : List ℤ} (hd : T[d]? = some ep)
  (hlist : ep.nextHopList = b :: nhl)
  (hP' : ∀ v : ℤ, P'[v]? = if v = d then some ⟨ep.cost, hops P d ++ [b]⟩ else P[v]?)
  (hT' : ∀ v : ℤ, T'[v]? = if v = d then (if nhl = [] then none else some ⟨ep.cost, nhl⟩) else T[v]?)
include hd hlist hP' hT'

/-- A path that is popped has not been forgotten. -/
theorem Covered.popped {a g : ℤ} (hcost : ∀ ep', P[d]? = some ep' → ep'.cost = ep.cost)
    (h : Covered P T v a g) : Covered P' T' v a g := by
  by_cases hv : v = d
  · subst hv
    have hPv : P'[v]? = some ⟨ep.cost, hops P v ++ [b]⟩ := by rw [hP', if_pos rfl]
    rcases h with h | ⟨ep', hep', h⟩ | ⟨ep', hep', h⟩
    · exact Or.inl h
    · refine Or.inr (Or.inl ⟨_, hPv, ?_⟩)
      rw [hops_eq hep', ← hcost ep' hep']
      exact h.imp_right fun h => ⟨h.1, List.mem_append_left _ h.2⟩
    · obtain rfl := Option.some.inj (hd.symm.trans hep')
      rw [hlist, List.mem_cons] at h
      rcases h with h | ⟨h, rfl | hg⟩
      · exact Or.inr (Or.inl ⟨_, hPv, Or.inl h⟩)
      · exact Or.inr (Or.inl ⟨_, hPv, Or.inr ⟨h, by simp⟩⟩)
      · refine Or.inr (Or.inr ⟨⟨ep.cost, nhl⟩, ?_, Or.inr ⟨h, hg⟩⟩)
        rw [hT', if_pos rfl, if_neg (List.ne_nil_of_mem hg)]
  · rcases h with h | h | h
    · exact Or.inl h
    · exact Or.inr (Or.inl (by rwa [hP', if_neg hv]))
    · exact Or.inr (Or.inr (by rwa [hT', if_neg hv]))

/-- The invariant after a path of least cost has been popped and installed. -/
theorem Sound.popped (h : Sound E me m P T) (hdist : IsDist E me d ep.cost)
    (hmin : ∀ (w : ℤ) (ew : LsEqualPaths), T[w]? = some ew → ep.cost ≤ ew.cost) :
    Sound E me ep.cost P' T' := by
  have hg := h.tentativeGood d ep hd
  have hnd := hg.nodup
  rw [hlist, List.nodup_cons] at hnd
  have hne : me ≠ d := by
    rintro rfl
    exact absurd (h.notSelf.symm.trans hd) (by simp)
  have hmc : m ≤ ep.cost := h.ge d ep hd
  obtain ⟨hold, holdnd⟩ := h.hops_before hd hne.symm
  have hb : b ∉ hops P d := fun hb => (hold b hb).2 (by rw [hlist]; exact List.mem_cons_self)
  have hperm : ∀ v ev, P'[v]? = some ev →
      (v = d ∧ ev = ⟨ep.cost, hops P d ++ [b]⟩) ∨ (v ≠ d ∧ P[v]? = some ev) := by
    intro v ev hPv
    rw [hP'] at hPv
    split_ifs at hPv with hvd
    · exact Or.inl ⟨hvd, (Option.some.inj hPv).symm⟩
    · exact Or.inr ⟨hvd, hPv⟩
  have htent : ∀ v ev, T'[v]? = some ev →
      (v = d ∧ nhl ≠ [] ∧ ev = ⟨ep.cost, nhl⟩) ∨ (v ≠ d ∧ T[v]? = some ev) := by
    intro v ev hTv
    rw [hT'] at hTv
    split_ifs at hTv with hvd hn
    · exact Or.inl ⟨hvd, hn, (Option.some.inj hTv).symm⟩
    · exact Or.inr ⟨hvd, hTv⟩
  refine ⟨?_, ?_, ?_, ?_, ?_, ?_, ?_, ?_⟩
  · rw [hP', if_neg hne]
    exact h.self
  · intro v ev hv hPv
    rcases hperm v ev hPv with ⟨rfl, rfl⟩ | ⟨-, hPv⟩
    · refine ⟨by simp, ?_, fun a ha => ?_⟩
      · dsimp only
        rw [← List.concat_eq_append, List.nodup_concat]
        exact ⟨hb, holdnd⟩
      · rcases List.mem_append.mp ha with ha | ha
        · exact (hold a ha).1
        · obtain rfl := List.mem_singleton.mp ha
          exact hg.via a (by rw [hlist]; exact List.mem_cons_self)
    · exact h.good v ev hv hPv
  · intro v ev hPv
    rcases hperm v ev hPv with ⟨rfl, rfl⟩ | ⟨-, hPv⟩
    · exact hdist
    · exact h.dist v ev hPv
  · intro v ev hPv
    rcases hperm v ev hPv with ⟨rfl, rfl⟩ | ⟨-, hPv⟩
    · exact le_rfl
    · exact (h.le v ev hPv).trans hmc
  · rw [hT', if_neg hne]
    exact h.notSelf
  · intro v ev hTv
    rcases htent v ev hTv with ⟨rfl, hn, rfl⟩ | ⟨-, hTv⟩
    · refine ⟨hn, hnd.2, fun a ha => ?_⟩
      exact hg.via a (by rw [hlist]; exact List.mem_cons_of_mem _ ha)
    · exact h.tentativeGood v ev hTv
  · intro v ev hTv
    rcases htent v ev hTv with ⟨rfl, -, rfl⟩ | ⟨-, hTv⟩
    · exact le_rfl
    · exact hmin v ev hTv
  · intro v ev ev' hPv hTv
    rcases hperm v ev hPv with ⟨rfl, rfl⟩ | ⟨hvd, hPv⟩
    · rcases htent v ev' hTv with ⟨-, -, rfl⟩ | ⟨hvd, -⟩
      · refine ⟨rfl, fun a ha => ?_⟩
        rcases List.mem_append.mp ha with ha | ha
        · exact fun han => (hold a ha).2 (by rw [hlist]; exact List.mem_cons_of_mem _ han)
        · obtain rfl := List.mem_singleton.mp ha
          exact hnd.1
      · exact absurd rfl hvd
    · exact h.both v ev ev' hPv ((htent v ev' hTv).resolve_left fun hd' => hvd hd'.1).2

end Popped

/-! ## The path popped has the least cost -/

section Least

variable (hpos : ∀ u v d, E u v d → 0 < d)
include hpos

/-- Every path to a node that is not installed goes over a tentative node that is no further. -/
theorem exists_tentative {t : ℤ} (h : Sound E me m P T) (hc : Complete E me (fun _ => False) P T)
    (p : Walk E me t c) (hmax : c ≤ LS_MAX_COST) (ht : P[t]? = none) :
    ∃ (x : ℤ) (ex : LsEqualPaths), T[x]? = some ex ∧ ex.cost ≤ c := by
  by_contra hno
  push Not at hno
  have hexit := le_of_exit (S := fun x => P[x]? ≠ none) (m := c + 1) hpos (by simp [h.self])
    (by simp [ht]) ?_ p
  · omega
  intro u w cu a hu hw pu e
  by_contra hlt
  obtain ⟨eu, heu⟩ := Option.ne_none_iff_exists'.mp hu
  have hwn : P[w]? = none := not_not.mp hw
  have hle : eu.cost ≤ cu := (h.dist u eu heu).least cu pu
  obtain ⟨b, hb⟩ : ∃ b, b ∈ hopsTo me u w eu := by
    by_cases hume : u = me
    · exact ⟨w, by simp [hopsTo, hume]⟩
    · simp only [hopsTo, if_neg hume]
      exact List.exists_mem_of_ne_nil _ (h.good u eu hume heu).ne
  rcases hc u eu heu id w a e b hb with hcov | ⟨ew, hew, -⟩ | ⟨ew, hew, hcov⟩
  · omega
  · exact absurd (hwn.symm.trans hew) (by simp)
  · have := hno w ew hew
    omega

/-- There is always a path to pop, if all nodes are within the largest cost. -/
theorem exists_cost_le (h : Sound E me m P T) (hc : Complete E me (fun _ => False) P T)
    (hmax : ∀ v c, IsDist E me v c → c ≤ LS_MAX_COST) (hT : T[v]? = some ep) :
    ∃ (x : ℤ) (ex : LsEqualPaths), T[x]? = some ex ∧ ex.cost ≤ LS_MAX_COST := by
  have hg := h.tentativeGood v ep hT
  obtain ⟨b, hb⟩ := List.exists_mem_of_ne_nil _ hg.ne
  obtain ⟨c, hdist⟩ := Reachable.exists_isDist hpos ⟨_, (hg.via b hb).walk⟩
  cases hP : P[v]? with
  | some ep' =>
    have hcost := (h.both v ep' ep hP hT).1
    have := hmax v _ (h.dist v ep' hP)
    exact ⟨v, ep, hT, by omega⟩
  | none =>
    have hle := hmax v c hdist
    obtain ⟨x, ex, hx, hxc⟩ := exists_tentative hpos h hc hdist.walk hle hP
    exact ⟨x, ex, hx, hxc.trans hle⟩

/-- One path is popped and installed. -/
theorem pop_spec (h : Sound E me m P T) (hc : Complete E me (fun _ => False) P T)
    (hmax : ∀ v c, IsDist E me v c → c ≤ LS_MAX_COST)
    (hid : ∀ v, Reachable E me v → v ≠ me → v ≠ LS_INVALID_NODE_ID) (hT : T[v]? = some ep) :
    ∃ d c b, T.popShortestPath.2 = ⟨d, c, b⟩ ∧ (⟨d, c, b⟩ : LsPath).isValid = true ∧
      Sound E me c (P.insertPath ⟨d, c, b⟩) T.popShortestPath.1 ∧
      Complete E me (fun v => v = d) (P.insertPath ⟨d, c, b⟩) T.popShortestPath.1 ∧
      (∃ ep : LsEqualPaths, (P.insertPath ⟨d, c, b⟩)[d]? = some ep ∧ ep.cost = c) ∧
      Via E me b d c ∧ b ∉ hops P d ∧
      ∀ v, hops (P.insertPath ⟨d, c, b⟩) v = if v = d then hops P d ++ [b] else hops P v := by
  obtain ⟨x, ex, hx, hxc⟩ := exists_cost_le hpos h hc hmax hT
  obtain ⟨d, ed, b, nhl, hd, hlist, hmaxd, hmin, hpop, hT'⟩ :=
    LsPaths.popShortestPath_spec hx (h.tentativeGood x ex hx).ne hxc
  have hmin' : ∀ (w : ℤ) (ew : LsEqualPaths), T[w]? = some ew → ed.cost ≤ ew.cost :=
    fun w ew hw => hmin w ew hw (h.tentativeGood w ew hw).ne
  have hne : d ≠ me := by
    rintro rfl
    exact absurd (h.notSelf.symm.trans hd) (by simp)
  have hvia : Via E me b d ed.cost := (h.tentativeGood d ed hd).via b (by simp [hlist])
  have hdist : IsDist E me d ed.cost := by
    cases hP : P[d]? with
    | some ep' =>
      rw [← (h.both d ep' ed hP hd).1]
      exact h.dist d ep' hP
    | none =>
      refine ⟨hvia.walk, fun c' p => ?_⟩
      by_contra hlt
      obtain ⟨y, ey, hy, hyc⟩ := exists_tentative hpos h hc p (by omega) hP
      have := hmin' y ey hy
      omega
  have hcost : ∀ ep', P[d]? = some ep' → ep'.cost = ed.cost :=
    fun ep' hP => (h.both d ep' ed hP hd).1
  have hb : b ∉ hops P d := by
    cases hP : P[d]? with
    | none => simp [hops, hP]
    | some ep' =>
      rw [hops_eq hP]
      exact fun hb => (h.both d ep' ed hP hd).2 b hb (by simp [hlist])
  have hP' := getElem?_insertPath_popped hcost hb
  have hPd : (P.insertPath ⟨d, ed.cost, b⟩)[d]? = some ⟨ed.cost, hops P d ++ [b]⟩ := by
    rw [hP', if_pos rfl]
  refine ⟨d, ed.cost, b, hpop, ?_, h.popped hd hlist hP' hT' hdist hmin', ?_,
    ⟨_, hPd, rfl⟩, hvia, hb, ?_⟩
  · have hbme : b ≠ me := FirstHop.ne hpos ⟨_, hdist, hvia⟩
    obtain ⟨a, e⟩ := hvia.edge
    have hbr : Reachable E me b := ⟨_, (Via.first e).walk⟩
    have h1 := hid d ⟨_, hvia.walk⟩ hne
    have h2 := hid b hbr hbme
    have h3 : ed.cost ≠ LS_INVALID_COST := by
      unfold LS_INVALID_COST
      unfold LS_MAX_COST at hmaxd
      omega
    simp only [LsPath.isValid, decide_eq_true_eq]
    exact ⟨h1, h3, h2⟩
  · intro u eu hu hud w a e g hg
    rw [hP', if_neg hud] at hu
    exact (hc u eu hu id w a e g hg).popped hd hlist hP' hT' hcost
  · intro w
    by_cases hw : w = d
    · rw [if_pos hw, hw, hops_eq hPd]
    · rw [if_neg hw]
      simp only [hops, hP', if_neg hw]

end Least

/-! ## The loops end -/

/-- The next hops that may still be found. -/
def left (D : Finset ℤ) (P : LsPaths) : ℕ :=
  ((D ×ˢ D).filter fun x => x.2 ∉ hops P x.1).card

theorem left_lt {D : Finset ℤ} {P' : LsPaths} {b : ℤ} (hdD : d ∈ D) (hbD : b ∈ D)
    (hb : b ∉ hops P d) (hP' : ∀ v, hops P' v = if v = d then hops P d ++ [b] else hops P v) :
    left D P' < left D P := by
  refine Finset.card_lt_card ⟨fun x hx => ?_, fun hsub => ?_⟩
  · rw [Finset.mem_filter] at hx ⊢
    refine ⟨hx.1, fun hxP => hx.2 ?_⟩
    rw [hP']
    by_cases hxd : x.1 = d
    · rw [if_pos hxd, ← hxd]
      exact List.mem_append_left _ hxP
    · rwa [if_neg hxd]
  · have hmem : (d, b) ∈ (D ×ˢ D).filter fun x => x.2 ∉ hops P x.1 :=
      Finset.mem_filter.mpr ⟨Finset.mem_product.mpr ⟨hdD, hbD⟩, hb⟩
    have := (Finset.mem_filter.mp (hsub hmem)).2
    rw [hP', if_pos rfl] at this
    exact this (by simp)

/-- Both ends of a path but its source are neighbors of some node. -/
theorem via_mem {D : Finset ℤ} {b : ℤ} (hD : ∀ u v c, E u v c → v ∈ D) (p : Via E me b v c) :
    b ∈ D ∧ v ∈ D := by
  induction p with
  | first e => exact ⟨hD _ _ _ e, hD _ _ _ e⟩
  | snoc _ e ih => exact ⟨ih.1, hD _ _ _ e⟩

end Pop

section Loops

variable {db : LsMap ℤ (List LsLinkState)} {me : ℤ} {D : Finset ℤ} {m u : ℤ} {P T : LsPaths}
  (hpos : ∀ u v d, linkEdge db u v d → 0 < d)
  (hmax : ∀ v c, IsDist (linkEdge db) me v c → c ≤ LS_MAX_COST)
  (hid : ∀ v, Reachable (linkEdge db) me v → v ≠ me → v ≠ LS_INVALID_NODE_ID)
  (hint : ∀ u v c d, IsDist (linkEdge db) me u c → linkEdge db u v d → c + d < 2 ^ 31)
  (hD : ∀ u v c, linkEdge db u v c → v ∈ D)

/-- What holds when a node has been popped whose links are known. -/
structure Pending (db : LsMap ℤ (List LsLinkState)) (me m u : ℤ) (l : List LsLinkState)
    (P T : LsPaths) : Prop where
  sound : Sound (linkEdge db) me m P T
  complete : Complete (linkEdge db) me (fun v => v = u) P T
  record : db[u]? = some l
  installed : ∃ ep : LsEqualPaths, P[u]? = some ep ∧ ep.cost = m

/-- What holds in the end. -/
def Done (db : LsMap ℤ (List LsLinkState)) (me : ℤ) (P : LsPaths) : Prop :=
  ∃ m T, Sound (linkEdge db) me m P T ∧ Complete (linkEdge db) me (fun _ => False) P T ∧
    ∀ v : ℤ, T[v]? = none

include hpos hmax hid hD in
theorem popLoop_spec {n : ℕ} (h : Sound (linkEdge db) me m P T)
    (hc : Complete (linkEdge db) me (fun _ => False) P T) (hn : left D P < n) :
    ∃ P' T', (popLoop db n P T = some (P', T', none) ∧ Done db me P') ∨
      ∃ u l m', popLoop db n P T = some (P', T', some (u, l)) ∧ Pending db me m' u l P' T' ∧
        left D P' < left D P := by
  induction n generalizing m P T with
  | zero => omega
  | succ n ih =>
    rw [popLoop]
    cases hT : T.isEmpty with
    | true =>
      refine ⟨P, T, Or.inl ⟨rfl, m, T, h, hc, fun v => ?_⟩⟩
      exact Std.TreeMap.getElem?_of_isEmpty hT
    | false =>
      obtain ⟨v, hv⟩ := Std.TreeMap.isEmpty_eq_false_iff_exists_mem.mp hT
      obtain ⟨ep, hep⟩ := Option.ne_none_iff_exists'.mp
        (Std.TreeMap.mem_iff_isSome_getElem?.mp hv |> Option.isSome_iff_ne_none.mp)
      obtain ⟨d, c, b, hpop, hvalid, hs, hc', hin, hvia, hb, hhops⟩ :=
        pop_spec hpos h hc hmax hid hep
      obtain ⟨hbD, hdD⟩ := via_mem hD hvia
      have hlt := left_lt hdD hbD hb hhops
      simp only [Bool.false_eq_true, if_false, hpop, hvalid, not_true_eq_false]
      cases hdb : db[d]? with
      | some l => exact ⟨_, _, Or.inr ⟨d, l, c, rfl, ⟨hs, hc', hdb, hin⟩, hlt⟩⟩
      | none =>
        -- nothing is known of the links of `d`, so there is nothing to follow
        have hcall : Complete (linkEdge db) me (fun _ => False) (P.insertPath ⟨d, c, b⟩)
            T.popShortestPath.1 := by
          intro u eu hu _ w a e
          refine hc' u eu hu ?_ w a e
          rintro rfl
          obtain ⟨l, hl, -⟩ := e
          exact absurd (hdb.symm.trans hl) (by simp)
        obtain ⟨P', T', hor⟩ := ih hs hcall (by omega)
        refine ⟨P', T', hor.imp_right ?_⟩
        rintro ⟨u, l, m', hloop, hpend, hlt'⟩
        exact ⟨u, l, m', hloop, hpend, by omega⟩

include hpos hint in
/-- The links of the new node are followed. -/
theorem expand_spec {l : List LsLinkState} (h : Pending db me m u l P T) :
    ∃ T', expand me u l P T = some T' ∧ Sound (linkEdge db) me m P T' ∧
      Complete (linkEdge db) me (fun _ => False) P T' := by
  obtain ⟨ep, hep, hm⟩ := h.installed
  have hE : ∀ link ∈ l, link.status_ = .up →
      linkEdge db u link.neighborId_ link.cost_ ∧ m + link.cost_ < 2 ^ 31 := by
    intro link hlink hup
    have e : linkEdge db u link.neighborId_ link.cost_ := ⟨l, h.record, link, hlink, hup, rfl, rfl⟩
    exact ⟨e, hint _ _ _ _ (hm ▸ h.sound.dist u ep hep) e⟩
  obtain ⟨nhl, hexp, hnhl⟩ : ∃ nhl, expand me u l P T = some (l.foldl (relax me u P nhl) T) ∧
      (u ≠ me → nhl = ep.nextHopList) := by
    by_cases hume : u = me
    · exact ⟨[], by simp [expand, hume], fun h => absurd hume h⟩
    · exact ⟨ep.nextHopList, by simp [expand, hume, hep], fun _ => rfl⟩
  obtain ⟨hs, hmono, hnew⟩ := foldl_relax hpos h.sound hep hm hnhl hE
  refine ⟨_, hexp, hs, fun w ew hw _ v c e b hb => ?_⟩
  by_cases hwu : w = u
  · subst hwu
    obtain rfl := Option.some.inj (hep.symm.trans hw)
    obtain ⟨l', hl', link, hlink, hup, rfl, rfl⟩ := e
    obtain rfl := Option.some.inj (h.record.symm.trans hl')
    exact hm ▸ hnew link hlink hup b hb
  · exact hmono _ _ _ (h.complete w ew hw hwu v c e b hb)

include hpos hmax hid hint hD in
/-- The main loop ends. -/
theorem mainLoop_spec {n : ℕ} {l : List LsLinkState} (h : Pending db me m u l P T)
    (hn : left D P + 1 < n) : ∃ P', mainLoop db me n P T u l = some P' ∧ Done db me P' := by
  induction n generalizing m u l P T with
  | zero => omega
  | succ n ih =>
    obtain ⟨T₁, hexp, hs, hc⟩ := expand_spec hpos hint h
    obtain ⟨P', T', ⟨hloop, hdone⟩ | ⟨u', l', m', hloop, hpend, hlt⟩⟩ :=
      popLoop_spec (D := D) (n := n) hpos hmax hid hD hs hc (by omega)
    · refine ⟨P', ?_, hdone⟩
      simp only [mainLoop, hexp, hloop, Option.bind_eq_bind, Option.bind_some]
    · obtain ⟨P'', hmain, hdone⟩ := ih hpend (by omega)
      refine ⟨P'', ?_, hdone⟩
      simp only [mainLoop, hexp, hloop, Option.bind_eq_bind, Option.bind_some, hmain]

end Loops

/-! ## The table -/

/-- The table has exactly the nodes that can be reached, with their least costs and, for each
other node, exactly the first hops of the paths of least cost. -/
structure CorrectTable (db : LsMap ℤ (List LsLinkState)) (me : ℤ) (t : LsPaths) : Prop where
  nodes : ∀ v : ℤ, (∃ ep, t[v]? = some ep) ↔ Reachable (linkEdge db) me v
  cost : ∀ (v : ℤ) (ep : LsEqualPaths), t[v]? = some ep → IsDist (linkEdge db) me v ep.cost
  nodup : ∀ (v : ℤ) (ep : LsEqualPaths), t[v]? = some ep → ep.nextHopList.Nodup
  nextHops : ∀ (v : ℤ) (ep : LsEqualPaths), v ≠ me → t[v]? = some ep →
    ∀ h, h ∈ ep.nextHopList ↔ FirstHop (linkEdge db) me v h

/-- Link costs are positive, and every node is within the largest cost. -/
structure Routable (db : LsMap ℤ (List LsLinkState)) (me : ℤ) : Prop where
  cost_pos : ∀ u v c, linkEdge db u v c → 1 ≤ c
  dist_le : ∀ v c, IsDist (linkEdge db) me v c → c ≤ LS_MAX_COST

/-- With enough rounds the code returns a correct table. -/
def RoutesRight (db : LsMap ℤ (List LsLinkState)) (me : ℤ) : Prop :=
  ∃ N, ∀ n ≥ N, ∃ t, _computeRoutes db me n = some t ∧ CorrectTable db me t

section Table

variable {db : LsMap ℤ (List LsLinkState)} {me : ℤ} {P : LsPaths}

theorem Done.correctTable (hpos : ∀ u v d, linkEdge db u v d → 0 < d)
    (hmax : ∀ v c, IsDist (linkEdge db) me v c → c ≤ LS_MAX_COST) (h : Done db me P) :
    CorrectTable db me P := by
  obtain ⟨m, T, hs, hc, hT⟩ := h
  refine ⟨fun v => ⟨?_, fun hr => ?_⟩, hs.dist, fun v ep hv => ?_, fun v ep hvme hv b => ⟨?_, ?_⟩⟩
  · rintro ⟨ep, hv⟩
    exact ⟨_, (hs.dist v ep hv).walk⟩
  · obtain ⟨c, hdist⟩ := hr.exists_isDist hpos
    by_contra hno
    have hv : P[v]? = none := by
      by_contra hv
      exact hno (Option.ne_none_iff_exists'.mp hv)
    obtain ⟨x, ex, hx, -⟩ := exists_tentative hpos hs hc hdist.walk (hmax v c hdist) hv
    exact absurd ((hT x).symm.trans hx) (by simp)
  · by_cases hvme : v = me
    · subst hvme
      obtain rfl := Option.some.inj (hv.symm.trans hs.self)
      exact List.nodup_singleton v
    · exact (hs.good v ep hvme hv).nodup
  · intro hb
    exact ⟨ep.cost, hs.dist v ep hv, (hs.good v ep hvme hv).via b hb⟩
  · rintro ⟨c, hdist, p⟩
    -- by induction on the path: its last link has been followed
    have hcov : ∀ {w a}, Via (linkEdge db) me b w a → IsDist (linkEdge db) me w a →
        Covered P T w a b := by
      intro w a p
      induction p with
      | @first a e =>
        intro _
        have := hc me _ hs.self id b a e b (by simp [hopsTo])
        rwa [zero_add] at this
      | @snoc u w a d p e ih =>
        intro hw
        have hu : IsDist (linkEdge db) me u a := hw.of_snoc p.walk e
        have hume : u ≠ me := by
          rintro rfl
          have h0 := hu.unique (isDist_self hpos u)
          have := p.pos hpos
          omega
        rcases ih hu with hlong | ⟨eu, heu, hlt | ⟨heq, hmem⟩⟩ | ⟨eu, heu, -⟩
        · exact absurd (hmax u a hu) (not_le.mpr hlong)
        · exact absurd (hu.least _ (hs.dist u eu heu).walk) (not_le.mpr hlt)
        · subst heq
          exact hc u eu heu id w d e b (by simpa [hopsTo, hume] using hmem)
        · exact absurd ((hT u).symm.trans heu) (by simp)
    rcases hcov p hdist with hlong | ⟨ev, hev, hlt | ⟨-, hmem⟩⟩ | ⟨ev, hev, -⟩
    · exact absurd (hmax v c hdist) (not_le.mpr hlong)
    · exact absurd (hdist.least _ (hs.dist v ev hev).walk) (not_le.mpr hlt)
    · exact Option.some.inj (hv.symm.trans hev) ▸ hmem
    · exact absurd ((hT v).symm.trans hev) (by simp)

/-- The neighbors that occur in the database. -/
def neighbors (db : LsMap ℤ (List LsLinkState)) : Finset ℤ :=
  ((db.toList.flatMap Prod.snd).map LsLinkState.neighborId_).toFinset

theorem mem_neighbors {u v c : ℤ} (e : linkEdge db u v c) : v ∈ neighbors db := by
  obtain ⟨l, hl, link, hlink, -, rfl, -⟩ := e
  rw [neighbors, List.mem_toFinset, List.mem_map]
  exact ⟨link, List.mem_flatMap.mpr ⟨(u, l), Std.TreeMap.mem_toList_iff_getElem?_eq_some.mpr hl,
    hlink⟩, rfl⟩

variable (me) in
theorem sound_init (hpos : ∀ u v d, linkEdge db u v d → 0 < d) :
    Sound (linkEdge db) me 0 ((∅ : LsPaths).insert me ⟨0, [me]⟩) ∅ := by
  have hget : ∀ v : ℤ, ((∅ : LsPaths).insert me ⟨0, [me]⟩)[v]? =
      if v = me then some ⟨0, [me]⟩ else none := fun v => by
    rw [getElem?_lsInsert, Std.TreeMap.getElem?_emptyc]
  have hsome : ∀ (v : ℤ) (ep : LsEqualPaths),
      ((∅ : LsPaths).insert me ⟨0, [me]⟩)[v]? = some ep → v = me ∧ ep = ⟨0, [me]⟩ := by
    intro v ep hv
    rw [hget] at hv
    by_cases hvme : v = me
    · rw [if_pos hvme] at hv
      exact ⟨hvme, (Option.some.inj hv).symm⟩
    · rw [if_neg hvme] at hv
      exact absurd hv (by simp)
  refine ⟨by rw [hget, if_pos rfl], ?_, ?_, ?_, Std.TreeMap.getElem?_emptyc, ?_, ?_, ?_⟩
  · intro v ep hne hv
    exact absurd (hsome v ep hv).1 hne
  · intro v ep hv
    obtain ⟨rfl, rfl⟩ := hsome v ep hv
    exact isDist_self hpos v
  · intro v ep hv
    obtain ⟨rfl, rfl⟩ := hsome v ep hv
    exact le_rfl
  · intro v ep hv
    exact absurd (Std.TreeMap.getElem?_emptyc.symm.trans hv) (by simp)
  · intro v ep hv
    exact absurd (Std.TreeMap.getElem?_emptyc.symm.trans hv) (by simp)
  · intro v ep ep' _ hv
    exact absurd (Std.TreeMap.getElem?_emptyc.symm.trans hv) (by simp)

/-- **The routes are right**: if no other node that can be reached has the invalid node id, and
no sum of a least cost and the cost of a link exceeds an `int`. -/
theorem computeRoutes_correct (h : Routable db me)
    (hid : ∀ v, Reachable (linkEdge db) me v → v ≠ me → v ≠ LS_INVALID_NODE_ID)
    (hint : ∀ u v c d, IsDist (linkEdge db) me u c → linkEdge db u v d → c + d < 2 ^ 31) :
    RoutesRight db me := by
  have hpos : ∀ u v d, linkEdge db u v d → 0 < d := fun u v d e => h.cost_pos u v d e
  have hs := sound_init me hpos
  have hin : ((∅ : LsPaths).insert me ⟨0, [me]⟩)[me]? = some ⟨0, [me]⟩ := hs.self
  have hself : ∀ (u : ℤ) (ep : LsEqualPaths),
      ((∅ : LsPaths).insert me ⟨0, [me]⟩)[u]? = some ep → u = me := by
    intro u ep hu
    by_contra hne
    rw [getElem?_lsInsert, if_neg hne, Std.TreeMap.getElem?_emptyc] at hu
    exact absurd hu (by simp)
  refine ⟨left (neighbors db) ((∅ : LsPaths).insert me ⟨0, [me]⟩) + 2, fun n hn => ?_⟩
  cases hdb : db[me]? with
  | none =>
    refine ⟨_, by simp only [_computeRoutes, hdb]; rfl, Done.correctTable hpos h.dist_le ?_⟩
    refine ⟨0, ∅, hs, fun u ep hu _ v c e => ?_, fun v => Std.TreeMap.getElem?_emptyc⟩
    obtain rfl := hself u ep hu
    obtain ⟨l, hl, -⟩ := e
    exact absurd (hdb.symm.trans hl) (by simp)
  | some l =>
    have hpend : Pending db me 0 me l ((∅ : LsPaths).insert me ⟨0, [me]⟩) ∅ :=
      ⟨hs, fun u ep hu hne => absurd (hself u ep hu) hne, hdb, _, hin, rfl⟩
    obtain ⟨P', hmain, hdone⟩ := mainLoop_spec (n := n) hpos h.dist_le hid hint
      (fun _ _ _ => mem_neighbors) hpend (by omega)
    refine ⟨P', ?_, Done.correctTable hpos h.dist_le hdone⟩
    simp only [_computeRoutes, hdb]
    exact hmain

end Table

/-! ## Three small databases -/

/-- Node 0 with one link. -/
def oneLink (v : ℤ) : LsMap ℤ (List LsLinkState) :=
  (∅ : LsMap ℤ (List LsLinkState)).insert 0 [⟨v, .up, 1, 0⟩]

/-- A triangle with one very long link. -/
def longLink : LsMap ℤ (List LsLinkState) :=
  ((∅ : LsMap ℤ (List LsLinkState)).insert 0 [⟨1, .up, 1, 0⟩, ⟨2, .up, 5, 0⟩]).insert 1
    [⟨2, .up, 2147483647, 0⟩]

theorem linkEdge_oneLink {u v w c : ℤ} : linkEdge (oneLink w) u v c ↔ u = 0 ∧ v = w ∧ c = 1 := by
  unfold linkEdge oneLink
  simp only [getElem?_lsInsert, Std.TreeMap.getElem?_emptyc]
  by_cases hu : u = 0
  · simp [hu, eq_comm]
  · simp [hu]

theorem linkEdge_longLink {u v c : ℤ} : linkEdge longLink u v c ↔
    (u = 0 ∧ v = 1 ∧ c = 1) ∨ (u = 0 ∧ v = 2 ∧ c = 5) ∨ (u = 1 ∧ v = 2 ∧ c = 2147483647) := by
  unfold linkEdge longLink
  simp only [getElem?_lsInsert, Std.TreeMap.getElem?_emptyc]
  by_cases h1 : u = 1
  · simp [h1, eq_comm]
  · by_cases h0 : u = 0
    · simp [h0, eq_comm]
    · simp [h0, h1]

theorem walk_oneLink {v w c : ℤ} (p : Walk (linkEdge (oneLink w)) 0 v c) :
    v = 0 ∨ v = w := by
  cases p with
  | nil => exact Or.inl rfl
  | snoc _ e => exact Or.inr (linkEdge_oneLink.mp e).2.1

theorem routable_oneLink (w : ℤ) : Routable (oneLink w) 0 where
  cost_pos u v c e := (linkEdge_oneLink.mp e).2.2.ge
  dist_le v c h := by
    have h1 : Walk (linkEdge (oneLink w)) 0 w (0 + 1) :=
      Walk.nil.snoc (linkEdge_oneLink.mpr ⟨rfl, rfl, rfl⟩)
    unfold LS_MAX_COST
    rcases walk_oneLink h.walk with rfl | rfl
    · linarith [h.least 0 Walk.nil]
    · linarith [h.least _ h1]

theorem routable_longLink : Routable longLink 0 where
  cost_pos u v c e := by
    rcases linkEdge_longLink.mp e with ⟨-, -, rfl⟩ | ⟨-, -, rfl⟩ | ⟨-, -, rfl⟩ <;> decide
  dist_le v c h := by
    have h1 : Walk (linkEdge longLink) 0 1 (0 + 1) :=
      Walk.nil.snoc (linkEdge_longLink.mpr (Or.inl ⟨rfl, rfl, rfl⟩))
    have h2 : Walk (linkEdge longLink) 0 2 (0 + 5) :=
      Walk.nil.snoc (linkEdge_longLink.mpr (Or.inr (Or.inl ⟨rfl, rfl, rfl⟩)))
    have hv : v = 0 ∨ v = 1 ∨ v = 2 := by
      cases h.walk with
      | nil => exact Or.inl rfl
      | snoc _ e =>
        rcases linkEdge_longLink.mp e with ⟨-, rfl, -⟩ | ⟨-, rfl, -⟩ | ⟨-, rfl, -⟩ <;> simp
    unfold LS_MAX_COST
    rcases hv with rfl | rfl | rfl
    · linarith [h.least 0 Walk.nil]
    · linarith [h.least _ h1]
    · linarith [h.least _ h2]

theorem computeRoutes_correct_oneLink : RoutesRight (oneLink 7) 0 := by
  refine computeRoutes_correct (routable_oneLink 7) ?_ ?_
  · rintro v ⟨c, p⟩ hv
    rcases walk_oneLink p with rfl | rfl
    · exact absurd rfl hv
    · decide
  · intro u v c d h e
    have := (routable_oneLink 7).dist_le u c h
    obtain ⟨-, -, rfl⟩ := linkEdge_oneLink.mp e
    unfold LS_MAX_COST at this
    omega

/-- **Not without the provisos.**  A neighbor with the invalid node id makes the computation abort;
a sum that is too large for an `int` becomes a negative cost. -/
theorem computeRoutes_not_right :
    (Routable (oneLink 65535) 0 ∧ ¬ RoutesRight (oneLink 65535) 0) ∧
      Routable longLink 0 ∧ ¬ RoutesRight longLink 0 := by
  refine ⟨⟨routable_oneLink _, ?_⟩, routable_longLink, ?_⟩
  · rintro ⟨N, hN⟩
    obtain ⟨t, ht, -⟩ := hN (N + 2) (Nat.le_add_right N 2)
    have habort : _computeRoutes (oneLink 65535) 0 (N + 2) = none := rfl
    exact absurd (habort.symm.trans ht) (by simp)
  · rintro ⟨N, hN⟩
    obtain ⟨t, ht, hcorrect⟩ := hN (N + 10) (Nat.le_add_right N 10)
    have hcost : (_computeRoutes longLink 0 (N + 10)).map (fun t => t[(2 : ℤ)]?.map LsEqualPaths.cost) =
        some (some (-2147483648)) := rfl
    rw [ht, Option.map_some] at hcost
    obtain ⟨ep, hep, hneg⟩ := Option.map_eq_some_iff.mp (Option.some.inj hcost)
    have hpos := (hcorrect.cost 2 ep hep).walk.nonneg
      fun u v c e => lt_of_lt_of_le zero_lt_one (routable_longLink.cost_pos u v c e)
    omega

end Ns2.LinkState
