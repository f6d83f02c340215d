import Ns2.LinkState.ComputeRoutes

/-!
# The route computation with links of cost 0

* `Near` — a node is installed or tentative at some cost or a smaller one.
* `Settled`, `Followed` — the invariants: the nodes installed have their least costs, and what
  their links lead to is near.
* `relax_eq`, `Settled.expand` — the links of a node are followed.
* `Settled.near_of_walk`, `Settled.pop` — Dijkstra's argument.
-/

namespace Ns2.LinkState

open ShortestPath

section Invariants

variable {E : ℤ → ℤ → ℤ → Prop} {me : ℤ} {m a c d u v w : ℤ} {P T : LsPaths} {L nhl : List ℤ}
  {ep : LsEqualPaths} {link : LsLinkState}

/-- A node is installed at the cost `a` at most, or tentative. -/
def Near (P T : LsPaths) (v a : ℤ) : Prop :=
  (∃ ep : LsEqualPaths, P[v]? = some ep ∧ ep.cost ≤ a) ∨
    ∃ ep : LsEqualPaths, T[v]? = some ep ∧ ep.cost ≤ a

/-- The nodes installed have their least costs, at most `m`; the tentative ones are reached at
their costs, at least `m`. -/
structure Settled (E : ℤ → ℤ → ℤ → Prop) (me m : ℤ) (P T : LsPaths) : Prop where
  self : ∃ ep : LsEqualPaths, P[me]? = some ep ∧ ep.cost = 0
  dist : ∀ (v : ℤ) (ep : LsEqualPaths), P[v]? = some ep → IsDist E me v ep.cost
  le : ∀ (v : ℤ) (ep : LsEqualPaths), P[v]? = some ep → ep.cost ≤ m
  hops : ∀ (v : ℤ) (ep : LsEqualPaths), P[v]? = some ep → ep.nextHopList ≠ []
  bound : m ≤ LS_MAX_COST
  walk : ∀ (v : ℤ) (ep : LsEqualPaths), T[v]? = some ep → Walk E me v ep.cost
  ge : ∀ (v : ℤ) (ep : LsEqualPaths), T[v]? = some ep → m ≤ ep.cost
  top : ∀ (v : ℤ) (ep : LsEqualPaths), T[v]? = some ep → ep.cost ≤ LS_MAX_COST + 1
  tentativeHops : ∀ (v : ℤ) (ep : LsEqualPaths), T[v]? = some ep → ep.nextHopList ≠ []
  both : ∀ (v : ℤ) (ep ep' : LsEqualPaths), P[v]? = some ep → T[v]? = some ep' →
    ep.cost = ep'.cost

/-- The links of the nodes installed, except those of `ex`, have been followed. -/
def Followed (E : ℤ → ℤ → ℤ → Prop) (ex : ℤ → Prop) (P T : LsPaths) : Prop :=
  ∀ (u : ℤ) (ep : LsEqualPaths), P[u]? = some ep → ¬ ex u → ∀ v d, E u v d →
    ep.cost + d ≤ LS_MAX_COST + 1 → Near P T v (ep.cost + d)

/-! ## New tentative next hops -/

open LsPaths (merge)

/-- The cost is the smaller one of the two. -/
theorem cost_merge (old : Option LsEqualPaths) (c : ℤ) (L : List ℤ) :
    (merge old c L).cost ≤ c ∧ (∀ ep, old = some ep → (merge old c L).cost ≤ ep.cost) ∧
      ((merge old c L).cost = c ∨ ∃ ep, old = some ep ∧ (merge old c L).cost = ep.cost) := by
  unfold LsPaths.merge
  cases old with
  | none => exact ⟨le_rfl, by simp, Or.inl rfl⟩
  | some ep =>
    dsimp only
    split_ifs with h1 h2
    · exact ⟨h1.le, by simp, Or.inr ⟨ep, rfl, rfl⟩⟩
    · exact ⟨le_rfl, by simpa using h2.le, Or.inl rfl⟩
    · exact ⟨by dsimp only; omega, by simp, Or.inr ⟨ep, rfl, rfl⟩⟩

theorem nextHopList_merge_ne_nil {old : Option LsEqualPaths}
    (hold : ∀ ep, old = some ep → ep.nextHopList ≠ []) (hL : L ≠ []) :
    (merge old c L).nextHopList ≠ [] := by
  unfold LsPaths.merge
  cases old with
  | none => exact hL
  | some ep =>
    have hep := hold ep rfl
    dsimp only
    split_ifs
    · exact hep
    · exact hL
    · obtain ⟨b, hb⟩ := List.exists_mem_of_ne_nil _ hep
      exact List.ne_nil_of_mem (mem_appendUnique.mpr (Or.inl hb))

theorem Near.insertNextHopList (h : Near P T v a) : Near P (T.insertNextHopList d c L) v a := by
  rcases h with h | ⟨ep, hep, hle⟩
  · exact Or.inl h
  · refine Or.inr ?_
    rw [LsPaths.getElem?_insertNextHopList]
    by_cases hvd : v = d
    · subst hvd
      rw [if_pos rfl]
      exact ⟨_, rfl, ((cost_merge _ c L).2.1 ep hep).trans hle⟩
    · rw [if_neg hvd]
      exact ⟨ep, hep, hle⟩

theorem near_insertNextHopList : Near P (T.insertNextHopList d c L) d c := by
  refine Or.inr ⟨_, ?_, (cost_merge T[d]? c L).1⟩
  rw [LsPaths.getElem?_insertNextHopList, if_pos rfl]

/-- New tentative next hops at a cost that no path installed is better than. -/
theorem Settled.insertNextHopList (h : Settled E me m P T) (hw : Walk E me d c) (hm : m ≤ c)
    (hc : c ≤ LS_MAX_COST + 1) (hL : L ≠ [])
    (hP : ∀ ep : LsEqualPaths, P[d]? = some ep → c ≤ ep.cost) :
    Settled E me m P (T.insertNextHopList d c L) := by
  have hT : ∀ (v : ℤ) (ep : LsEqualPaths), (T.insertNextHopList d c L)[v]? = some ep →
      (v = d ∧ ep = merge T[d]? c L) ∨ (v ≠ d ∧ T[v]? = some ep) := by
    intro v ep hv
    rw [LsPaths.getElem?_insertNextHopList] at hv
    by_cases hvd : v = d
    · rw [if_pos hvd] at hv
      exact Or.inl ⟨hvd, (Option.some.inj hv).symm⟩
    · rw [if_neg hvd] at hv
      exact Or.inr ⟨hvd, hv⟩
  obtain ⟨hle, -, heq⟩ := cost_merge T[d]? c L
  refine ⟨h.self, h.dist, h.le, h.hops, h.bound, ?_, ?_, ?_, ?_, ?_⟩
  · intro v ep hv
    rcases hT v ep hv with ⟨rfl, rfl⟩ | ⟨-, hv⟩
    · rcases heq with heq | ⟨ep, hep, heq⟩
      · rwa [heq]
      · rw [heq]
        exact h.walk v ep hep
    · exact h.walk v ep hv
  · intro v ep hv
    rcases hT v ep hv with ⟨rfl, rfl⟩ | ⟨-, hv⟩
    · rcases heq with heq | ⟨ep, hep, heq⟩
      · rwa [heq]
      · rw [heq]
        exact h.ge v ep hep
    · exact h.ge v ep hv
  · intro v ep hv
    rcases hT v ep hv with ⟨rfl, rfl⟩ | ⟨-, hv⟩
    · exact hle.trans hc
    · exact h.top v ep hv
  · intro v ep hv
    rcases hT v ep hv with ⟨rfl, rfl⟩ | ⟨-, hv⟩
    · exact nextHopList_merge_ne_nil (fun ep hep => h.tentativeHops v ep hep) hL
    · exact h.tentativeHops v ep hv
  · intro v ep ep' hv hv'
    rcases hT v ep' hv' with ⟨rfl, rfl⟩ | ⟨-, hv'⟩
    · have hdist := (h.dist v ep hv).least c hw
      have hcost := hP ep hv
      rcases heq with heq | ⟨et, het, heq⟩
      · omega
      · rw [heq]
        exact h.both v ep et hv het
    · exact h.both v ep ep' hv hv'

/-! ## Following the links of a node -/

/-- The next hops that a link to `v` passes on. -/
def passed (me u v : ℤ) (nhl : List ℤ) : List ℤ := if u = me then [v] else nhl

/-- One link is followed, or it is down or its node has a better path. -/
theorem relax_eq (hu : P[u]? = some ep) (h0 : 0 ≤ ep.cost) (hbound : ep.cost ≤ LS_MAX_COST)
    (hcost : link.status_ = .up → 0 ≤ link.cost_ ∧ link.cost_ ≤ LS_MAX_COST) :
    relax me u P nhl T link =
      if link.status_ = .up ∧ ep.cost + link.cost_ ≤ P.lookupCost link.neighborId_ then
        T.insertNextHopList link.neighborId_ (ep.cost + link.cost_)
          (passed me u link.neighborId_ nhl)
      else T := by
  unfold relax
  by_cases hup : link.status_ = .up
  · obtain ⟨hc0, hc1⟩ := hcost hup
    have hadd : intAdd link.cost_ (P.lookupCost u) = ep.cost + link.cost_ := by
      unfold LS_MAX_COST at hbound hc1
      rw [lookupCost_eq hu, intAdd_eq (by omega) (by omega), add_comm]
    simp only [hup, ne_eq, not_true_eq_false, if_false, hadd, true_and, passed]
    by_cases hlt : P.lookupCost link.neighborId_ < ep.cost + link.cost_
    · rw [if_pos hlt, if_neg (not_le.mpr hlt)]
    · rw [if_neg hlt, if_pos (not_lt.mp hlt)]
  · simp [hup]

theorem lookupCost_le (h : P[v]? = some ep) (hle : c ≤ P.lookupCost v) : c ≤ ep.cost := by
  rwa [lookupCost_eq h] at hle

/-- The cost looked up is at most one above the largest one. -/
theorem Settled.lookupCost_le_top (h : Settled E me m P T) (v : ℤ) :
    P.lookupCost v ≤ LS_MAX_COST + 1 := by
  unfold LsPaths.lookupCost
  cases hv : P[v]? with
  | none => exact le_rfl
  | some ep =>
    have := h.le v ep hv
    have := h.bound
    simp only
    omega

/-- What following links does: the invariant stays, nothing gets further away, no tentative node is
lost. -/
structure Extends (E : ℤ → ℤ → ℤ → Prop) (me m : ℤ) (P T T' : LsPaths) : Prop where
  settled : Settled E me m P T'
  near : ∀ v a, Near P T v a → Near P T' v a
  kept : ∀ v : ℤ, T[v]? ≠ none → T'[v]? ≠ none

theorem Extends.refl (h : Settled E me m P T) : Extends E me m P T T :=
  ⟨h, fun _ _ => id, fun _ => id⟩

theorem Extends.trans {T' T'' : LsPaths} (h : Extends E me m P T T')
    (h' : Extends E me m P T' T'') : Extends E me m P T T'' :=
  ⟨h'.settled, fun v a hn => h'.near v a (h.near v a hn), fun v hv => h'.kept v (h.kept v hv)⟩

/-- Where a link that is up leads to: its node is near, and tentative if it has no better path. -/
structure Leads (P T : LsPaths) (v a : ℤ) : Prop where
  near : a ≤ LS_MAX_COST + 1 → Near P T v a
  tentative : a ≤ P.lookupCost v → T[v]? ≠ none

theorem Leads.extends {T' : LsPaths} (h : Leads P T v a) (he : Extends E me m P T T') :
    Leads P T' v a :=
  ⟨fun ha => he.near v a (h.near ha), fun ha => he.kept v (h.tentative ha)⟩

/-- A link of a node of cost `m` that is installed. -/
structure LinkOf (E : ℤ → ℤ → ℤ → Prop) (u : ℤ) (link : LsLinkState) : Prop where
  edge : E u link.neighborId_ link.cost_
  nonneg : 0 ≤ link.cost_
  le : link.cost_ ≤ LS_MAX_COST

theorem passed_ne_nil (hnhl : u ≠ me → nhl ≠ []) : passed me u v nhl ≠ [] := by
  unfold passed
  by_cases hu : u = me
  · rw [if_pos hu]
    exact List.cons_ne_nil _ _
  · rw [if_neg hu]
    exact hnhl hu

theorem Settled.relax (h : Settled E me m P T) (hu : P[u]? = some ep) (hm : ep.cost = m)
    (h0 : 0 ≤ m) (hnhl : u ≠ me → nhl ≠ []) (hE : link.status_ = .up → LinkOf E u link) :
    Extends E me m P T (relax me u P nhl T link) ∧
      (link.status_ = .up →
        Leads P (LinkState.relax me u P nhl T link) link.neighborId_ (m + link.cost_)) := by
  subst hm
  rw [relax_eq hu h0 h.bound fun hup => ⟨(hE hup).nonneg, (hE hup).le⟩]
  by_cases hins : link.status_ = .up ∧ ep.cost + link.cost_ ≤ P.lookupCost link.neighborId_
  · rw [if_pos hins]
    have hlink := hE hins.1
    have hnonneg := hlink.nonneg
    have hsettled := h.insertNextHopList ((h.dist u ep hu).walk.snoc hlink.edge) (by omega)
      (hins.2.trans (h.lookupCost_le_top _)) (passed_ne_nil (v := link.neighborId_) hnhl)
      fun ep' hep' => lookupCost_le hep' hins.2
    refine ⟨⟨hsettled, fun _ _ => Near.insertNextHopList, fun v hv => ?_⟩, fun _ =>
      ⟨fun _ => near_insertNextHopList, fun _ => ?_⟩⟩
    · rw [LsPaths.getElem?_insertNextHopList]
      split_ifs
      · exact Option.some_ne_none _
      · exact hv
    · rw [LsPaths.getElem?_insertNextHopList, if_pos rfl]
      exact Option.some_ne_none _
  · rw [if_neg hins]
    refine ⟨Extends.refl h, fun hup => ⟨fun ha => ?_, fun ha => absurd ⟨hup, ha⟩ hins⟩⟩
    have hlt : P.lookupCost link.neighborId_ < ep.cost + link.cost_ :=
      not_le.mp fun hle => hins ⟨hup, hle⟩
    cases hv : P[link.neighborId_]? with
    | none =>
      rw [LsPaths.lookupCost, hv] at hlt
      exact absurd hlt (not_lt.mpr ha)
    | some ep' =>
      rw [lookupCost_eq hv] at hlt
      exact Or.inl ⟨ep', hv, hlt.le⟩

/-- All links of a node are followed. -/
theorem Settled.foldl_relax {l : List LsLinkState} (h : Settled E me m P T) (hu : P[u]? = some ep)
    (hm : ep.cost = m) (h0 : 0 ≤ m) (hnhl : u ≠ me → nhl ≠ [])
    (hE : ∀ link ∈ l, link.status_ = .up → LinkOf E u link) :
    Extends E me m P T (l.foldl (LinkState.relax me u P nhl) T) ∧
      ∀ link ∈ l, link.status_ = .up →
        Leads P (l.foldl (LinkState.relax me u P nhl) T) link.neighborId_ (m + link.cost_) := by
  induction l generalizing T with
  | nil => exact ⟨Extends.refl h, by simp⟩
  | cons link l ih =>
    obtain ⟨hext, hlead⟩ := h.relax hu hm h0 hnhl (hE link List.mem_cons_self)
    obtain ⟨hext', hlead'⟩ := ih hext.settled fun x hx => hE x (List.mem_cons_of_mem _ hx)
    refine ⟨hext.trans hext', fun x hx hup => ?_⟩
    rcases List.mem_cons.mp hx with rfl | hx
    · exact (hlead hup).extends hext'
    · exact hlead' x hx hup

/-! ## The path popped has the least cost -/

/-- What a walk leads to is installed, or some tentative node is not further. -/
theorem Settled.near_of_walk (hnn : ∀ u v d, E u v d → 0 ≤ d) (h : Settled E me m P T)
    (hf : Followed E (fun _ => False) P T) (p : Walk E me v a) (ha : a ≤ LS_MAX_COST + 1) :
    (∃ ep : LsEqualPaths, P[v]? = some ep ∧ ep.cost ≤ a) ∨
      ∃ (x : ℤ) (ex : LsEqualPaths), T[x]? = some ex ∧ ex.cost ≤ a := by
  induction p with
  | nil =>
    obtain ⟨ep, hep, h0⟩ := h.self
    exact Or.inl ⟨ep, hep, h0.le⟩
  | @snoc u w b d p e ih =>
    have hd := hnn u w d e
    rcases ih (by omega) with ⟨ep, hep, hle⟩ | ⟨x, ex, hx, hle⟩
    · rcases hf u ep hep id w d e (by omega) with ⟨ew, hew, hlew⟩ | ⟨ew, hew, hlew⟩
      · exact Or.inl ⟨ew, hew, by omega⟩
      · exact Or.inr ⟨w, ew, hew, by omega⟩
    · exact Or.inr ⟨x, ex, hx, by omega⟩

/-- What has been popped: `d`, at the cost `c`, with the next hop `b`. -/
structure Popped (E : ℤ → ℤ → ℤ → Prop) (me m : ℤ) (P T : LsPaths) (d c b : ℤ) (P' T' : LsPaths) :
    Prop where
  settled : Settled E me c P' T'
  followed : Followed E (fun v => v = d) P' T'
  installed : P'[d]? = some (merge P[d]? c [b])
  cost : (merge P[d]? c [b]).cost = c
  le : c ≤ LS_MAX_COST
  others : ∀ v : ℤ, v ≠ d → P'[v]? = P[v]? ∧ T'[v]? = T[v]?
  dist : IsDist E me d c
  /-- The next hop is taken from those of the node. -/
  taken : ∃ (ed : LsEqualPaths) (nhl : List ℤ), T[d]? = some ed ∧ ed.cost = c ∧
    ed.nextHopList = b :: nhl ∧ T'[d]? = if nhl = [] then none else some ⟨c, nhl⟩

/-- A tentative path of least cost is a shortest one. -/
theorem Settled.isDist_of_least {d : ℤ} {ed : LsEqualPaths} (hnn : ∀ u v d, E u v d → 0 ≤ d)
    (h : Settled E me m P T) (hf : Followed E (fun _ => False) P T) (hd : T[d]? = some ed)
    (hmax : ed.cost ≤ LS_MAX_COST)
    (hmin : ∀ (w : ℤ) (ew : LsEqualPaths), T[w]? = some ew → ed.cost ≤ ew.cost) :
    IsDist E me d ed.cost := by
  refine ⟨h.walk d ed hd, fun a p => ?_⟩
  by_contra hlt
  push Not at hlt
  rcases h.near_of_walk hnn hf p (by omega) with ⟨ep', hP, hle⟩ | ⟨y, ey, hy, hle⟩
  · have := h.both d ep' ed hP hd
    omega
  · have := hmin y ey hy
    omega

/-- A tentative path of least cost is installed as `e`. -/
theorem Settled.of_least {d : ℤ} {ed e : LsEqualPaths} {nhl : List ℤ} {P' T' : LsPaths}
    (h : Settled E me m P T) (hd : T[d]? = some ed) (hmax : ed.cost ≤ LS_MAX_COST)
    (hmin : ∀ (w : ℤ) (ew : LsEqualPaths), T[w]? = some ew → ed.cost ≤ ew.cost)
    (hdist : IsDist E me d ed.cost) (hcost : e.cost = ed.cost) (hhops : e.nextHopList ≠ [])
    (hPd : P'[d]? = some e) (hP' : ∀ v : ℤ, v ≠ d → P'[v]? = P[v]?)
    (hout : ∀ (v : ℤ) (ep : LsEqualPaths), T'[v]? = some ep →
      (v = d ∧ nhl ≠ [] ∧ ep = ⟨ed.cost, nhl⟩) ∨ (v ≠ d ∧ T[v]? = some ep)) :
    Settled E me ed.cost P' T' := by
  have hin : ∀ (v : ℤ) (ep : LsEqualPaths), P'[v]? = some ep →
      (v = d ∧ ep = e) ∨ (v ≠ d ∧ P[v]? = some ep) := by
    intro v ep hv
    by_cases hvd : v = d
    · subst hvd
      exact Or.inl ⟨rfl, (Option.some.inj (hPd.symm.trans hv)).symm⟩
    · exact Or.inr ⟨hvd, (hP' v hvd).symm.trans hv⟩
  refine ⟨?_, ?_, ?_, ?_, hmax, ?_, ?_, ?_, ?_, ?_⟩
  · obtain ⟨es, hes, h0⟩ := h.self
    by_cases hmed : me = d
    · subst hmed
      exact ⟨e, hPd, hcost.trans ((h.both me es ed hes hd).symm.trans h0)⟩
    · exact ⟨es, (hP' me hmed).trans hes, h0⟩
  · intro v ep hv
    rcases hin v ep hv with ⟨rfl, rfl⟩ | ⟨-, hv⟩
    · rwa [hcost]
    · exact h.dist v ep hv
  · intro v ep hv
    rcases hin v ep hv with ⟨rfl, rfl⟩ | ⟨-, hv⟩
    · exact hcost.le
    · exact (h.le v ep hv).trans (h.ge d ed hd)
  · intro v ep hv
    rcases hin v ep hv with ⟨rfl, rfl⟩ | ⟨-, hv⟩
    · exact hhops
    · exact h.hops v ep hv
  · intro v ep hv
    rcases hout v ep hv with ⟨rfl, -, rfl⟩ | ⟨-, hv⟩
    · exact h.walk v ed hd
    · exact h.walk v ep hv
  · intro v ep hv
    rcases hout v ep hv with ⟨rfl, -, rfl⟩ | ⟨-, hv⟩
    · exact le_rfl
    · exact hmin v ep hv
  · intro v ep hv
    rcases hout v ep hv with ⟨rfl, -, rfl⟩ | ⟨-, hv⟩
    · exact h.top v ed hd
    · exact h.top v ep hv
  · intro v ep hv
    rcases hout v ep hv with ⟨rfl, hn, rfl⟩ | ⟨-, hv⟩
    · exact hn
    · exact h.tentativeHops v ep hv
  · intro v ep ep' hv hv'
    rcases hin v ep hv with ⟨rfl, rfl⟩ | ⟨hvd, hv⟩
    · rcases hout v ep' hv' with ⟨-, -, rfl⟩ | ⟨hne, -⟩
      · exact hcost
      · exact absurd rfl hne
    · rcases hout v ep' hv' with ⟨hvd', -⟩ | ⟨-, hv'⟩
      · exact absurd hvd' hvd
      · exact h.both v ep ep' hv hv'

/-- One path is popped and installed, if there is a tentative one within the largest cost. -/
theorem Settled.pop (hnn : ∀ u v d, E u v d → 0 ≤ d) (h : Settled E me m P T)
    (hf : Followed E (fun _ => False) P T) (hx : T[v]? = some ep) (hcost : ep.cost ≤ LS_MAX_COST) :
    ∃ d c b, T.popShortestPath.2 = ⟨d, c, b⟩ ∧
      Popped E me m P T d c b (P.insertPath ⟨d, c, b⟩) T.popShortestPath.1 := by
  obtain ⟨d, ed, b, nhl, hd, hlist, hmaxd, hmin, hpop, hT'⟩ :=
    LsPaths.popShortestPath_spec hx (h.tentativeHops v ep hx) hcost
  have hmin' : ∀ (w : ℤ) (ew : LsEqualPaths), T[w]? = some ew → ed.cost ≤ ew.cost :=
    fun w ew hw => hmin w ew hw (h.tentativeHops w ew hw)
  have hPd : ∀ ep', P[d]? = some ep' → ep'.cost = ed.cost := fun ep' hP => h.both d ep' ed hP hd
  have hdist := h.isDist_of_least hnn hf hd hmaxd hmin'
  have hP' : ∀ v : ℤ, (P.insertPath ⟨d, ed.cost, b⟩)[v]? =
      if v = d then some (merge P[d]? ed.cost [b]) else P[v]? := fun v =>
    LsPaths.getElem?_insertPath ⟨d, ed.cost, b⟩
  have hmc : (merge P[d]? ed.cost [b]).cost = ed.cost := by
    rcases (cost_merge P[d]? ed.cost [b]).2.2 with heq | ⟨ep', hep', heq⟩
    · exact heq
    · exact heq.trans (hPd ep' hep')
  have hmh : (merge P[d]? ed.cost [b]).nextHopList ≠ [] :=
    nextHopList_merge_ne_nil (fun ep' hep' => h.hops d ep' hep') (List.cons_ne_nil _ _)
  have hout : ∀ (v : ℤ) (ep : LsEqualPaths), T.popShortestPath.1[v]? = some ep →
      (v = d ∧ nhl ≠ [] ∧ ep = ⟨ed.cost, nhl⟩) ∨ (v ≠ d ∧ T[v]? = some ep) := by
    intro v ep hv
    rw [hT'] at hv
    split_ifs at hv with hvd hn
    · exact Or.inl ⟨hvd, hn, (Option.some.inj hv).symm⟩
    · exact Or.inr ⟨hvd, hv⟩
  have hsettled : Settled E me ed.cost (P.insertPath ⟨d, ed.cost, b⟩) T.popShortestPath.1 :=
    h.of_least hd hmaxd hmin' hdist hmc hmh ((hP' d).trans (if_pos rfl))
      (fun v hv => (hP' v).trans (if_neg hv)) hout
  refine ⟨d, ed.cost, b, hpop, hsettled, ?_, (hP' d).trans (if_pos rfl), hmc, hmaxd, ?_, hdist,
    ⟨ed, nhl, hd, rfl, hlist, ?_⟩⟩
  · intro u eu hu' hud w a e hle
    have hu : P[u]? = some eu := ((hP' u).trans (if_neg hud)).symm.trans hu'
    by_cases hwd : w = d
    · subst hwd
      refine Or.inl ⟨_, (hP' w).trans (if_pos rfl), hmc.le.trans ?_⟩
      rcases hf u eu hu id w a e hle with ⟨ew, hew, hlew⟩ | ⟨ew, hew, hlew⟩
      · exact (hPd ew hew).symm.le.trans hlew
      · obtain rfl := Option.some.inj (hd.symm.trans hew)
        exact hlew
    · rcases hf u eu hu id w a e hle with ⟨ew, hew, hlew⟩ | ⟨ew, hew, hlew⟩
      · exact Or.inl ⟨ew, (hP' w).trans ((if_neg hwd).trans hew), hlew⟩
      · exact Or.inr ⟨ew, (hT' w).trans ((if_neg hwd).trans hew), hlew⟩
  · exact fun v hv => ⟨(hP' v).trans (if_neg hv), (hT' v).trans (if_neg hv)⟩
  · exact (hT' d).trans (if_pos rfl)

/-- The search fails if all tentative paths are too long. -/
theorem popShortestPath_invalid
    (h : ∀ (v : ℤ) (ep : LsEqualPaths), T[v]? = some ep → LS_MAX_COST < ep.cost) :
    T.popShortestPath.2.isValid = false := by
  obtain ⟨-, -, hfrom⟩ := LsPaths.foldl_minStep T.toList (LS_MAX_COST + 1, none)
  have hmin : T.findMinEqualPaths = none := by
    rcases hfrom with heq | ⟨⟨d, ep⟩, he, -, hlt, -⟩
    · rw [LsPaths.findMinEqualPaths, heq]
    · have := h d ep (Std.TreeMap.mem_toList_iff_getElem?_eq_some.mp he)
      simp only at hlt
      omega
  rw [LsPaths.popShortestPath, hmin]
  rfl

end Invariants

end Ns2.LinkState
