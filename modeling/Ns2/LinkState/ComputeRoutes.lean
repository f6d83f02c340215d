import Mathlib
import Ns2.Lib.ShortestPath
import Ns2.LinkState.Paths

/-!
# The invariants of the route computation

* `linkEdge` — the graph of the links that are up.
* `getElem?_insertPath`, `getElem?_insertNextHopList`, `popShortestPath_spec` — what the
  operations on paths do.
* `Sound`, `Covered`, `Complete` — the invariants of the main loop: the paths found are
  paths of the graph; the paths popped have the least cost; no path through a node popped has
  been forgotten.
* `foldl_relax` — following the links of a node keeps them.
-/

namespace Ns2.LinkState

open ShortestPath

/-- The database has a link from `u` to `v` that is up. -/
def linkEdge (db : LsMap ℤ (List LsLinkState)) (u v c : ℤ) : Prop :=
  ∃ l, db[u]? = some l ∧ ∃ link ∈ l, link.status_ = .up ∧ link.neighborId_ = v ∧ link.cost_ = c

/-! ## The operations on paths -/

theorem mem_appendUnique {l x : List ℤ} {a : ℤ} : a ∈ appendUnique l x ↔ a ∈ l ∨ a ∈ x := by
  unfold appendUnique
  induction x generalizing l with
  | nil => simp
  | cons b x ih =>
    rw [List.foldl_cons, ih]
    by_cases hb : b ∈ l
    · rw [if_pos hb, List.mem_cons]
      constructor
      · tauto
      · rintro (h | rfl | h)
        · exact Or.inl h
        · exact Or.inl hb
        · exact Or.inr h
    · rw [if_neg hb, List.mem_append, List.mem_singleton, List.mem_cons]
      tauto

theorem nodup_appendUnique {l x : List ℤ} (h : l.Nodup) : (appendUnique l x).Nodup := by
  unfold appendUnique
  induction x generalizing l with
  | nil => exact h
  | cons b x ih =>
    rw [List.foldl_cons]
    refine ih ?_
    by_cases hb : b ∈ l
    · rwa [if_pos hb]
    · rw [if_neg hb, ← List.concat_eq_append, List.nodup_concat]
      exact ⟨hb, h⟩

namespace LsPaths

variable {m : LsPaths} {v d c : ℤ} {L : List ℤ} {ep : LsEqualPaths}

/-- What a destination has after new next hops at a cost. -/
def merge (old : Option LsEqualPaths) (c : ℤ) (L : List ℤ) : LsEqualPaths :=
  match old with
  | none => ⟨c, L⟩
  | some ep =>
    if ep.cost < c then ep
    else if ep.cost > c then ⟨c, L⟩
    else ⟨ep.cost, appendUnique ep.nextHopList L⟩

theorem getElem?_insertNextHopList :
    (m.insertNextHopList d c L)[v]? = if v = d then some (merge m[d]? c L) else m[v]? := by
  unfold insertNextHopList merge
  cases hd : m[d]? with
  | none => exact getElem?_lsInsert m d v _
  | some ep =>
    dsimp only
    split_ifs with h1 h2 h3
    all_goals simp_all [getElem?_lsInsert]

theorem getElem?_insertPath (p : LsPath) :
    (m.insertPath p)[v]? =
      if v = p.destination then some (merge m[p.destination]? p.cost [p.nextHop]) else m[v]? := by
  unfold insertPath merge
  cases hd : m[p.destination]? with
  | none => exact getElem?_lsInsert m _ v _
  | some ep =>
    dsimp only
    split_ifs with h1 h2 h3
    all_goals simp_all [getElem?_lsInsert, appendUnique]

/-- The search keeps the smallest cost, and remembers where it is. -/
theorem foldl_minStep (l : List (ℤ × LsEqualPaths)) (r : ℤ × Option ℤ) :
    (l.foldl minStep r).1 ≤ r.1 ∧
      (∀ e ∈ l, e.2.nextHopList ≠ [] → (l.foldl minStep r).1 ≤ e.2.cost) ∧
      (l.foldl minStep r = r ∨ ∃ e ∈ l, e.2.nextHopList ≠ [] ∧ e.2.cost < r.1 ∧
        l.foldl minStep r = (e.2.cost, some e.1)) := by
  induction l generalizing r with
  | nil => exact ⟨le_rfl, by simp, Or.inl rfl⟩
  | cons e l ih =>
    obtain ⟨hle, hall, hfrom⟩ := ih (minStep r e)
    by_cases he : r.1 > e.2.cost ∧ e.2.nextHopList ≠ []
    · have hstep : minStep r e = (e.2.cost, some e.1) := if_pos he
      rw [List.foldl_cons]
      rw [hstep] at hle hall hfrom ⊢
      refine ⟨hle.trans he.1.le, ?_, Or.inr ?_⟩
      · intro e' he' hne
        rcases List.mem_cons.mp he' with rfl | he'
        · exact hle
        · exact hall e' he' hne
      · rcases hfrom with h | ⟨e', he', hne, hlt, h⟩
        · exact ⟨e, List.mem_cons_self, he.2, he.1, h⟩
        · exact ⟨e', List.mem_cons_of_mem _ he', hne, lt_trans hlt he.1, h⟩
    · have hstep : minStep r e = r := if_neg he
      rw [List.foldl_cons]
      rw [hstep] at hle hall hfrom ⊢
      refine ⟨hle, ?_, ?_⟩
      · intro e' he' hne
        rcases List.mem_cons.mp he' with rfl | he'
        · exact hle.trans (not_lt.mp fun h => he ⟨h, hne⟩)
        · exact hall e' he' hne
      · exact hfrom.imp_right fun ⟨e', he', h⟩ => ⟨e', List.mem_cons_of_mem _ he', h⟩

/-- If there is a next hop at a valid cost, `popShortestPath` takes one of the smallest cost. -/
theorem popShortestPath_spec (hne : m[v]? = some ep) (hhops : ep.nextHopList ≠ [])
    (hcost : ep.cost ≤ LS_MAX_COST) :
    ∃ d ep' h nhl, m[d]? = some ep' ∧ ep'.nextHopList = h :: nhl ∧ ep'.cost ≤ LS_MAX_COST ∧
      (∀ (w : ℤ) (ew : LsEqualPaths), m[w]? = some ew → ew.nextHopList ≠ [] →
        ep'.cost ≤ ew.cost) ∧
      m.popShortestPath.2 = ⟨d, ep'.cost, h⟩ ∧
      ∀ w : ℤ, m.popShortestPath.1[w]? =
        if w = d then (if nhl = [] then none else some ⟨ep'.cost, nhl⟩) else m[w]? := by
  obtain ⟨-, hall, hfrom⟩ := foldl_minStep m.toList (LS_MAX_COST + 1, none)
  have hmem : ∀ v ep, (v, ep) ∈ m.toList ↔ m[v]? = some ep := fun v ep =>
    Std.TreeMap.mem_toList_iff_getElem?_eq_some
  rcases hfrom with h | ⟨⟨d, ep'⟩, he, hne', hlt, h⟩
  · have := hall (v, ep) ((hmem v ep).mpr hne) hhops
    rw [h] at this
    exact absurd this (by simp only; omega)
  · obtain ⟨a, nhl, hlist⟩ := List.exists_cons_of_ne_nil hne'
    have hd : m[d]? = some ep' := (hmem d ep').mp he
    have hmin : m.findMinEqualPaths = some d := by rw [findMinEqualPaths, h]
    have hpop : m.popShortestPath =
        (if nhl = [] then m.erase d else m.insert d ⟨ep'.cost, nhl⟩, ⟨d, ep'.cost, a⟩) := by
      rw [popShortestPath, hmin]
      dsimp only
      rw [hd]
      dsimp only
      rw [hlist]
    refine ⟨d, ep', a, nhl, hd, hlist, by simp only at hlt; omega, ?_, by rw [hpop], ?_⟩
    · intro w ew hw hwne
      have := hall (w, ew) ((hmem w ew).mpr hw) hwne
      rwa [h] at this
    · intro w
      rw [hpop]
      by_cases hn : nhl = []
      · simp only [hn, if_true, getElem?_lsErase]
      · simp only [hn, if_false, getElem?_lsInsert]

end LsPaths

/-! ## The invariants -/

section Invariants

variable (E : ℤ → ℤ → ℤ → Prop) (me : ℤ)

/-- The next hops are without duplicates and lead to `v` at the cost. -/
structure LsEqualPaths.Good (v : ℤ) (ep : LsEqualPaths) : Prop where
  ne : ep.nextHopList ≠ []
  nodup : ep.nextHopList.Nodup
  via : ∀ h ∈ ep.nextHopList, Via E me h v ep.cost

/-- The paths found are paths of the graph.  Those installed have the least cost, at most `m`,
and those that are tentative cost at least `m`. -/
structure Sound (m : ℤ) (paths tentative : LsPaths) : Prop where
  self : paths[me]? = some ⟨0, [me]⟩
  good : ∀ (v : ℤ) (ep : LsEqualPaths), v ≠ me → paths[v]? = some ep → ep.Good E me v
  dist : ∀ (v : ℤ) (ep : LsEqualPaths), paths[v]? = some ep → IsDist E me v ep.cost
  le : ∀ (v : ℤ) (ep : LsEqualPaths), paths[v]? = some ep → ep.cost ≤ m
  notSelf : tentative[me]? = none
  tentativeGood : ∀ (v : ℤ) (ep : LsEqualPaths), tentative[v]? = some ep → ep.Good E me v
  ge : ∀ (v : ℤ) (ep : LsEqualPaths), tentative[v]? = some ep → m ≤ ep.cost
  /-- A destination that is in both has next hops that are still to be popped. -/
  both : ∀ (v : ℤ) (ep ep' : LsEqualPaths), paths[v]? = some ep → tentative[v]? = some ep' →
    ep.cost = ep'.cost ∧ ∀ h ∈ ep.nextHopList, h ∉ ep'.nextHopList

/-- There is a better path, or one of this cost and next hop. -/
def Has (o : Option LsEqualPaths) (c h : ℤ) : Prop :=
  ∃ ep, o = some ep ∧ (ep.cost < c ∨ ep.cost = c ∧ h ∈ ep.nextHopList)

/-- The path to `v` of cost `c` over `h` has not been forgotten, unless it is too long. -/
def Covered (paths tentative : LsPaths) (v c h : ℤ) : Prop :=
  LS_MAX_COST < c ∨ Has paths[v]? c h ∨ Has tentative[v]? c h

/-- The next hops to `v` by way of its neighbor `u`. -/
def hopsTo (u v : ℤ) (ep : LsEqualPaths) : List ℤ := if u = me then [v] else ep.nextHopList

/-- The links of all nodes installed, except `ex`, have been followed. -/
def Complete (ex : ℤ → Prop) (paths tentative : LsPaths) : Prop :=
  ∀ (u : ℤ) (ep : LsEqualPaths), paths[u]? = some ep → ¬ ex u → ∀ v c, E u v c → ∀ h ∈ hopsTo me u v ep,
    Covered paths tentative v (ep.cost + c) h

variable {E me} {m c d v u : ℤ} {P T : LsPaths} {L : List ℤ} {ep : LsEqualPaths}
  {old : Option LsEqualPaths}

/-! ## Merging next hops -/

open LsPaths (merge)

theorem Has.merge {c' h' : ℤ} (h : Has old c' h') : Has (some (merge old c L)) c' h' := by
  obtain ⟨ep, rfl, h⟩ := h
  refine ⟨_, rfl, ?_⟩
  unfold LsPaths.merge
  dsimp only
  split_ifs with h1 h2
  · exact h
  · exact Or.inl (by dsimp only; omega)
  · exact h.imp_right fun h => ⟨h.1, mem_appendUnique.mpr (Or.inl h.2)⟩

theorem has_merge {h : ℤ} (hL : h ∈ L) : Has (some (merge old c L)) c h := by
  refine ⟨_, rfl, ?_⟩
  unfold LsPaths.merge
  cases old with
  | none => exact Or.inr ⟨rfl, hL⟩
  | some ep =>
    dsimp only
    split_ifs with h1 h2
    · exact Or.inl h1
    · exact Or.inr ⟨rfl, hL⟩
    · exact Or.inr ⟨by dsimp only; omega, mem_appendUnique.mpr (Or.inr hL)⟩

theorem LsEqualPaths.Good.merge (hold : ∀ ep, old = some ep → ep.Good E me v)
    (hL : (⟨c, L⟩ : LsEqualPaths).Good E me v) : (merge old c L).Good E me v := by
  unfold LsPaths.merge
  cases old with
  | none => exact hL
  | some ep =>
    have hep := hold ep rfl
    dsimp only
    split_ifs with h1 h2
    · exact hep
    · exact hL
    · have hc : c = ep.cost := by omega
      subst hc
      refine ⟨?_, nodup_appendUnique hep.nodup, fun h hh => ?_⟩
      · obtain ⟨a, ha⟩ := List.exists_mem_of_ne_nil _ hep.ne
        exact List.ne_nil_of_mem (mem_appendUnique.mpr (Or.inl ha))
      · rcases mem_appendUnique.mp hh with hh | hh
        · exact hep.via h hh
        · exact hL.via h hh

theorem le_cost_merge (hold : ∀ ep, old = some ep → m ≤ ep.cost) (hc : m ≤ c) :
    m ≤ (merge old c L).cost := by
  unfold LsPaths.merge
  cases old with
  | none => exact hc
  | some ep =>
    have := hold ep rfl
    dsimp only
    split_ifs
    · exact this
    · exact hc
    · exact this

/-! ## Following the links of a node -/

/-- New tentative next hops to a node that is not installed. -/
theorem Sound.insertNextHopList (h : Sound E me m P T) (hd : P[d]? = none)
    (hL : (⟨c, L⟩ : LsEqualPaths).Good E me d) (hc : m ≤ c) :
    Sound E me m P (T.insertNextHopList d c L) where
  self := h.self
  good := h.good
  dist := h.dist
  le := h.le
  notSelf := by
    have hne : me ≠ d := by
      rintro rfl
      rw [h.self] at hd
      exact absurd hd (by simp)
    rw [LsPaths.getElem?_insertNextHopList, if_neg hne]
    exact h.notSelf
  tentativeGood v ep hv := by
    rw [LsPaths.getElem?_insertNextHopList] at hv
    by_cases hvd : v = d
    · rw [if_pos hvd] at hv
      obtain rfl := Option.some.inj hv
      subst hvd
      exact LsEqualPaths.Good.merge (fun ep => h.tentativeGood v ep) hL
    · rw [if_neg hvd] at hv
      exact h.tentativeGood v ep hv
  ge v ep hv := by
    rw [LsPaths.getElem?_insertNextHopList] at hv
    by_cases hvd : v = d
    · rw [if_pos hvd] at hv
      obtain rfl := Option.some.inj hv
      exact le_cost_merge (fun ep => h.ge d ep) hc
    · rw [if_neg hvd] at hv
      exact h.ge v ep hv
  both v ep ep' hv hv' := by
    rw [LsPaths.getElem?_insertNextHopList] at hv'
    by_cases hvd : v = d
    · rw [hvd, hd] at hv
      exact absurd hv (by simp)
    · rw [if_neg hvd] at hv'
      exact h.both v ep ep' hv hv'

theorem Covered.insertNextHopList {a b : ℤ} (h : Covered P T v a b) :
    Covered P (T.insertNextHopList d c L) v a b := by
  rcases h with h | h | h
  · exact Or.inl h
  · exact Or.inr (Or.inl h)
  · refine Or.inr (Or.inr ?_)
    rw [LsPaths.getElem?_insertNextHopList]
    by_cases hvd : v = d
    · rw [if_pos hvd]
      subst hvd
      exact h.merge
    · rwa [if_neg hvd]

theorem lookupCost_eq (h : P[u]? = some ep) : P.lookupCost u = ep.cost := by
  rw [LsPaths.lookupCost, h]

theorem intAdd_eq {a b : ℤ} (h0 : 0 ≤ a + b) (h1 : a + b < 2 ^ 31) : intAdd a b = a + b :=
  Int.bmod_eq_of_le (by omega) (by omega)

/-- The next hops by way of a node of cost `m` lead to its neighbors. -/
theorem Sound.good_hopsTo (h : Sound E me m P T) (hu : P[u]? = some ep) (hm : ep.cost = m)
    (e : E u v d) (hv : v ≠ me) : (⟨m + d, hopsTo me u v ep⟩ : LsEqualPaths).Good E me v := by
  subst hm
  by_cases hume : u = me
  · subst hume
    have hep : ep = ⟨0, [u]⟩ := Option.some.inj (hu.symm.trans h.self)
    subst hep
    simp only [hopsTo, if_true, zero_add]
    refine ⟨List.cons_ne_nil _ _, List.nodup_singleton _, fun a ha => ?_⟩
    obtain rfl := List.mem_singleton.mp ha
    exact Via.first e
  · simp only [hopsTo, if_neg hume]
    have hg := h.good u ep hume hu
    exact ⟨hg.ne, hg.nodup, fun a ha => (hg.via a ha).snoc e⟩

variable (hpos : ∀ u v d, E u v d → 0 < d)
include hpos

/-- One link that is up is followed. -/
theorem relax_spec {nhl : List ℤ} {link : LsLinkState} (h : Sound E me m P T)
    (hu : P[u]? = some ep) (hm : ep.cost = m) (hnhl : u ≠ me → nhl = ep.nextHopList)
    (hE : link.status_ = .up → E u link.neighborId_ link.cost_ ∧ m + link.cost_ < 2 ^ 31) :
    Sound E me m P (relax me u P nhl T link) ∧
      (∀ v a b, Covered P T v a b → Covered P (relax me u P nhl T link) v a b) ∧
      (link.status_ = .up → ∀ b ∈ hopsTo me u link.neighborId_ ep,
        Covered P (relax me u P nhl T link) link.neighborId_ (m + link.cost_) b) := by
  by_cases hup : link.status_ = .up
  · obtain ⟨e, hint⟩ := hE hup
    have hd := hpos _ _ _ e
    have hm0 : 0 ≤ m := hm ▸ (h.dist u ep hu).walk.nonneg hpos
    have hcost : intAdd link.cost_ (P.lookupCost u) = m + link.cost_ := by
      rw [lookupCost_eq hu, hm, intAdd_eq (by omega) (by omega), add_comm]
    have hhops : (if u = me then [link.neighborId_] else nhl) = hopsTo me u link.neighborId_ ep := by
      by_cases hume : u = me
      · simp only [hopsTo, if_pos hume]
      · simp only [hopsTo, if_neg hume, hnhl hume]
    simp only [relax, hup, ne_eq, not_true_eq_false, if_false, hcost, hhops]
    by_cases hlt : P.lookupCost link.neighborId_ < m + link.cost_
    · rw [if_pos hlt]
      refine ⟨h, fun _ _ _ => id, fun _ b _ => ?_⟩
      cases hn : P[link.neighborId_]? with
      | none =>
        rw [LsPaths.lookupCost, hn] at hlt
        exact Or.inl (by simp only at hlt; omega)
      | some ep' =>
        rw [lookupCost_eq hn] at hlt
        exact Or.inr (Or.inl ⟨ep', hn, Or.inl hlt⟩)
    · rw [if_neg hlt]
      have hn : P[link.neighborId_]? = none := by
        cases hn : P[link.neighborId_]? with
        | none => rfl
        | some ep' =>
          have := h.le _ _ hn
          rw [lookupCost_eq hn] at hlt
          omega
      have hne : link.neighborId_ ≠ me := by
        intro heq
        rw [heq, h.self] at hn
        exact absurd hn (by simp)
      refine ⟨h.insertNextHopList hn (h.good_hopsTo hu hm e hne) (by omega),
        fun _ _ _ => Covered.insertNextHopList, fun _ b hb => Or.inr (Or.inr ?_)⟩
      rw [LsPaths.getElem?_insertNextHopList, if_pos rfl]
      exact has_merge hb
  · simp only [relax, hup, ne_eq, not_false_eq_true, if_true]
    exact ⟨h, fun _ _ _ => id, fun h => h.elim⟩

/-- All links of a node are followed. -/
theorem foldl_relax {nhl : List ℤ} {l : List LsLinkState} (h : Sound E me m P T)
    (hu : P[u]? = some ep) (hm : ep.cost = m) (hnhl : u ≠ me → nhl = ep.nextHopList)
    (hE : ∀ link ∈ l, link.status_ = .up →
      E u link.neighborId_ link.cost_ ∧ m + link.cost_ < 2 ^ 31) :
    Sound E me m P (l.foldl (relax me u P nhl) T) ∧
      (∀ v a b, Covered P T v a b → Covered P (l.foldl (relax me u P nhl) T) v a b) ∧
      ∀ link ∈ l, link.status_ = .up → ∀ b ∈ hopsTo me u link.neighborId_ ep,
        Covered P (l.foldl (relax me u P nhl) T) link.neighborId_ (m + link.cost_) b := by
  induction l generalizing T with
  | nil => exact ⟨h, fun _ _ _ => id, by simp⟩
  | cons link l ih =>
    obtain ⟨hs, hmono, hnew⟩ := relax_spec hpos h hu hm hnhl (hE link List.mem_cons_self)
    obtain ⟨hs', hmono', hnew'⟩ := ih hs fun x hx => hE x (List.mem_cons_of_mem _ hx)
    refine ⟨hs', fun v a b hc => hmono' v a b (hmono v a b hc), fun x hx hup b hb => ?_⟩
    rcases List.mem_cons.mp hx with rfl | hx
    · exact hmono' _ _ _ (hnew hup b hb)
    · exact hnew' x hx hup b hb

end Invariants

end Ns2.LinkState
