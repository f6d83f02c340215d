import Ns2.LinkState.RouteLoop
import Ns2.LinkState.RoutesCorrect

/-!
# Route computations that return

* `InRange` — the link costs are in the range of the protocol.
* `Harmless` — there is no cycle of links of cost 0, no node at the cost that the search for the
  minimum takes for infinity, and none with the invalid node id.
* `Expanding`, `Expanding.expand` — the state in which the links of a node are followed.
* `popLoop_watch`, `mainLoop_watch` — a tentative node of a cycle of links of cost 0 is always left.
* `harmless_of_returns` — the database of a computation that returns is harmless.
-/

namespace Ns2.LinkState

open ShortestPath

/-- The smallest link cost of the protocol. -/
def LS_MIN_COST : ℤ := 0

/-- The costs of the links that are up are in the range of the protocol. -/
def InRange (db : LsMap ℤ (List LsLinkState)) : Prop :=
  ∀ u v c, linkEdge db u v c → LS_MIN_COST ≤ c ∧ c ≤ LS_MAX_COST

/-- A node on a cycle of links of cost 0. -/
def OnZeroCycle (E : ℤ → ℤ → ℤ → Prop) (v : ℤ) : Prop := ∃ w, E v w 0 ∧ Walk E w v 0

/-- No node that can be reached within the largest cost is on a cycle of links of cost 0 or has the
invalid node id, and none has the cost after that as its least one. -/
structure Harmless (db : LsMap ℤ (List LsLinkState)) (me : ℤ) : Prop where
  acyclic : ∀ v c, Walk (linkEdge db) me v c → c ≤ LS_MAX_COST → ¬ OnZeroCycle (linkEdge db) v
  noneAtBound : ∀ v, ¬ IsDist (linkEdge db) me v (LS_MAX_COST + 1)
  valid : ∀ v c, Walk (linkEdge db) me v c → c ≤ LS_MAX_COST → v ≠ me → v ≠ LS_INVALID_NODE_ID

section Loops

variable {db : LsMap ℤ (List LsLinkState)} {me m u : ℤ} {P T : LsPaths} {l : List LsLinkState}

theorem InRange.nonneg (hr : InRange db) (u v d : ℤ) (e : linkEdge db u v d) : 0 ≤ d :=
  (hr u v d e).1

/-- A node has been installed, and its links are to be followed. -/
structure Expanding (db : LsMap ℤ (List LsLinkState)) (me m u : ℤ) (l : List LsLinkState)
    (P T : LsPaths) : Prop where
  settled : Settled (linkEdge db) me m P T
  followed : Followed (linkEdge db) (fun v => v = u) P T
  record : db[u]? = some l
  installed : ∃ ep : LsEqualPaths, P[u]? = some ep ∧ ep.cost = m

/-- The next hops that the links of a node pass on. -/
def hopsFrom (me u : ℤ) (P : LsPaths) : List ℤ := if u = me then [] else hops P u

theorem Expanding.linkOf (h : Expanding db me m u l P T) (hr : InRange db) :
    ∀ link ∈ l, link.status_ = .up → LinkOf (linkEdge db) u link := by
  intro link hlink hup
  have e : linkEdge db u link.neighborId_ link.cost_ := ⟨l, h.record, link, hlink, hup, rfl, rfl⟩
  exact ⟨e, (hr _ _ _ e).1, (hr _ _ _ e).2⟩

theorem Expanding.hopsFrom_ne_nil (h : Expanding db me m u l P T) (hume : u ≠ me) :
    hopsFrom me u P ≠ [] := by
  obtain ⟨ep, hep, -⟩ := h.installed
  rw [hopsFrom, if_neg hume, hops_eq hep]
  exact h.settled.hops u ep hep

/-- Step 2 returns. -/
theorem Expanding.expand (hr : InRange db) (h : Expanding db me m u l P T) :
    expand me u l P T = some (l.foldl (relax me u P (hopsFrom me u P)) T) ∧
      Extends (linkEdge db) me m P T (l.foldl (relax me u P (hopsFrom me u P)) T) ∧
      Followed (linkEdge db) (fun _ => False) P (l.foldl (relax me u P (hopsFrom me u P)) T) ∧
      ∀ link ∈ l, link.status_ = .up →
        Leads P (l.foldl (relax me u P (hopsFrom me u P)) T) link.neighborId_ (m + link.cost_) := by
  obtain ⟨ep, hep, hm⟩ := h.installed
  have h0 : 0 ≤ m := hm ▸ (h.settled.dist u ep hep).walk.nonneg_of_le hr.nonneg
  obtain ⟨hext, hlead⟩ := h.settled.foldl_relax hep hm h0 h.hopsFrom_ne_nil (h.linkOf hr)
  refine ⟨?_, hext, ?_, hlead⟩
  · by_cases hume : u = me
    · simp [LinkState.expand, hopsFrom, hume]
    · simp [LinkState.expand, hopsFrom, hume, hep, hops]
  · intro w ew hw _ v d e hle
    by_cases hwu : w = u
    · subst hwu
      obtain rfl := Option.some.inj (hep.symm.trans hw)
      obtain ⟨l', hl', link, hlink, hup, rfl, rfl⟩ := e
      obtain rfl := Option.some.inj (h.record.symm.trans hl')
      rw [hm] at hle ⊢
      exact (hlead link hlink hup).near hle
    · exact hext.near v _ (h.followed w ew hw hwu v d e hle)

/-- The links of a node of which nothing is known need not be followed. -/
theorem Followed.of_unknown {d : ℤ} (h : Followed (linkEdge db) (fun v => v = d) P T)
    (hd : db[d]? = none) : Followed (linkEdge db) (fun _ => False) P T := by
  intro u ep hu _ v c e hle
  refine h u ep hu ?_ v c e hle
  rintro rfl
  obtain ⟨l, hl, -⟩ := e
  exact absurd (hd.symm.trans hl) (by simp)

/-! ## A computation that returns -/

variable {Z : ℤ → Prop}

/-- A set of nodes that links of cost 0 do not leave. -/
structure ZeroSet (E : ℤ → ℤ → ℤ → Prop) (Z : ℤ → Prop) : Prop where
  next : ∀ v, Z v → ∃ w, Z w ∧ E v w 0
  walk : ∀ v w, Z v → Z w → Walk E v w 0

/-- No node installed has the invalid node id, and if one is in `Z`, then one of `Z` is tentative or
to be expanded. -/
structure Watch (me : ℤ) (Z ex : ℤ → Prop) (P T : LsPaths) : Prop where
  valid : ∀ v : ℤ, P[v]? ≠ none → v ≠ me → v ≠ LS_INVALID_NODE_ID
  cycle : ∀ v : ℤ, Z v → P[v]? ≠ none → (∃ u, ex u ∧ Z u) ∨ ∃ w : ℤ, Z w ∧ T[w]? ≠ none

/-- The invariant of the main loop, with the node to be expanded. -/
def Watched (db : LsMap ℤ (List LsLinkState)) (me : ℤ) (Z : ℤ → Prop) (P T : LsPaths) :
    Option (ℤ × List LsLinkState) → Prop
  | none => (∃ m, Settled (linkEdge db) me m P T) ∧ Followed (linkEdge db) (fun _ => False) P T ∧
      Watch me Z (fun _ => False) P T ∧ ∀ v : ℤ, T[v]? = none
  | some (u, l) => (∃ m, Expanding db me m u l P T) ∧ Watch me Z (fun v => v = u) P T

theorem popLoop_watch (hr : InRange db) (hz : ZeroSet (linkEdge db) Z) {n : ℕ} {P' T' : LsPaths}
    {o : Option (ℤ × List LsLinkState)} (h : Settled (linkEdge db) me m P T)
    (hf : Followed (linkEdge db) (fun _ => False) P T) (hw : Watch me Z (fun _ => False) P T)
    (hloop : popLoop db n P T = some (P', T', o)) : Watched db me Z P' T' o := by
  induction n generalizing m P T with
  | zero => exact absurd hloop (by simp [popLoop])
  | succ n ih =>
    rw [popLoop] at hloop
    cases hT : T.isEmpty with
    | true =>
      simp only [hT, if_true, Option.some.injEq, Prod.mk.injEq] at hloop
      obtain ⟨rfl, rfl, rfl⟩ := hloop
      exact ⟨⟨m, h⟩, hf, hw, fun v => Std.TreeMap.getElem?_of_isEmpty hT⟩
    | false =>
      cases hvalid : T.popShortestPath.2.isValid with
      | false => simp [hT, hvalid] at hloop
      | true =>
        obtain ⟨x, ex, hx, hxc⟩ : ∃ (x : ℤ) (ex : LsEqualPaths), T[x]? = some ex ∧
            ex.cost ≤ LS_MAX_COST := by
          by_contra hno
          push Not at hno
          exact absurd (hvalid.symm.trans (popShortestPath_invalid hno)) (by simp)
        obtain ⟨d, c, b, hpop, hp⟩ := h.pop hr.nonneg hf hx hxc
        have hd : d ≠ LS_INVALID_NODE_ID := by
          rw [hpop] at hvalid
          simp only [LsPath.isValid, decide_eq_true_eq] at hvalid
          exact hvalid.1
        have hold : ∀ v : ℤ, (P.insertPath ⟨d, c, b⟩)[v]? ≠ none → v ≠ d → P[v]? ≠ none :=
          fun v hv hvd => (hp.others v hvd).1 ▸ hv
        have hwatch : Watch me Z (fun v => v = d) (P.insertPath ⟨d, c, b⟩)
            T.popShortestPath.1 := by
          refine ⟨fun v hv hne => ?_, fun v hzv hv => ?_⟩
          · by_cases hvd : v = d
            · exact hvd ▸ hd
            · exact hw.valid v (hold v hv hvd) hne
          · by_cases hzd : Z d
            · exact Or.inl ⟨d, rfl, hzd⟩
            · have hvd : v ≠ d := fun hvd => hzd (hvd ▸ hzv)
              rcases hw.cycle v hzv (hold v hv hvd) with ⟨_, hfalse, -⟩ | ⟨w, hzw, hTw⟩
              · exact hfalse.elim
              · have hwd : w ≠ d := fun hwd => hzd (hwd ▸ hzw)
                exact Or.inr ⟨w, hzw, (hp.others w hwd).2.symm ▸ hTw⟩
        simp only [hT, hpop, Bool.false_eq_true, if_false] at hloop hvalid
        simp only [hvalid, not_true_eq_false, if_false] at hloop
        cases hdb : db[d]? with
        | some l =>
          simp only [hdb, Option.some.injEq, Prod.mk.injEq] at hloop
          obtain ⟨rfl, rfl, rfl⟩ := hloop
          exact ⟨⟨c, hp.settled, hp.followed, hdb, _, hp.installed, hp.cost⟩, hwatch⟩
        | none =>
          simp only [hdb] at hloop
          have hzd : ¬ Z d := by
            intro hzd
            obtain ⟨w, -, l, hl, -⟩ := hz.next d hzd
            exact absurd (hdb.symm.trans hl) (by simp)
          refine ih hp.settled (hp.followed.of_unknown hdb) ⟨hwatch.valid, fun v hzv hv => ?_⟩ hloop
          rcases hwatch.cycle v hzv hv with ⟨u, rfl, hzu⟩ | hw'
          · exact absurd hzu hzd
          · exact Or.inr hw'

/-- The links of a node of `Z` lead to a tentative one. -/
theorem Expanding.watch (hr : InRange db) (hz : ZeroSet (linkEdge db) Z)
    (h : Expanding db me m u l P T) (hw : Watch me Z (fun v => v = u) P T) :
    Watch me Z (fun _ => False) P (l.foldl (relax me u P (hopsFrom me u P)) T) := by
  obtain ⟨-, hext, -, hlead⟩ := h.expand hr
  obtain ⟨ep, hep, hm⟩ := h.installed
  refine ⟨hw.valid, fun v hzv hv => Or.inr ?_⟩
  rcases hw.cycle v hzv hv with ⟨u', hu', hzu⟩ | ⟨w, hzw, hTw⟩
  · rw [hu'] at hzu
    obtain ⟨w, hzw, l', hl', link, hlink, hup, rfl, hcost⟩ := hz.next u hzu
    obtain rfl := Option.some.inj (h.record.symm.trans hl')
    refine ⟨_, hzw, (hlead link hlink hup).tentative ?_⟩
    rw [hcost, add_zero]
    unfold LsPaths.lookupCost
    cases hPw : P[link.neighborId_]? with
    | none =>
      have := h.settled.bound
      simp only
      omega
    | some ew =>
      -- all nodes of `Z` have one cost
      have hwalk := (h.settled.dist _ ew hPw).walk.trans (hz.walk _ u hzw hzu)
      have := (h.settled.dist u ep hep).least _ hwalk
      simp only
      omega
  · exact ⟨w, hzw, hext.kept w hTw⟩

theorem mainLoop_watch (hr : InRange db) (hz : ZeroSet (linkEdge db) Z) {n : ℕ} {P' : LsPaths}
    (h : Expanding db me m u l P T) (hw : Watch me Z (fun v => v = u) P T)
    (hloop : mainLoop db me n P T u l = some P') : ∃ T', Watched db me Z P' T' none := by
  induction n generalizing m u l P T with
  | zero => exact absurd hloop (by simp [mainLoop])
  | succ n ih =>
    obtain ⟨hexp, hext, hf, -⟩ := h.expand hr
    have hw' := h.watch hr hz hw
    simp only [mainLoop, hexp, Option.bind_eq_bind, Option.bind_some] at hloop
    obtain ⟨⟨P₁, T₁, o⟩, hpop, hrest⟩ := Option.bind_eq_some_iff.mp hloop
    have hwatched := popLoop_watch hr hz hext.settled hf hw' hpop
    cases o with
    | none =>
      obtain rfl := Option.some.inj hrest
      exact ⟨T₁, hwatched⟩
    | some r =>
      obtain ⟨⟨m', h'⟩, hw''⟩ := hwatched
      exact ih h' hw'' hrest

/-! ## The start -/

/-- The node itself is installed first. -/
def start (me : ℤ) : LsPaths := (∅ : LsPaths).insert me ⟨0, [me]⟩

theorem getElem?_start (v : ℤ) : (start me)[v]? = if v = me then some ⟨0, [me]⟩ else none := by
  rw [start, getElem?_lsInsert, Std.TreeMap.getElem?_emptyc]

theorem start_eq_some {v : ℤ} {ep : LsEqualPaths} (h : (start me)[v]? = some ep) :
    v = me ∧ ep = ⟨0, [me]⟩ := by
  rw [getElem?_start] at h
  by_cases hv : v = me
  · rw [if_pos hv] at h
    exact ⟨hv, (Option.some.inj h).symm⟩
  · rw [if_neg hv] at h
    exact absurd h (by simp)

theorem not_tentative {v : ℤ} {ep : LsEqualPaths} : (∅ : LsPaths)[v]? ≠ some ep := by
  rw [Std.TreeMap.getElem?_emptyc]
  exact (Option.some_ne_none ep).symm

theorem settled_start (hr : InRange db) : Settled (linkEdge db) me 0 (start me) ∅ := by
  refine ⟨⟨_, (getElem?_start me).trans (if_pos rfl), rfl⟩, ?_, ?_, ?_, by decide, ?_, ?_, ?_, ?_,
    ?_⟩
  · intro v ep hv
    obtain ⟨rfl, rfl⟩ := start_eq_some hv
    exact ⟨Walk.nil, fun a p => p.nonneg_of_le hr.nonneg⟩
  · intro v ep hv
    obtain ⟨rfl, rfl⟩ := start_eq_some hv
    exact le_rfl
  · intro v ep hv
    obtain ⟨rfl, rfl⟩ := start_eq_some hv
    exact List.cons_ne_nil _ _
  · exact fun v ep hv => absurd hv not_tentative
  · exact fun v ep hv => absurd hv not_tentative
  · exact fun v ep hv => absurd hv not_tentative
  · exact fun v ep hv => absurd hv not_tentative
  · exact fun v ep ep' _ hv => absurd hv not_tentative

theorem followed_start : Followed (linkEdge db) (fun v => v = me) (start me) ∅ :=
  fun _ _ hu hne => absurd (start_eq_some hu).1 hne

theorem expanding_start (hr : InRange db) (hdb : db[me]? = some l) :
    Expanding db me 0 me l (start me) ∅ :=
  ⟨settled_start hr, followed_start, hdb, _, (getElem?_start me).trans (if_pos rfl), rfl⟩

theorem watch_start : Watch me Z (fun v => v = me) (start me) ∅ := by
  have hself : ∀ v : ℤ, (start me)[v]? ≠ none → v = me := by
    intro v hv
    obtain ⟨ep, hep⟩ := Option.ne_none_iff_exists'.mp hv
    exact (start_eq_some hep).1
  exact ⟨fun v hv hne => absurd (hself v hv) hne, fun v hzv hv => Or.inl ⟨v, hself v hv, hzv⟩⟩

/-- What holds of a table that is returned. -/
theorem computeRoutes_watched (hr : InRange db) (hz : ZeroSet (linkEdge db) Z) {n : ℕ} {t : LsPaths}
    (h : _computeRoutes db me n = some t) : ∃ T, Watched db me Z t T none := by
  unfold _computeRoutes at h
  cases hdb : db[me]? with
  | none =>
    simp only [hdb, Option.some.injEq] at h
    obtain rfl : start me = t := h
    refine ⟨∅, ⟨0, settled_start hr⟩, followed_start.of_unknown hdb,
      ⟨watch_start.valid (Z := Z), ?_⟩, fun v => Std.TreeMap.getElem?_emptyc⟩
    intro v hzv hv
    rcases (watch_start (Z := Z)).cycle v hzv hv with ⟨u, rfl, hzu⟩ | ⟨w, -, hw⟩
    · obtain ⟨w, -, l, hl, -⟩ := hz.next u hzu
      exact absurd (hdb.symm.trans hl) (by simp)
    · exact absurd Std.TreeMap.getElem?_emptyc hw
  | some l =>
    simp only [hdb] at h
    exact mainLoop_watch hr hz (expanding_start hr hdb) watch_start h

/-- A table that is returned has every node within the largest cost, and one at the next cost would
have been left. -/
theorem Watched.near {T : LsPaths} (hr : InRange db) (h : Watched db me Z P T none) {v a : ℤ}
    (p : Walk (linkEdge db) me v a) (ha : a ≤ LS_MAX_COST + 1) :
    ∃ ep : LsEqualPaths, P[v]? = some ep ∧ ep.cost ≤ a ∧ ep.cost ≤ LS_MAX_COST ∧
      IsDist (linkEdge db) me v ep.cost := by
  obtain ⟨⟨m, hs⟩, hf, -, hT⟩ := h
  rcases hs.near_of_walk hr.nonneg hf p ha with ⟨ep, hep, hle⟩ | ⟨x, ex, hx, -⟩
  · exact ⟨ep, hep, hle, (hs.le v ep hep).trans hs.bound, hs.dist v ep hep⟩
  · exact absurd ((hT x).symm.trans hx) (by simp)

/-- The nodes on a cycle of links of cost 0 through `v`. -/
theorem OnZeroCycle.zeroSet {E : ℤ → ℤ → ℤ → Prop} (hnn : ∀ u v d, E u v d → 0 ≤ d) {v : ℤ}
    (h : OnZeroCycle E v) :
    ZeroSet E fun x => Walk E v x 0 ∧ ∃ w, E x w 0 ∧ Walk E w v 0 := by
  refine ⟨?_, ?_⟩
  · rintro x ⟨p, w, e, q⟩
    have pw : Walk E v w 0 := by simpa using p.snoc e
    refine ⟨w, ⟨pw, ?_⟩, e⟩
    rcases q.via with ⟨rfl, -⟩ | ⟨y, q'⟩
    · exact h
    · obtain ⟨d, c', e', q'', heq⟩ := q'.tail
      have hd := hnn w y d e'
      have hc' := q''.nonneg_of_le hnn
      obtain rfl : d = 0 := by omega
      obtain rfl : c' = 0 := by omega
      exact ⟨y, e', q''⟩
  · rintro x y ⟨-, w, e, q⟩ ⟨p, -⟩
    have qx : Walk E x v 0 := by simpa using q.cons e
    simpa using qx.trans p

/-- A computation that returns has a harmless database. -/
theorem harmless_of_returns (hr : InRange db) {n : ℕ} {t : LsPaths}
    (h : _computeRoutes db me n = some t) : Harmless db me := by
  obtain ⟨T, hw⟩ := computeRoutes_watched (Z := fun _ => False) hr
    ⟨fun _ hv => hv.elim, fun _ _ hv => hv.elim⟩ h
  refine ⟨fun v c p hc hcycle => ?_, fun v hdist => ?_, fun v c p hc hne => ?_⟩
  · have hz := hcycle.zeroSet hr.nonneg
    obtain ⟨T', hw'⟩ := computeRoutes_watched hr hz h
    obtain ⟨ep, hep, -⟩ := hw'.near hr p (by omega)
    obtain ⟨-, -, hwatch, hT'⟩ := hw'
    rcases hwatch.cycle v ⟨Walk.nil, hcycle⟩ (hep ▸ Option.some_ne_none ep) with
      ⟨_, hfalse, -⟩ | ⟨w, -, hTw⟩
    · exact hfalse
    · exact hTw (hT' w)
  · obtain ⟨ep, -, -, hle, hdist'⟩ := hw.near hr hdist.walk le_rfl
    have := hdist.unique hdist'
    omega
  · obtain ⟨ep, hep, -⟩ := hw.near hr p (by omega)
    exact hw.2.2.1.valid v (hep ▸ Option.some_ne_none ep) hne

end Loops

end Ns2.LinkState
