import Ns2.Lib.Forwarding
import Ns2.Routing.FlatRoutes
import Ns2.Routing.HierTables

/-!
# Hierarchical forwarding

Every cluster looks for shortest paths in a graph of its own, where the other clusters and the
domains are single vertices that cost nothing to cross.

* `Connected` — the links of a hierarchy that is connected at every level.
* `reachable_node`, `reachable_cluster`, `reachable_domain` — what can be reached in the graph of
  a cluster.
* `lookup_spec` — one hop.
* `hier_forwarding` — forwarding reaches its destination, or returns to a cluster it has left.
* `clusters_disagree` — two clusters that send packets back and forth.
-/

namespace Ns2.Routing

open ShortestPath Forwarding

/-- The links lead both ways and connect the nodes of every cluster, the clusters of every domain,
and the domains. -/
structure Connected (h : Shape) (links : List Link) : Prop where
  proper : ∀ l ∈ links, h.Proper l
  bidirectional : ∀ l ∈ links, ⟨l.dst, l.src, l.cost⟩ ∈ links
  nodes : ∀ a b, h.Valid a → h.Valid b → a.home = b.home →
    Relation.ReflTransGen (fun a b => a.home = b.home ∧ ∃ l ∈ links, l.src = a ∧ l.dst = b) a b
  clusters : ∀ p q, h.IsCluster p → h.IsCluster q → p.1 = q.1 →
    Relation.ReflTransGen
      (fun p q => p.1 = q.1 ∧ ∃ l ∈ links, l.src.home = p ∧ l.dst.home = q) p q
  domains : ∀ x y, (1 ≤ x ∧ x < h.D_) → (1 ≤ y ∧ y < h.D_) →
    Relation.ReflTransGen (fun x y => ∃ l ∈ links, l.src.domain = x ∧ l.dst.domain = y) x y

namespace Hier

open Shape

/-- The graph of a cluster. -/
abbrev Graph (h : Hier) (p : ℕ × ℕ) : ℕ → ℕ → ℚ → Prop :=
  Edge (h.order p) (adj (h.order p) (h.tab p))

variable {h : Hier} {links : List Link} {p q : ℕ × ℕ} {u v w : ℕ} {a b : Addr}

/-! ## The graph of a cluster -/

theorem cast_ne_infinity {c : ℤ} : (c : ℚ) ≠ INFINITY ↔ c ≠ HINFINITY := by
  have hcast : INFINITY = ((HINFINITY : ℤ) : ℚ) := by
    unfold INFINITY HINFINITY
    norm_num
  rw [hcast, Ne, Int.cast_inj]

theorem graph_edge (hI : h.Inv {l | l ∈ links}) (hp : h.IsCluster p) :
    (∃ d, h.Graph p u v d) ↔ ((1 ≤ u ∧ u < h.order p) ∧ (1 ≤ v ∧ v < h.order p)) ∧
      ∃ l ∈ links, h.Writes p l u v := by
  constructor
  · rintro ⟨d, hu, hv, hd, hne⟩
    refine ⟨⟨hu, hv⟩, (hI.edge p hp u v hu.2 hv.2).mp (cast_ne_infinity.mp fun heq => hne ?_)⟩
    exact hd.symm.trans heq
  · rintro ⟨⟨hu, hv⟩, hl⟩
    exact ⟨_, hu, hv, rfl, cast_ne_infinity.mpr ((hI.edge p hp u v hu.2 hv.2).mpr hl)⟩

theorem positiveCosts (hI : h.Inv {l | l ∈ links}) (hp : h.IsCluster p) :
    PositiveCosts (h.order p) (adj (h.order p) (h.tab p)) := by
  intro u v _ hu _ hv
  exact Int.cast_pos.mpr (hI.pos p hp u v hu hv)

theorem clusterVertex_bounds (hq : h.IsCluster q) (hd : q.1 = p.1) :
    1 ≤ h.clusterVertex p q.2 ∧ h.clusterVertex p q.2 < h.order p := by
  refine ⟨hq.cluster_pos.trans ?_, clusterVertex_lt (hd ▸ hq.cluster_lt)⟩
  unfold clusterVertex
  omega

theorem domainVertex_bounds (hp : h.IsCluster p) {x : ℕ} (hx : 1 ≤ x ∧ x < h.D_) :
    1 ≤ h.domainVertex p x ∧ h.domainVertex p x < h.order p := by
  refine ⟨hx.1.trans ?_, domainVertex_lt hp hx.2⟩
  unfold domainVertex
  omega

/-- The rows of the nodes are written by the links of the nodes. -/
theorem writes_node {l : Link} (hl : h.Proper l) (hu : u ≤ h.size p)
    (hW : h.Writes p l u v) : l.src.home = p ∧ u = l.src.node ∧ v = h.vertex p l.dst := by
  have h1 := hl.src.home.domain_pos
  have h2 := hl.src.home.cluster_pos
  simp only [Addr.home] at h1 h2
  rcases hW with hW | ⟨-, -, hu', -⟩ | ⟨-, hu', -⟩
  · exact hW
  · unfold clusterVertex at hu'
    omega
  · unfold domainVertex at hu'
    omega

/-- No edge leads back to the nodes. -/
theorem writes_border {l : Link} (hp : h.IsCluster p) (hl : h.Proper l) (hu : h.size p < u)
    (hW : h.Writes p l u v) : h.size p < v := by
  have h1 := hl.dst.home.domain_pos
  simp only [Addr.home] at h1
  rcases hW with ⟨hs, hu', -⟩ | ⟨-, -, -, hv⟩ | ⟨-, -, hv⟩
  · have := hl.src.node_le
    rw [hs] at this
    omega
  · rw [hv]
    exact (border_bounds hp hl.dst).1
  · rw [hv]
    unfold domainVertex
    omega

theorem walk_border (hI : h.Inv {l | l ∈ links}) (hl : ∀ l ∈ links, h.Proper l)
    (hp : h.IsCluster p) {c : ℚ} (hw : Walk (h.Graph p) u v c) (hu : h.size p < u) :
    h.size p < v := by
  induction hw with
  | nil => exact hu
  | snoc _ e ih =>
    obtain ⟨-, l, hmem, hW⟩ := (graph_edge hI hp).mp ⟨_, e⟩
    exact writes_border hp (hl l hmem) ih hW

/-! ## What can be reached -/

section Reachable

variable (hI : h.Inv {l | l ∈ links}) (hc : Connected h.toShape links) (hp : h.IsCluster p)
include hI hc hp

/-- The nodes of the cluster reach each other. -/
theorem reachable_node (ha : h.Valid a) (hb : h.Valid b) (hap : a.home = p) (hbp : b.home = p) :
    Reachable (h.Graph p) a.node b.node := by
  have hrel := hc.nodes a b ha hb (hap.trans hbp.symm)
  have hall : ∀ b, Relation.ReflTransGen
      (fun a b => a.home = b.home ∧ ∃ l ∈ links, l.src = a ∧ l.dst = b) a b →
      b.home = p ∧ Reachable (h.Graph p) a.node b.node := by
    intro b hb
    induction hb with
    | refl => exact ⟨hap, 0, Walk.nil⟩
    | @tail b c _ hstep ih =>
      obtain ⟨hbc, l, hmem, rfl, rfl⟩ := hstep
      have hcp := hbc.symm.trans ih.1
      have hl := hc.proper l hmem
      have hvertex : h.vertex p l.dst = l.dst.node := if_pos hcp
      obtain ⟨h1, h2, -⟩ := vertex_bounds hp hl.src
      obtain ⟨h3, h4, -⟩ := vertex_bounds hp hl.dst
      rw [vertex, if_pos ih.1] at h1 h2
      rw [hvertex] at h3 h4
      refine ⟨hcp, ih.2.snoc ((graph_edge hI hp).mpr ⟨⟨⟨h1, h2⟩, h3, h4⟩, l, hmem, ?_⟩)⟩
      exact Or.inl ⟨ih.1, rfl, hvertex.symm⟩
  exact (hall b hrel).2

/-- The clusters of the domain reach each other. -/
theorem reachable_clusterVertex (hq : h.IsCluster q) {r : ℕ × ℕ} (hr : h.IsCluster r)
    (hqd : q.1 = p.1) (hrd : r.1 = p.1) :
    Reachable (h.Graph p) (h.clusterVertex p q.2) (h.clusterVertex p r.2) := by
  have hrel := hc.clusters q r hq hr (hqd.trans hrd.symm)
  have hall : ∀ r, Relation.ReflTransGen
      (fun p q => p.1 = q.1 ∧ ∃ l ∈ links, l.src.home = p ∧ l.dst.home = q) q r →
      r.1 = p.1 ∧ Reachable (h.Graph p) (h.clusterVertex p q.2) (h.clusterVertex p r.2) := by
    intro r hr
    induction hr with
    | refl => exact ⟨hqd, 0, Walk.nil⟩
    | tail _ hstep ih =>
      obtain ⟨hbc, l, hmem, rfl, rfl⟩ := hstep
      have hcd := hbc.symm.trans ih.1
      have hl := hc.proper l hmem
      refine ⟨hcd, ?_⟩
      by_cases hne : l.dst.home = l.src.home
      · rw [hne]
        exact ih.2
      · have hborder : h.border p l.dst = h.clusterVertex p l.dst.cluster := if_pos hcd
        refine ih.2.snoc ((graph_edge hI hp).mpr
          ⟨⟨clusterVertex_bounds hl.src.home ih.1, clusterVertex_bounds hl.dst.home hcd⟩,
            l, hmem, ?_⟩)
        exact Or.inr (Or.inl ⟨ih.1, hne, rfl, hborder.symm⟩)
  exact (hall r hrel).2

/-- The domains reach each other. -/
theorem reachable_domainVertex {x y : ℕ} (hx : 1 ≤ x ∧ x < h.D_) (hy : 1 ≤ y ∧ y < h.D_) :
    Reachable (h.Graph p) (h.domainVertex p x) (h.domainVertex p y) := by
  have hrel := hc.domains x y hx hy
  clear hy
  induction hrel with
  | refl => exact ⟨0, Walk.nil⟩
  | tail _ hstep ih =>
    obtain ⟨l, hmem, rfl, rfl⟩ := hstep
    have hl := hc.proper l hmem
    by_cases hne : l.dst.domain = l.src.domain
    · rw [hne]
      exact ih
    · refine ih.snoc ((graph_edge hI hp).mpr
        ⟨⟨domainVertex_bounds hp ⟨hl.src.home.domain_pos, hl.src.home.domain_lt⟩,
          domainVertex_bounds hp ⟨hl.dst.home.domain_pos, hl.dst.home.domain_lt⟩⟩, l, hmem, ?_⟩)
      exact Or.inr (Or.inr ⟨hne, rfl, rfl⟩)

omit hI hp in
/-- There is a link from the cluster to another one of its domain. -/
theorem exists_clusterLink (hp : h.IsCluster p) (hq : h.IsCluster q) (hd : q.1 = p.1)
    (hne : q ≠ p) : ∃ l ∈ links, l.src.home = p ∧ l.dst.domain = p.1 ∧ l.dst.home ≠ p := by
  have hrel := hc.clusters p q hp hq hd.symm
  by_contra hno
  push Not at hno
  have hall : ∀ q, Relation.ReflTransGen
      (fun p q => p.1 = q.1 ∧ ∃ l ∈ links, l.src.home = p ∧ l.dst.home = q) p q → q = p := by
    intro q hq
    induction hq with
    | refl => rfl
    | tail _ hstep ih =>
      obtain ⟨hbc, l, hmem, rfl, rfl⟩ := hstep
      exact hno l hmem ih (hbc.symm.trans (congrArg Prod.fst ih))
  exact hne (hall q hrel)

omit hI hp in
/-- There is a link from the domain to another one. -/
theorem exists_domainLink {x y : ℕ} (hx : 1 ≤ x ∧ x < h.D_) (hy : 1 ≤ y ∧ y < h.D_)
    (hne : y ≠ x) : ∃ l ∈ links, l.src.domain = x ∧ l.dst.domain ≠ x := by
  have hrel := hc.domains x y hx hy
  by_contra hno
  push Not at hno
  have hall : ∀ y, Relation.ReflTransGen
      (fun x y => ∃ l ∈ links, l.src.domain = x ∧ l.dst.domain = y) x y → y = x := by
    intro y hy
    induction hy with
    | refl => rfl
    | tail _ hstep ih =>
      obtain ⟨l, hmem, rfl, rfl⟩ := hstep
      exact hno l hmem ih
  exact hne (hall y hrel)

/-- A node reaches the other clusters of its domain. -/
theorem reachable_cluster (ha : h.Valid a) (hap : a.home = p) (hq : h.IsCluster q)
    (hd : q.1 = p.1) (hne : q ≠ p) : Reachable (h.Graph p) a.node (h.clusterVertex p q.2) := by
  obtain ⟨l, hmem, hs, hdd, hdne⟩ := exists_clusterLink hc hp hq hd hne
  have hl := hc.proper l hmem
  have hvertex : h.vertex p l.dst = h.clusterVertex p l.dst.cluster := by
    rw [vertex, if_neg hdne, border, if_pos hdd]
  have hexit : Reachable (h.Graph p) a.node (h.clusterVertex p l.dst.cluster) := by
    obtain ⟨h1, h2, -⟩ := vertex_bounds hp hl.src
    rw [vertex, if_pos hs] at h1 h2
    refine (reachable_node hI hc hp ha hl.src hap hs).snoc ((graph_edge hI hp).mpr
      ⟨⟨⟨h1, h2⟩, clusterVertex_bounds hl.dst.home hdd⟩, l, hmem, ?_⟩)
    exact Or.inl ⟨hs, rfl, hvertex.symm⟩
  exact hexit.trans (reachable_clusterVertex hI hc hp hl.dst.home hq hdd hd)

/-- A node reaches the other domains. -/
theorem reachable_domain (ha : h.Valid a) (hap : a.home = p) {x : ℕ} (hx : 1 ≤ x ∧ x < h.D_)
    (hne : x ≠ p.1) : Reachable (h.Graph p) a.node (h.domainVertex p x) := by
  obtain ⟨l, hmem, hs, hd⟩ := exists_domainLink hc ⟨hp.domain_pos, hp.domain_lt⟩ hx hne
  have hl := hc.proper l hmem
  have hborder : h.border p l.dst = h.domainVertex p l.dst.domain := if_neg hd
  have hx' : 1 ≤ l.dst.domain ∧ l.dst.domain < h.D_ :=
    ⟨hl.dst.home.domain_pos, hl.dst.home.domain_lt⟩
  have hexit : Reachable (h.Graph p) a.node (h.domainVertex p l.dst.domain) := by
    by_cases hsp : l.src.home = p
    · obtain ⟨h1, h2, -⟩ := vertex_bounds hp hl.src
      rw [vertex, if_pos hsp] at h1 h2
      refine (reachable_node hI hc hp ha hl.src hap hsp).snoc ((graph_edge hI hp).mpr
        ⟨⟨⟨h1, h2⟩, domainVertex_bounds hp hx'⟩, l, hmem, Or.inl ⟨hsp, rfl, ?_⟩⟩)
      rw [vertex, if_neg fun heq => hd (congrArg Prod.fst heq), hborder]
    · refine (reachable_cluster hI hc hp ha hap hl.src.home hs hsp).snoc
        ((graph_edge hI hp).mpr ⟨⟨clusterVertex_bounds hl.src.home hs,
          domainVertex_bounds hp hx'⟩, l, hmem, Or.inr (Or.inl ⟨hs, ?_, rfl, hborder.symm⟩)⟩)
      exact fun heq => hd ((congrArg Prod.fst heq).trans hs)
  exact hexit.trans (reachable_domainVertex hI hc hp hx' hx)

/-- A node reaches the vertex of any address. -/
theorem reachable_vertex (ha : h.Valid a) (hap : a.home = p) (hb : h.Valid b) :
    Reachable (h.Graph p) a.node (h.vertex p b) := by
  unfold vertex border
  split_ifs with hhome hd
  · exact reachable_node hI hc hp ha hb hap hhome
  · exact reachable_cluster hI hc hp ha hap hb.home hd hhome
  · exact reachable_domain hI hc hp ha hap ⟨hb.home.domain_pos, hb.home.domain_lt⟩ hd

omit hI in
/-- Every matrix has been allocated, when there are two nodes. -/
theorem exists_touches (ha : h.Valid a) (hb : h.Valid b) (hne : a ≠ b) :
    ∃ l ∈ links, Touches p l := by
  have hother : ∀ q, h.IsCluster q → q ≠ a.home →
      (∃ l ∈ links, l.dst.domain ≠ l.src.domain) ∨
        ∃ l ∈ links, l.src.home = a.home ∧ l.dst.home ≠ l.src.home := by
    intro q hq hqa
    by_cases hd : q.1 = a.domain
    · obtain ⟨l, hmem, hs, -, hl⟩ := exists_clusterLink hc ha.home hq hd hqa
      exact Or.inr ⟨l, hmem, hs, hs ▸ hl⟩
    · obtain ⟨l, hmem, hs, hl⟩ := exists_domainLink hc (x := a.domain)
        ⟨ha.home.domain_pos, ha.home.domain_lt⟩ ⟨hq.domain_pos, hq.domain_lt⟩ hd
      exact Or.inl ⟨l, hmem, hs ▸ hl⟩
  by_cases hpa : p = a.home
  · by_cases hba : b.home = a.home
    · rcases (hc.nodes a b ha hb hba.symm).cases_head with heq | ⟨c, ⟨-, l, hmem, hs, -⟩, -⟩
      · exact absurd heq hne
      · exact ⟨l, hmem, Or.inr (Or.inl (hs ▸ hpa.symm))⟩
    · rcases hother b.home hb.home hba with ⟨l, hmem, hl⟩ | ⟨l, hmem, hs, -⟩
      · exact ⟨l, hmem, Or.inl hl⟩
      · exact ⟨l, hmem, Or.inr (Or.inl (hs.trans hpa.symm))⟩
  · by_cases hd : p.1 = a.domain
    · rcases hother p hp hpa with ⟨l, hmem, hl⟩ | ⟨l, hmem, hs, hl⟩
      · exact ⟨l, hmem, Or.inl hl⟩
      · exact ⟨l, hmem, Or.inr (Or.inr ⟨(congrArg Prod.fst hs).trans hd.symm, hl⟩)⟩
    · obtain ⟨l, hmem, hs, hl⟩ := exists_domainLink hc (x := a.domain)
        ⟨ha.home.domain_pos, ha.home.domain_lt⟩ ⟨hp.domain_pos, hp.domain_lt⟩ hd
      exact ⟨l, hmem, Or.inl (hs ▸ hl)⟩

end Reachable

/-! ## One hop -/

theorem routeIndex_eq (hb : h.Valid b) :
    h.routeIndex a b = INDEX a.node (h.vertex a.home b) (h.order a.home) := by
  have h1 := hb.node_pos
  have h2 := hb.home.cluster_pos
  simp only [Addr.home] at h2
  unfold routeIndex
  by_cases hd : b.domain = a.domain
  · have hn : ¬ ((b.cluster = 0 ∧ b.node = 0) ∨ a.domain ≠ b.domain) := by
      rintro (⟨hc, -⟩ | hne)
      · omega
      · exact hne hd.symm
    simp only [if_neg hn]
    by_cases hc : b.cluster = a.cluster
    · rw [if_neg (by rintro (hz | hne) <;> omega), N_N_INDEX_eq, vertex,
        if_pos (Prod.ext hd hc : b.home = a.home)]
      rfl
    · rw [if_pos (Or.inr (Ne.symm hc)), N_C_INDEX_eq, vertex,
        if_neg fun heq => hc (congrArg Prod.snd heq), border,
        if_pos (show b.domain = a.home.1 from hd)]
      rfl
  · simp only [if_pos (Or.inr (Ne.symm hd) : (b.cluster = 0 ∧ b.node = 0) ∨ a.domain ≠ b.domain)]
    rw [N_D_INDEX_eq, vertex, if_neg fun heq => hd (congrArg Prod.fst heq), border,
      if_neg (show ¬ b.domain = a.home.1 from hd)]
    rfl

/-- Next hops behind the nodes are looked up in `hconnect_`. -/
theorem get_address_border {t : Tables} (hw : h.size a.home < w) :
    h.get_address t w a =
      t.hconnect_ (a.node * (h.C_ a.domain + h.D_) + (w - h.size a.home)) := by
  have hsize : h.size (a.domain, a.cluster) = h.size a.home := rfl
  unfold get_address
  simp only [hsize]
  rw [if_neg (not_le.mpr hw)]
  split_ifs with hc
  · rfl
  · congr 2
    omega

/-- The distance of a node to an address, in the graph of its cluster. -/
noncomputable def distTo (h : Hier) (b a : Addr) : ℚ :=
  open Classical in
  if hd : ∃ c, IsDist (h.Graph a.home) a.node (h.vertex a.home b) c then hd.choose else 0

theorem distTo_eq {c : ℚ} (hd : IsDist (h.Graph a.home) a.node (h.vertex a.home b) c) :
    h.distTo b a = c := by
  have hex : ∃ c, IsDist (h.Graph a.home) a.node (h.vertex a.home b) c := ⟨c, hd⟩
  rw [distTo, dif_pos hex]
  exact hex.choose_spec.unique hd

theorem addr_eq_of_home (hhome : a.home = b.home) (hnode : a.node = b.node) : a = b := by
  obtain ⟨ad, ac, an⟩ := a
  obtain ⟨bd, bc, bn⟩ := b
  obtain ⟨rfl, rfl⟩ := Prod.mk.inj hhome
  obtain rfl : an = bn := hnode
  rfl

/-- What is looked up, once the routes of a cluster have been computed. -/
theorem lookup_hier_eq {h' : Hier} {hopcnt : ℕ → ℕ → ℚ} (ha : h.Valid a) (hb : h.Valid b)
    (hshape : h'.toShape = h.toShape)
    (htab : h'.tables (h.index a.home) =
      some (computeTables (h.order a.home) (hopcnt (h.index a.home)) (h.tab a.home)))
    (ha2 : a.node < h.order a.home) (hb2 : h.vertex a.home b < h.order a.home)
    (hw : 0 < (computeRoutes (h.order a.home) (adj (h.order a.home) (h.tab a.home))
      (hopcnt (h.index a.home)) a.node (h.vertex a.home b)).next_hop) :
    h'.lookup_hier a b = .ok (h.get_address (h.tab a.home)
      (computeRoutes (h.order a.home) (adj (h.order a.home) (h.tab a.home)) (hopcnt (h.index a.home))
        a.node (h.vertex a.home b)).next_hop a) := by
  have h1 := ha.home.domain_pos
  have h2 := ha.home.cluster_pos
  have h3 := ha.node_pos
  have h4 := hb.home.domain_pos
  have h5 := ha.home.domain_lt
  simp only [Addr.home] at h1 h2 h4 h5
  have hD : h'.D_ = h.D_ := congrArg Shape.D_ hshape
  have hidx : h'.routeIndex a b = INDEX a.node (h.vertex a.home b) (h.order a.home) := by
    rw [← routeIndex_eq hb]
    unfold routeIndex
    rw [hshape]
  have hroute : (computeTables (h.order a.home) (hopcnt (h.index a.home)) (h.tab a.home)).hroute_
      (h'.routeIndex a b) = _ := hidx ▸ hroute_computeTables ha2 hb2
  have haddr : ∀ w, h'.get_address (computeTables (h.order a.home) (hopcnt (h.index a.home))
      (h.tab a.home)) w a = h.get_address (h.tab a.home) w a := by
    intro w
    unfold get_address
    rw [hshape]
    rfl
  have htab' : h'.tables (h'.index (a.domain, a.cluster)) =
      some (computeTables (h.order a.home) (hopcnt (h.index a.home)) (h.tab a.home)) := by
    rw [hshape]
    exact htab
  unfold lookup_hier
  rw [if_neg (by omega), if_neg (by omega), htab']
  simp only [hD, if_pos (Or.inl h5 : a.domain < h.D_ ∨ b.domain < h.D_), hroute]
  rw [if_pos hw, haddr]

/-- **One hop.**  The next hop is at the other end of a link; inside a cluster it is closer, and it
stays in the cluster when the destination is there. -/
theorem lookup_spec {h' : Hier} {hopcnt : ℕ → ℕ → ℚ} (hI : h.Inv {l | l ∈ links})
    (hc : Connected h.toShape links) (ha : h.Valid a) (hb : h.Valid b) (hne : a ≠ b)
    (hfin : FiniteCosts (h.order a.home) (adj (h.order a.home) (h.tab a.home)))
    (hshape : h'.toShape = h.toShape)
    (htab : h'.tables (h.index a.home) =
      some (computeTables (h.order a.home) (hopcnt (h.index a.home)) (h.tab a.home))) :
    ∃ a', h.Valid a' ∧
      (h'.lookup_hier a b = .ok (some a') ∧ ∃ l ∈ links, l.src = a ∧ l.dst = a') ∧
      (a'.home = a.home → h.distTo b a' < h.distTo b a) ∧
      (b.home = a.home → a'.home = a.home) := by
  set p := a.home
  have hp : h.IsCluster p := ha.home
  have hpos := positiveCosts hI hp
  have hvertexa : h.vertex p a = a.node := if_pos rfl
  obtain ⟨ha1, ha2, -⟩ := vertex_bounds hp ha
  obtain ⟨hb1, hb2, hb3⟩ := vertex_bounds hp hb
  rw [hvertexa] at ha1 ha2
  have hnv : h.vertex p b ≠ a.node := by
    intro heq
    have hhome : b.home = p := hb3.mp (heq ▸ ha.node_le)
    rw [vertex, if_pos hhome] at heq
    exact hne (addr_eq_of_home hhome.symm heq.symm)
  -- the first hop of a shortest path
  obtain ⟨-, hhop⟩ := computeRoutes_shortest hpos hfin (hopcnt (h.index p)) ha1 ha2 hb1 hb2 hnv
  obtain ⟨c, hdist, hvia⟩ := hhop (reachable_vertex hI hc hp ha rfl hb)
  set w := (computeRoutes (h.order p) (adj (h.order p) (h.tab p)) (hopcnt (h.index p)) a.node
    (h.vertex p b)).next_hop
  obtain ⟨⟨-, hw, -⟩, l, hmem, hW⟩ := (graph_edge hI hp).mp hvia.edge
  obtain ⟨hs, hnode, hwv⟩ := writes_node (hc.proper l hmem) ha.node_le hW
  have hla : l.src = a := addr_eq_of_home hs hnode.symm
  have hlookup : h'.lookup_hier a b = .ok (h.get_address (h.tab p) w a) :=
    lookup_hier_eq ha hb hshape htab ha2 hb2 (show 0 < w by omega)
  by_cases hin : l.dst.home = p
  · -- the next hop is a node of the cluster
    have hwn : w = l.dst.node := hwv.trans (if_pos hin)
    have haddr : h.get_address (h.tab p) w a = some l.dst := by
      have hle := (hc.proper l hmem).dst.node_le
      rw [hin, ← hwn] at hle
      unfold get_address
      simp only
      rw [if_pos (show w ≤ h.size (a.domain, a.cluster) from hle)]
      exact congrArg some (addr_eq_of_home (b := l.dst) hin.symm hwn)
    refine ⟨l.dst, (hc.proper l hmem).dst, ⟨by rw [hlookup, haddr], l, hmem, hla, rfl⟩, fun _ => ?_,
      fun _ => hin⟩
    obtain ⟨c', hdist'⟩ := hvia.isDist hdist
    have hlt := hvia.dist_lt (edge_pos hpos) hdist hdist'
    rw [hwn] at hdist'
    rw [distTo_eq hdist, distTo_eq (a := l.dst) (by rw [hin]; exact hdist')]
    exact hlt
  · -- the next hop is at the other end of a link out of the cluster
    have hlarge : h.size p < w := by
      rw [hwv, vertex, if_neg hin]
      exact (border_bounds hp (hc.proper l hmem).dst).1
    obtain ⟨l', hmem', hs', hv', hcon⟩ := hI.connect l hmem (hs.symm ▸ hin)
    rw [hs] at hv' hcon
    have hhome' : l'.dst.home ≠ p := by
      intro heq
      have hle := (vertex_bounds hp (hc.proper l' hmem').dst).2.2.mpr heq
      rw [hv', ← hwv] at hle
      omega
    have haddr : h.get_address (h.tab p) w a = some l'.dst := by
      rw [get_address_border hlarge, hwv, ← hcon, hla]
    refine ⟨l'.dst, (hc.proper l' hmem').dst,
      ⟨by rw [hlookup, haddr], l', hmem', hs'.trans hla, rfl⟩, fun heq => absurd heq hhome',
      fun hbp => ?_⟩
    obtain ⟨d, c', e, hwalk, -⟩ := hvia.tail
    have hborder := walk_border hI hc.proper hp hwalk hlarge
    exact absurd (hb3.mpr hbp) (not_le.mpr hborder)

/-! ## Forwarding -/

theorem finite_valid (h : Shape) : {a | h.Valid a}.Finite := by
  refine ((Set.finite_Iio h.D_).biUnion fun x _ => (Set.finite_Iio (h.C_ x)).biUnion fun y _ =>
    (Set.finite_Iic (h.size (x, y))).image (Addr.mk x y)).subset fun a ha => ?_
  simp only [Set.mem_iUnion]
  exact ⟨a.domain, ha.home.domain_lt, a.cluster, ha.home.cluster_lt, a.node, ha.node_le, rfl⟩

theorem wide_hier_init (D_ : ℕ) (C_ : ℕ → ℕ) (size : ℕ → ℕ → ℕ) :
    (hier_init D_ C_ size).Wide := by
  have hfold : ∀ (l : List ℕ) (m : ℕ),
      m ≤ l.foldl (fun m i => if m < C_ i then C_ i else m) m ∧
        ∀ x ∈ l, C_ x ≤ l.foldl (fun m i => if m < C_ i then C_ i else m) m := by
    intro l
    induction l with
    | nil => exact fun m => ⟨le_rfl, by simp⟩
    | cons y l ih =>
      intro m
      obtain ⟨h1, h2⟩ := ih (if m < C_ y then C_ y else m)
      have hy : m ≤ (if m < C_ y then C_ y else m) ∧ C_ y ≤ (if m < C_ y then C_ y else m) := by
        split_ifs <;> omega
      refine ⟨hy.1.trans h1, fun x hx => ?_⟩
      rcases List.mem_cons.mp hx with rfl | hx
      · exact hy.2.trans h1
      · exact h2 x hx
  intro x hx hxD
  exact (hfold _ 0).2 x (List.mem_range'_1.mpr ⟨hx, by change x < D_ at hxD; omega⟩)

/-- The hierarchy after all links have been inserted. -/
theorem insertLinks_spec (D_ : ℕ) (C_ : ℕ → ℕ) (size : ℕ → ℕ → ℕ)
    (hc : Connected (hier_init D_ C_ size).toShape links) :
    ((hier_init D_ C_ size).insertLinks links).Inv {l | l ∈ links} ∧
      ((hier_init D_ C_ size).insertLinks links).toShape = (hier_init D_ C_ size).toShape := by
  have hI := inv_empty (wide_hier_init D_ C_ size) fun _ => rfl
  obtain ⟨h1, h2⟩ := hI.insertLinks (fun l hl => hl.elim) hc.proper
  rw [Set.empty_union] at h1
  exact ⟨h1, h2⟩

/-- `dst` is reached by asking `lookup_hier` again and again: over links, without visiting a node
twice. -/
def Reaches (h : Hier) (links : List Link) (src dst : Addr) : Prop :=
  ∃ (v : ℕ → Addr) (n : ℕ), v 0 = src ∧
    Follows (fun a a' => h.lookup_hier a dst = .ok (some a') ∧
      ∃ l ∈ links, l.src = a ∧ l.dst = a') v n ∧ v n = dst ∧ Simple v n

/-- It leads back to a cluster that it has left. -/
def ComesBack (h : Hier) (links : List Link) (src dst : Addr) : Prop :=
  ∃ (v : ℕ → Addr) (n : ℕ), v 0 = src ∧
    Follows (fun a a' => h.lookup_hier a dst = .ok (some a') ∧
      ∃ l ∈ links, l.src = a ∧ l.dst = a') v n ∧ Returns Addr.home v n

/-- **Hierarchical forwarding reaches its destination without visiting a node twice, or returns to
a cluster that it has left.**  In the cluster of the destination it never returns. -/
theorem hier_forwarding (D_ : ℕ) (C_ : ℕ → ℕ) (size : ℕ → ℕ → ℕ) (links : List Link)
    (hopcnt : ℕ → ℕ → ℚ) (hc : Connected (hier_init D_ C_ size).toShape links)
    (hfin : ∀ p, (hier_init D_ C_ size).IsCluster p →
      FiniteCosts ((hier_init D_ C_ size).order p) (adj ((hier_init D_ C_ size).order p)
        (((hier_init D_ C_ size).insertLinks links).tab p)))
    (src dst : Addr) (hs : (hier_init D_ C_ size).Valid src) (hd : (hier_init D_ C_ size).Valid dst)
    (hne : src ≠ dst) :
    ∃ h, hier_compute hopcnt ((hier_init D_ C_ size).insertLinks links) = some h ∧
      (h.Reaches links src dst ∨ (src.home ≠ dst.home ∧ h.ComesBack links src dst)) := by
  obtain ⟨hI, hshape⟩ := insertLinks_spec D_ C_ size hc
  set g := (hier_init D_ C_ size).insertLinks links
  rw [← hshape] at hc hfin hs hd
  have hsome : ∀ p, g.IsCluster p → (g.tables (g.index p)).isSome := by
    intro p hp
    obtain ⟨l, hmem, ht⟩ := exists_touches hc hp hs hd hne
    exact hI.alloc l hmem p hp ht
  obtain ⟨h, hcomp, hshape', htab⟩ := hier_compute_spec hopcnt hI.wide hsome
  refine ⟨h, hcomp, ?_⟩
  have hhop : ∀ a, g.Valid a → a ≠ dst → _ := fun a ha hne =>
    lookup_spec hI hc ha hd hne (hfin _ ha.home) hshape' (htab _ ha.home)
  by_cases hin : src.home = dst.home
  · -- everything stays in the cluster
    obtain ⟨v, n, h0, hv, hend⟩ := reaches_or_returns
      (fun a a' => (h.lookup_hier a dst = .ok (some a') ∧
        ∃ l ∈ links, l.src = a ∧ l.dst = a') ∧ a'.home = dst.home) Addr.home (g.distTo dst)
      (S := {a | g.Valid a ∧ a.home = dst.home})
      ((finite_valid g.toShape).subset fun a ha => ha.1)
      (fun a ha hne => by
        obtain ⟨a', h1, h2, h3, h4⟩ := hhop a ha.1 hne
        exact ⟨a', ⟨h1, (h4 ha.2.symm).trans ha.2⟩, ⟨h2, (h4 ha.2.symm).trans ha.2⟩, h3⟩)
      (show src ∈ {a | g.Valid a ∧ a.home = dst.home} from ⟨hs, hin⟩)
    have hstay : ∀ i ≤ n, (v i).home = dst.home := by
      intro i hi
      rcases Nat.eq_zero_or_pos i with rfl | hpos
      · rw [h0]
        exact hin
      · have := (hv (i - 1) (by omega)).2
        rwa [Nat.sub_add_cancel hpos] at this
    refine Or.inl ⟨v, n, h0, fun i hi => (hv i hi).1, ?_⟩
    rcases hend with hend | ⟨i, j, hij, hj, -, hne'⟩
    · exact hend
    · exact absurd ((hstay j (by omega)).trans (hstay n le_rfl).symm) hne'
  · obtain ⟨v, n, h0, hv, hend⟩ := reaches_or_returns
      (fun a a' => h.lookup_hier a dst = .ok (some a') ∧ ∃ l ∈ links, l.src = a ∧ l.dst = a')
      Addr.home (g.distTo dst) (finite_valid g.toShape) (fun a ha hne => by
        obtain ⟨a', h1, h2, h3, -⟩ := hhop a ha hne
        exact ⟨a', h1, h2, h3⟩) (show src ∈ {a | g.Valid a} from hs)
    rcases hend with hend | hend
    · exact Or.inl ⟨v, n, h0, hv, hend⟩
    · exact Or.inr ⟨hin, v, n, h0, hv, hend⟩

/-! ## Two hierarchies -/

/-- One cluster of two nodes, and the link between them. -/
def twoNodes : List Link := [⟨⟨1, 1, 1⟩, ⟨1, 1, 2⟩, 1⟩, ⟨⟨1, 1, 2⟩, ⟨1, 1, 1⟩, 1⟩]

/-- The hierarchy of these nodes. -/
def oneCluster : Hier := hier_init 2 (fun _ => 2) fun _ _ => 2

theorem oneCluster_isCluster {p : ℕ × ℕ} (hp : oneCluster.IsCluster p) : p = (1, 1) := by
  obtain ⟨x, y⟩ := p
  obtain ⟨h1, h2, h3, h4⟩ := hp
  have h2' : x < 2 := h2
  have h4' : y < 2 := h4
  dsimp only at h1 h3
  obtain rfl : x = 1 := by omega
  obtain rfl : y = 1 := by omega
  rfl

theorem oneCluster_valid {a : Addr} (ha : oneCluster.Valid a) :
    a ∈ [(⟨1, 1, 1⟩ : Addr), ⟨1, 1, 2⟩] := by
  obtain ⟨x, y, z⟩ := a
  obtain ⟨hp, h1, h2⟩ := ha
  obtain ⟨rfl, rfl⟩ := Prod.mk.inj (oneCluster_isCluster hp)
  have h2' : z ≤ 2 := h2
  dsimp only at h1
  interval_cases z
  · exact List.mem_cons_self
  · exact List.mem_cons_of_mem _ List.mem_cons_self

theorem connected_twoNodes : Connected oneCluster.toShape twoNodes := by
  refine ⟨by decide, by decide, fun a b ha hb _ => ?_, fun p q hp hq _ => ?_, fun x y hx hy => ?_⟩
  · have hstep : ∀ a ∈ [(⟨1, 1, 1⟩ : Addr), ⟨1, 1, 2⟩], ∀ b ∈ [(⟨1, 1, 1⟩ : Addr), ⟨1, 1, 2⟩],
        a = b ∨ (a.home = b.home ∧ ∃ l ∈ twoNodes, l.src = a ∧ l.dst = b) := by decide
    rcases hstep a (oneCluster_valid ha) b (oneCluster_valid hb) with rfl | hab
    · exact .refl
    · exact .single hab
  · rw [oneCluster_isCluster hp, oneCluster_isCluster hq]
  · have hx' : x < 2 := hx.2
    have hy' : y < 2 := hy.2
    obtain rfl : x = y := by omega
    exact .refl

theorem edge_twoNodes {u v : ℕ} {d : ℚ} :
    Edge (oneCluster.order (1, 1))
      (adj (oneCluster.order (1, 1)) ((oneCluster.insertLinks twoNodes).tab (1, 1))) u v d ↔
      d = 1 ∧ ((u = 1 ∧ v = 2) ∨ (u = 2 ∧ v = 1)) := by
  have hmatrix : ∀ u < 6, ∀ v < 6, 1 ≤ u → 1 ≤ v →
      (oneCluster.insertLinks twoNodes).entry (1, 1) u v =
        if (u = 1 ∧ v = 2) ∨ (u = 2 ∧ v = 1) then 1 else HINFINITY := by decide +kernel
  constructor
  · rintro ⟨⟨hu, hu'⟩, ⟨hv, hv'⟩, hd, hne⟩
    have hm := hmatrix u hu' v hv' hu hv
    have hd' : (((oneCluster.insertLinks twoNodes).entry (1, 1) u v : ℤ) : ℚ) = d := hd
    have hne' : (oneCluster.insertLinks twoNodes).entry (1, 1) u v ≠ HINFINITY :=
      cast_ne_infinity.mp (hd'.symm ▸ hne)
    by_cases hc : (u = 1 ∧ v = 2) ∨ (u = 2 ∧ v = 1)
    · rw [hm, if_pos hc] at hd'
      exact ⟨hd'.symm.trans Int.cast_one, hc⟩
    · exact absurd (hm.trans (if_neg hc)) hne'
  · rintro ⟨rfl, hc⟩
    have hu : (1 ≤ u ∧ u < 6) ∧ 1 ≤ v ∧ v < 6 := by omega
    have hm := hmatrix u hu.1.2 v hu.2.2 hu.1.1 hu.2.1
    rw [if_pos hc] at hm
    refine ⟨hu.1, hu.2, ?_, by unfold INFINITY; norm_num⟩
    exact (congrArg (Int.cast : ℤ → ℚ) hm).trans Int.cast_one

theorem finiteCosts_twoNodes {p : ℕ × ℕ} (hp : oneCluster.IsCluster p) :
    FiniteCosts (oneCluster.order p)
      (adj (oneCluster.order p) ((oneCluster.insertLinks twoNodes).tab p)) := by
  obtain rfl := oneCluster_isCluster hp
  rintro u v ⟨c, hw⟩
  have hshort : u = v ∨ ((u = 1 ∧ v = 2) ∨ (u = 2 ∧ v = 1)) := by
    induction hw with
    | nil => exact Or.inl rfl
    | snoc _ e ih =>
      have := (edge_twoNodes.mp e).2
      omega
  rcases hshort with rfl | hc
  · exact ⟨0, Walk.nil, infinity_pos⟩
  · refine ⟨_, Walk.nil.snoc (edge_twoNodes.mpr ⟨rfl, hc⟩), ?_⟩
    unfold INFINITY
    norm_num

theorem hier_forwarding_twoNodes :
    ∃ h, hier_compute (fun _ _ => 0) ((hier_init 2 (fun _ => 2) fun _ _ => 2).insertLinks twoNodes) =
      some h ∧ h.Reaches twoNodes ⟨1, 1, 1⟩ ⟨1, 1, 2⟩ := by
  obtain ⟨h, hcomp, hr⟩ := hier_forwarding 2 (fun _ => 2) (fun _ _ => 2) twoNodes (fun _ _ => 0)
    connected_twoNodes (fun _ hp => finiteCosts_twoNodes hp) ⟨1, 1, 1⟩ ⟨1, 1, 2⟩ (by decide)
    (by decide) (by decide)
  exact ⟨h, hcomp, hr.resolve_right fun hback => hback.1 rfl⟩

/-- A domain of three clusters: 1 and 2 have two nodes, 3 has one. -/
def threeClusters : Hier := hier_init 2 (fun _ => 4) fun _ c => if c = 3 then 1 else 2

/-- Every cluster is linked to the other two.  The link inside cluster 2 is long, and so is the one
from cluster 1 to cluster 3. -/
def threeLinks : List Link :=
  [⟨⟨1, 1, 1⟩, ⟨1, 1, 2⟩, 1⟩, ⟨⟨1, 2, 1⟩, ⟨1, 2, 2⟩, 100⟩, ⟨⟨1, 1, 1⟩, ⟨1, 2, 1⟩, 1⟩,
    ⟨⟨1, 1, 2⟩, ⟨1, 3, 1⟩, 5⟩, ⟨⟨1, 2, 2⟩, ⟨1, 3, 1⟩, 1⟩].flatMap fun l => [l, ⟨l.dst, l.src, l.cost⟩]

theorem connected_threeLinks : Connected threeClusters.toShape threeLinks := by
  have hclusters : ∀ p, threeClusters.IsCluster p → p ∈ [(1, 1), (1, 2), (1, 3)] := by
    rintro ⟨x, y⟩ ⟨h1, h2, h3, h4⟩
    have h2' : x < 2 := h2
    have h4' : y < 4 := h4
    dsimp only at h1 h3
    obtain rfl : x = 1 := by omega
    interval_cases y <;> decide
  have hnodes : ∀ a, threeClusters.Valid a →
      a ∈ [(⟨1, 1, 1⟩ : Addr), ⟨1, 1, 2⟩, ⟨1, 2, 1⟩, ⟨1, 2, 2⟩, ⟨1, 3, 1⟩] := by
    rintro ⟨x, y, z⟩ ⟨hp, h1, h2⟩
    have hmem := hclusters _ hp
    dsimp only at h1
    simp only [Addr.home, List.mem_cons, Prod.mk.injEq, List.not_mem_nil, or_false] at hmem
    have hle : z ≤ threeClusters.size (x, y) := h2
    rcases hmem with ⟨rfl, rfl⟩ | ⟨rfl, rfl⟩ | ⟨rfl, rfl⟩
    · rw [show threeClusters.size (1, 1) = 2 by decide] at hle
      interval_cases z <;> decide
    · rw [show threeClusters.size (1, 2) = 2 by decide] at hle
      interval_cases z <;> decide
    · rw [show threeClusters.size (1, 3) = 1 by decide] at hle
      interval_cases z
      decide
  refine ⟨by decide, by decide, fun a b ha hb hab => ?_, fun p q hp hq hpq => ?_,
    fun x y hx hy => ?_⟩
  · have hstep : ∀ a ∈ [(⟨1, 1, 1⟩ : Addr), ⟨1, 1, 2⟩, ⟨1, 2, 1⟩, ⟨1, 2, 2⟩, ⟨1, 3, 1⟩],
        ∀ b ∈ [(⟨1, 1, 1⟩ : Addr), ⟨1, 1, 2⟩, ⟨1, 2, 1⟩, ⟨1, 2, 2⟩, ⟨1, 3, 1⟩], a.home = b.home →
          a = b ∨ (a.home = b.home ∧ ∃ l ∈ threeLinks, l.src = a ∧ l.dst = b) := by decide
    rcases hstep a (hnodes a ha) b (hnodes b hb) hab with rfl | hab
    · exact .refl
    · exact .single hab
  · have hstep : ∀ p ∈ [(1, 1), (1, 2), (1, 3)], ∀ q ∈ [(1, 1), (1, 2), (1, 3)],
        p = q ∨ (p.1 = q.1 ∧ ∃ l ∈ threeLinks, l.src.home = p ∧ l.dst.home = q) := by decide
    rcases hstep p (hclusters p hp) q (hclusters q hq) with rfl | hpq
    · exact .refl
    · exact .single hpq
  · have hx' : x < 2 := hx.2
    have hy' : y < 2 := hy.2
    obtain rfl : x = y := by omega
    exact .refl

/-- **Clusters disagree.**  Cluster 1 sends packets for cluster 3 over cluster 2, which it takes to
cost nothing to cross; cluster 2 sends them back over cluster 1. -/
theorem clusters_disagree :
    Connected threeClusters.toShape threeLinks ∧ threeClusters.Valid ⟨1, 1, 1⟩ ∧
      threeClusters.Valid ⟨1, 3, 1⟩ ∧
      ∃ h, hier_compute (fun _ _ => 0) (threeClusters.insertLinks threeLinks) = some h ∧
        ¬ h.Reaches threeLinks ⟨1, 1, 1⟩ ⟨1, 3, 1⟩ := by
  refine ⟨connected_threeLinks, by decide, by decide, ?_⟩
  have hrun : (hier_compute (fun _ _ => 0) (threeClusters.insertLinks threeLinks)).map
      (fun h => ((h.lookup_hier ⟨1, 1, 1⟩ ⟨1, 3, 1⟩).toOption,
        (h.lookup_hier ⟨1, 2, 1⟩ ⟨1, 3, 1⟩).toOption)) =
      some (some (some ⟨1, 2, 1⟩), some (some ⟨1, 1, 1⟩)) := by decide +kernel
  obtain ⟨h, hcomp, hlook⟩ := Option.map_eq_some_iff.mp hrun
  obtain ⟨h1, h2⟩ := Prod.mk.inj hlook
  refine ⟨h, hcomp, ?_⟩
  rintro ⟨v, n, h0, hv, hend, -⟩
  have hback : ∀ i ≤ n, v i = ⟨1, 1, 1⟩ ∨ v i = ⟨1, 2, 1⟩ := by
    intro i
    induction i with
    | zero => exact fun _ => Or.inl h0
    | succ i ih =>
      intro hi
      have hnext := (hv i (by omega)).1
      rcases ih (by omega) with heq | heq
      · rw [heq] at hnext
        rw [hnext] at h1
        exact Or.inr (Option.some.inj (Option.some.inj h1))
      · rw [heq] at hnext
        rw [hnext] at h2
        exact Or.inl (Option.some.inj (Option.some.inj h2))
  rcases hback n le_rfl with heq | heq
  · rw [hend] at heq
    exact absurd heq (by decide)
  · rw [hend] at heq
    exact absurd heq (by decide)

end Hier

end Ns2.Routing
