import Ns2.Routing.Hierarchy

/-!
# The matrices of the clusters

* `vertex`, `border` — the vertex of an address in the matrix of a cluster.
* `Writes` — the entries that a link writes.
* `tab_hier_insert`, `hadj_hier_insert`, `hconnect_hier_insert` — what `hier_insert` does.
* `Inv` — the matrices have an entry for every link and nothing else, and `hconnect_` knows where
  the links lead.
* `hier_compute_spec` — the tables after `hier_compute`.
-/

namespace Ns2.Routing

/-- The domain and the cluster of an address. -/
def Addr.home (a : Addr) : ℕ × ℕ := (a.domain, a.cluster)

/-- A link that is inserted. -/
structure Link where
  src : Addr
  dst : Addr
  cost : ℤ
deriving DecidableEq

theorem INDEX_inj {s u v u' v' : ℕ} (hv : v < s) (hv' : v' < s) :
    INDEX u v s = INDEX u' v' s ↔ u = u' ∧ v = v' := by
  refine ⟨fun h => ?_, fun ⟨hu, hv⟩ => by rw [hu, hv]⟩
  unfold INDEX at h
  have hs : 0 < s := by omega
  have hdiv := congrArg (· / s) h
  have hmod := congrArg (· % s) h
  simp only [Nat.mul_add_div hs, Nat.div_eq_of_lt hv, Nat.div_eq_of_lt hv'] at hdiv
  simp only [Nat.mul_add_mod, Nat.mod_eq_of_lt hv, Nat.mod_eq_of_lt hv'] at hmod
  exact ⟨by omega, hmod⟩

namespace Shape

variable {h : Shape} {p q : ℕ × ℕ} {a : Addr}

/-- A cluster of the hierarchy. -/
structure IsCluster (h : Shape) (p : ℕ × ℕ) : Prop where
  domain_pos : 1 ≤ p.1
  domain_lt : p.1 < h.D_
  cluster_pos : 1 ≤ p.2
  cluster_lt : p.2 < h.C_ p.1

instance (h : Shape) (p : ℕ × ℕ) : Decidable (h.IsCluster p) :=
  decidable_of_iff ((1 ≤ p.1 ∧ p.1 < h.D_) ∧ 1 ≤ p.2 ∧ p.2 < h.C_ p.1)
    ⟨fun ⟨⟨h1, h2⟩, h3, h4⟩ => ⟨h1, h2, h3, h4⟩, fun ⟨h1, h2, h3, h4⟩ => ⟨⟨h1, h2⟩, h3, h4⟩⟩

/-- An address of the hierarchy. -/
structure Valid (h : Shape) (a : Addr) : Prop where
  home : h.IsCluster a.home
  node_pos : 1 ≤ a.node
  node_le : a.node ≤ h.size a.home

instance (h : Shape) (a : Addr) : Decidable (h.Valid a) :=
  decidable_of_iff (h.IsCluster a.home ∧ 1 ≤ a.node ∧ a.node ≤ h.size a.home)
    ⟨fun ⟨h1, h2, h3⟩ => ⟨h1, h2, h3⟩, fun ⟨h1, h2, h3⟩ => ⟨h1, h2, h3⟩⟩

/-- A link that may be inserted. -/
structure Proper (h : Shape) (l : Link) : Prop where
  src : h.Valid l.src
  dst : h.Valid l.dst
  cost_pos : 0 < l.cost
  cost_lt : l.cost < HINFINITY

instance (h : Shape) (l : Link) : Decidable (h.Proper l) :=
  decidable_of_iff ((h.Valid l.src ∧ h.Valid l.dst) ∧ 0 < l.cost ∧ l.cost < HINFINITY)
    ⟨fun ⟨⟨h1, h2⟩, h3, h4⟩ => ⟨h1, h2, h3, h4⟩, fun ⟨h1, h2, h3, h4⟩ => ⟨⟨h1, h2⟩, h3, h4⟩⟩

/-- `Cmax_` is large enough. -/
def Wide (h : Shape) : Prop := ∀ x, 1 ≤ x → x < h.D_ → h.C_ x ≤ h.Cmax_

theorem index_inj (hw : h.Wide) (hp : h.IsCluster p) (hq : h.IsCluster q)
    (heq : h.index p = h.index q) : p = q := by
  have hp2 := hp.cluster_lt.trans_le (hw p.1 hp.domain_pos hp.domain_lt)
  have hq2 := hq.cluster_lt.trans_le (hw q.1 hq.domain_pos hq.domain_lt)
  obtain ⟨h1, h2⟩ := (INDEX_inj hp2 hq2).mp heq
  exact Prod.ext h1 h2

theorem mem_clusters {x : ℕ} (hx : 1 ≤ x ∧ x < h.D_) :
    p ∈ h.clusters x ↔ h.IsCluster p ∧ p.1 = x := by
  unfold clusters
  rw [List.mem_map]
  constructor
  · rintro ⟨y, hy, rfl⟩
    rw [List.mem_range'_1] at hy
    exact ⟨⟨hx.1, hx.2, hy.1, by dsimp only; omega⟩, rfl⟩
  · rintro ⟨hp, rfl⟩
    have := hp.cluster_pos
    have := hp.cluster_lt
    exact ⟨p.2, List.mem_range'_1.mpr ⟨by omega, by omega⟩, rfl⟩

theorem mem_allClusters : p ∈ h.allClusters ↔ h.IsCluster p := by
  unfold allClusters
  rw [List.mem_flatMap]
  constructor
  · rintro ⟨x, hx, hp⟩
    rw [List.mem_range'_1] at hx
    exact ((mem_clusters ⟨hx.1, by omega⟩).mp hp).1
  · intro hp
    have h1 := hp.domain_pos
    have h2 := hp.domain_lt
    exact ⟨p.1, List.mem_range'_1.mpr ⟨by omega, by omega⟩, (mem_clusters ⟨h1, h2⟩).mpr ⟨hp, rfl⟩⟩

theorem mem_clusters_domain (hp : h.IsCluster p) (ha : h.Valid a) :
    p ∈ h.clusters a.domain ↔ a.domain = p.1 :=
  (mem_clusters (x := a.domain) ⟨ha.home.domain_pos, ha.home.domain_lt⟩).trans
    ⟨fun hm => hm.2.symm, fun heq => ⟨hp, heq.symm⟩⟩

theorem nodup_clusters (h : Shape) (x : ℕ) : (h.clusters x).Nodup :=
  List.Nodup.map (fun _ _ heq => congrArg Prod.snd heq) List.nodup_range'

theorem nodup_allClusters (h : Shape) : h.allClusters.Nodup := by
  refine List.nodup_flatMap.mpr ⟨fun x _ => h.nodup_clusters x, ?_⟩
  refine List.Pairwise.imp (R := (· ≠ ·)) (fun {x y} hxy p hx hy => hxy ?_) List.nodup_range'
  obtain ⟨_, _, rfl⟩ := List.mem_map.mp hx
  obtain ⟨_, _, heq⟩ := List.mem_map.mp hy
  exact (congrArg Prod.fst heq).symm

/-! ## Vertices -/

/-- The vertex of a cluster of the domain. -/
def clusterVertex (h : Shape) (p : ℕ × ℕ) (y : ℕ) : ℕ := h.size p + y

/-- The vertex of a domain. -/
def domainVertex (h : Shape) (p : ℕ × ℕ) (x : ℕ) : ℕ := h.size p + (h.C_ p.1 - 1) + x

/-- The vertex of the cluster or the domain of an address. -/
def border (h : Shape) (p : ℕ × ℕ) (a : Addr) : ℕ :=
  if a.domain = p.1 then h.clusterVertex p a.cluster else h.domainVertex p a.domain

/-- The vertex of an address. -/
def vertex (h : Shape) (p : ℕ × ℕ) (a : Addr) : ℕ := if a.home = p then a.node else h.border p a

/-- The link writes this entry in the matrix of a cluster. -/
def Writes (h : Shape) (p : ℕ × ℕ) (l : Link) (u v : ℕ) : Prop :=
  (l.src.home = p ∧ u = l.src.node ∧ v = h.vertex p l.dst) ∨
  (l.src.domain = p.1 ∧ l.dst.home ≠ l.src.home ∧ u = h.clusterVertex p l.src.cluster ∧
    v = h.border p l.dst) ∨
  (l.dst.domain ≠ l.src.domain ∧ u = h.domainVertex p l.src.domain ∧
    v = h.domainVertex p l.dst.domain)

/-- The link writes an entry in the matrix of a cluster. -/
def Touches (p : ℕ × ℕ) (l : Link) : Prop :=
  l.dst.domain ≠ l.src.domain ∨ l.src.home = p ∨ (l.src.domain = p.1 ∧ l.dst.home ≠ l.src.home)

theorem clusterVertex_lt {y : ℕ} (hy : y < h.C_ p.1) :
    h.clusterVertex p y < h.order p := by
  unfold clusterVertex order
  omega

theorem domainVertex_lt (hp : h.IsCluster p) {x : ℕ} (hx : x < h.D_) :
    h.domainVertex p x < h.order p := by
  have := hp.cluster_lt
  unfold domainVertex order
  omega

/-- The border is behind the nodes. -/
theorem border_bounds (hp : h.IsCluster p) (ha : h.Valid a) :
    h.size p < h.border p a ∧ h.border p a < h.order p := by
  have h1 := ha.home.domain_pos
  have h2 := ha.home.cluster_pos
  unfold border
  split_ifs with hd
  · refine ⟨by unfold clusterVertex; exact Nat.lt_add_of_pos_right h2, clusterVertex_lt ?_⟩
    rw [← hd]
    exact ha.home.cluster_lt
  · exact ⟨by unfold domainVertex; exact lt_of_lt_of_le (Nat.lt_add_of_pos_right h1) (by dsimp only [Addr.home]; omega),
      domainVertex_lt hp ha.home.domain_lt⟩

theorem vertex_bounds (hp : h.IsCluster p) (ha : h.Valid a) :
    1 ≤ h.vertex p a ∧ h.vertex p a < h.order p ∧ (h.vertex p a ≤ h.size p ↔ a.home = p) := by
  unfold vertex
  split_ifs with hhome
  · have hle := ha.node_le
    rw [hhome] at hle
    have := hp.cluster_lt
    refine ⟨ha.node_pos, ?_, fun _ => hhome, fun _ => hle⟩
    unfold order
    omega
  · obtain ⟨hlow, hhigh⟩ := border_bounds hp ha
    exact ⟨by omega, hhigh, fun hle => absurd hle (not_le.mpr hlow), fun heq => absurd heq hhome⟩

end Shape

namespace Hier

open Shape

variable {h : Hier} {p q : ℕ × ℕ} {l : Link} {u v : ℕ}

/-! ## Assignments -/

/-- The tables of a cluster; before they are allocated they are those of `hier_alloc`. -/
def tab (h : Hier) (p : ℕ × ℕ) : Tables := (h.tables (h.index p)).getD Tables.alloc

/-- An entry of the matrix of a cluster. -/
def entry (h : Hier) (p : ℕ × ℕ) (u v : ℕ) : ℤ := (h.tab p).hadj_ (INDEX u v (h.order p))

/-- The same numbers of domains, clusters and nodes, and no tables lost. -/
structure Extends (h h' : Hier) : Prop where
  shape : h'.toShape = h.toShape
  isSome : ∀ i, (h.tables i).isSome → (h'.tables i).isSome

theorem Extends.trans {h h' h'' : Hier} (h₁ : h.Extends h') (h₂ : h'.Extends h'') : h.Extends h'' :=
  ⟨h₂.shape.trans h₁.shape, fun i hi => h₂.isSome i (h₁.isSome i hi)⟩

theorem extends_modify (h : Hier) (p : ℕ × ℕ) (f : Tables → Tables) : h.Extends (h.modify p f) := by
  refine ⟨rfl, fun i hi => ?_⟩
  unfold modify
  by_cases heq : i = h.index p
  · simp [heq]
  · simpa only [Function.update_of_ne heq] using hi

theorem isSome_modify (h : Hier) (p : ℕ × ℕ) (f : Tables → Tables) :
    ((h.modify p f).tables (h.index p)).isSome := by
  simp [modify]

theorem tab_modify (hw : h.Wide) (hp : h.IsCluster p) (hq : h.IsCluster q) (f : Tables → Tables) :
    (h.modify q f).tab p = if p = q then f (h.tab p) else h.tab p := by
  have hidx : (h.modify q f).index p = h.index p := rfl
  unfold tab
  rw [hidx, modify]
  by_cases hpq : p = q
  · rw [if_pos hpq, hpq]
    simp only [Function.update_self, Option.getD_some]
  · rw [if_neg hpq]
    simp only [Function.update_of_ne fun heq => hpq (index_inj hw hp hq heq)]

/-- Assignments to the tables of the clusters of a list. -/
theorem foldl_modify (f : ℕ × ℕ → Tables → Tables) (ps : List (ℕ × ℕ)) (hnd : ps.Nodup) (h : Hier)
    (hw : h.Wide) (hps : ∀ q ∈ ps, h.IsCluster q) :
    h.Extends (ps.foldl (fun g q => g.modify q (f q)) h) ∧
      (∀ p, h.IsCluster p → (ps.foldl (fun g q => g.modify q (f q)) h).tab p =
        if p ∈ ps then f p (h.tab p) else h.tab p) ∧
      ∀ p ∈ ps, ((ps.foldl (fun g q => g.modify q (f q)) h).tables (h.index p)).isSome := by
  induction ps generalizing h with
  | nil => exact ⟨⟨rfl, fun _ hi => hi⟩, fun p _ => by simp, by simp⟩
  | cons q ps ih =>
    obtain ⟨hq, hnd⟩ := List.nodup_cons.mp hnd
    obtain ⟨h1, h2, h3⟩ := ih hnd (h.modify q (f q)) hw fun r hr => hps r (List.mem_cons_of_mem q hr)
    refine ⟨(extends_modify h q (f q)).trans h1, fun p hp => ?_, fun p hp => ?_⟩
    · rw [List.foldl_cons, h2 p hp, tab_modify hw hp (hps q List.mem_cons_self)]
      by_cases hpq : p = q
      · rw [if_pos hpq, if_neg (hpq ▸ hq), if_pos (List.mem_cons.mpr (Or.inl hpq)), hpq]
      · rw [if_neg hpq]
        simp [hpq]
    · rcases List.mem_cons.mp hp with rfl | hp
      · exact h1.isSome _ (isSome_modify h p (f p))
      · exact h3 p hp

/-! ## What a link writes -/

/-- The entries `W` become `c`, the others stay. -/
def Sets (s : ℕ) (c : ℤ) (W : ℕ → ℕ → Prop) (t t' : Tables) : Prop :=
  ∀ u v, u < s → v < s → (W u v → t'.hadj_ (INDEX u v s) = c) ∧
    (¬ W u v → t'.hadj_ (INDEX u v s) = t.hadj_ (INDEX u v s))

section Sets

variable {s i j : ℕ} {c : ℤ} {W W' : ℕ → ℕ → Prop} {t t' t'' : Tables}

theorem Sets.refl (s : ℕ) (c : ℤ) (t : Tables) : Sets s c (fun _ _ => False) t t :=
  fun _ _ _ _ => ⟨False.elim, fun _ => rfl⟩

theorem Sets.trans (h : Sets s c W t t') (h' : Sets s c W' t' t'') :
    Sets s c (fun u v => W u v ∨ W' u v) t t'' := by
  intro u v hu hv
  obtain ⟨h1, h2⟩ := h u v hu hv
  obtain ⟨h3, h4⟩ := h' u v hu hv
  refine ⟨fun hW => ?_, fun hW => ?_⟩
  · by_cases hW' : W' u v
    · exact h3 hW'
    · exact (h4 hW').trans (h1 (hW.resolve_right hW'))
  · exact (h4 fun hw => hW (Or.inr hw)).trans (h2 fun hw => hW (Or.inl hw))

theorem Sets.congr (h : Sets s c W t t') (hW : ∀ u v, W' u v ↔ W u v) : Sets s c W' t t' :=
  fun u v hu hv => ⟨fun hw => (h u v hu hv).1 ((hW u v).mp hw),
    fun hw => (h u v hu hv).2 fun hw' => hw ((hW u v).mpr hw')⟩

theorem Sets.ite {C : Prop} [Decidable C] (h : C → Sets s c W t t') :
    Sets s c (fun u v => C ∧ W u v) t (if C then t' else t) := by
  by_cases hC : C
  · rw [if_pos hC]
    exact (h hC).congr fun u v => and_iff_right hC
  · rw [if_neg hC]
    exact (Sets.refl s c t).congr fun u v => iff_of_false (fun hw => hC hw.1) id

theorem sets_setAdj (hj : j < s) (t : Tables) :
    Sets s c (fun u v => u = i ∧ v = j) t (t.setAdj (INDEX i j s) c) := by
  intro u v _ hv
  unfold Tables.setAdj
  refine ⟨fun ⟨hu', hv'⟩ => ?_, fun hW => ?_⟩
  · rw [hu', hv']
    exact Function.update_self _ _ _
  · exact Function.update_of_ne (fun heq => hW ((INDEX_inj hv hj).mp heq)) _ _

end Sets

theorem N_N_INDEX_eq (i j a b c : ℕ) : N_N_INDEX i j a b c = INDEX i j (a + b + c) := by
  rw [N_N_INDEX, INDEX, Nat.mul_comm]

theorem N_C_INDEX_eq (i j a b c : ℕ) : N_C_INDEX i j a b c = INDEX i (a + j) (a + b + c) := by
  rw [N_C_INDEX, INDEX, Nat.mul_comm]

theorem N_D_INDEX_eq (i j a b c : ℕ) :
    N_D_INDEX i j a b c = INDEX i (a + (b - 1) + j) (a + b + c) := by
  rw [N_D_INDEX, INDEX, Nat.mul_comm]

theorem C_C_INDEX_eq (i j a b c : ℕ) :
    C_C_INDEX i j a b c = INDEX (a + i) (a + j) (a + b + c) := by
  rw [C_C_INDEX, INDEX, Nat.mul_comm]

theorem C_D_INDEX_eq (i j a b c : ℕ) :
    C_D_INDEX i j a b c = INDEX (a + i) (a + (b - 1) + j) (a + b + c) := by
  rw [C_D_INDEX, INDEX, Nat.mul_comm]

theorem D_D_INDEX_eq (i j a b c : ℕ) :
    D_D_INDEX i j a b c = INDEX (a + (b - 1) + i) (a + (b - 1) + j) (a + b + c) := by
  rw [D_D_INDEX, INDEX, Nat.mul_comm]

/-- What `hier_insert` does to the tables of a cluster. -/
structure Inserted (h : Shape) (p : ℕ × ℕ) (l : Link) (t t' : Tables) : Prop where
  hadj : Sets (h.order p) l.cost (h.Writes p l) t t'
  hconnect : ∀ k, t'.hconnect_ k =
    if l.src.home = p ∧ l.dst.home ≠ p ∧
        k = l.src.node * (h.C_ p.1 + h.D_) + (h.vertex p l.dst - h.size p) then some l.dst
    else t.hconnect_ k

section Insert

variable {t : Tables}

/-- A link inside a cluster. -/
theorem inserted_node (hsrc : h.Valid l.src) (hdst : h.Valid l.dst)
    (hhome : l.dst.home = l.src.home) :
    Inserted h.toShape p l t (if p = l.src.home then t.setAdj
      (N_N_INDEX l.src.node l.dst.node (h.size l.src.home) (h.C_ l.src.domain) h.D_) l.cost
      else t) where
  hadj := by
    rw [N_N_INDEX_eq]
    refine (Sets.ite (W := fun u v => u = l.src.node ∧ v = l.dst.node) fun hp => ?_).congr
      fun u v => ?_
    · subst hp
      refine sets_setAdj (i := l.src.node) (lt_of_le_of_lt (hhome ▸ hdst.node_le) ?_) t
      have := hsrc.home.cluster_lt
      unfold order
      omega
    · have hdom : l.dst.domain = l.src.domain := congrArg Prod.fst hhome
      unfold Writes vertex
      constructor
      · rintro (⟨hp, hu, hv⟩ | ⟨-, hne, -⟩ | ⟨hne, -⟩)
        · rw [if_pos (hhome.trans hp)] at hv
          exact ⟨hp.symm, hu, hv⟩
        · exact absurd hhome hne
        · exact absurd hdom hne
      · rintro ⟨hp, hu, hv⟩
        exact Or.inl ⟨hp.symm, hu, by rw [if_pos (hhome.trans hp.symm)]; exact hv⟩
  hconnect k := by
    refine Eq.trans ?_ (if_neg fun hc => hc.2.1 (hhome.trans hc.1)).symm
    split_ifs <;> rfl

/-- A link between clusters of a domain. -/
theorem inserted_cluster (hp : h.IsCluster p) (hsrc : h.Valid l.src) (hdst : h.Valid l.dst)
    (hdom : l.src.domain = l.dst.domain) (hne : l.src.cluster ≠ l.dst.cluster) :
    Inserted h.toShape p l t
      (if p ∈ h.clusters l.src.domain then h.clusterLink l.src l.dst l.cost p t else t) := by
  have hmem := mem_clusters_domain hp hsrc
  have hhome : l.dst.home ≠ l.src.home := fun heq => hne (congrArg Prod.snd heq).symm
  have hsrchome : l.src.home = p ↔ l.src.domain = p.1 ∧ p.2 = l.src.cluster := by
    rw [Addr.home, Prod.ext_iff]
    exact and_congr_right fun _ => eq_comm
  have hvertex : l.src.domain = p.1 → l.src.home = p →
      h.vertex p l.dst = h.clusterVertex p l.dst.cluster := by
    intro hd hs
    rw [vertex, if_neg fun heq => hhome (heq.trans hs.symm), border, if_pos (hdom.symm.trans hd)]
  refine ⟨?_, fun k => ?_⟩
  · refine (Sets.ite (W := fun u v => (u = h.clusterVertex p l.src.cluster ∧
      v = h.clusterVertex p l.dst.cluster) ∨ (p.2 = l.src.cluster ∧ (u = l.src.node ∧
      v = h.clusterVertex p l.dst.cluster))) fun hm => ?_).congr fun u v => ?_
    · have hd := hmem.mp hm
      have hlt : h.clusterVertex p l.dst.cluster < h.order p :=
        clusterVertex_lt (by rw [← hd, hdom]; exact hdst.home.cluster_lt)
      unfold clusterLink
      simp only [C_C_INDEX_eq, N_C_INDEX_eq, hd]
      refine (sets_setAdj (i := h.clusterVertex p l.src.cluster) hlt t).trans (Sets.ite fun _ => ?_)
      exact sets_setAdj (i := l.src.node) hlt _
    · unfold Writes
      rw [hmem]
      constructor
      · rintro (⟨hs, hu, hv⟩ | ⟨hd, -, hu, hv⟩ | ⟨hne', -⟩)
        · have hd := (hsrchome.mp hs).1
          exact ⟨hd, Or.inr ⟨(hsrchome.mp hs).2, hu, hv.trans (hvertex hd hs)⟩⟩
        · rw [border, if_pos (hdom.symm.trans hd)] at hv
          exact ⟨hd, Or.inl ⟨hu, hv⟩⟩
        · exact absurd hdom.symm hne'
      · rintro ⟨hd, ⟨hu, hv⟩ | ⟨hc, hu, hv⟩⟩
        · refine Or.inr (Or.inl ⟨hd, hhome, hu, ?_⟩)
          rw [border, if_pos (hdom.symm.trans hd)]
          exact hv
        · have hs := hsrchome.mpr ⟨hd, hc⟩
          exact Or.inl ⟨hs, hu, hv.trans (hvertex hd hs).symm⟩
  · by_cases hs : l.src.home = p
    · obtain ⟨hd, hc⟩ := hsrchome.mp hs
      rw [if_pos (hmem.mpr hd), clusterLink, if_pos hc, hvertex hd hs]
      simp only [Tables.setConnect, Tables.setAdj, Function.update_apply, hs, true_and, hd,
        clusterVertex, Nat.add_sub_cancel_left, ne_eq, hs ▸ hhome, not_false_eq_true]
    · refine Eq.trans ?_ (if_neg fun hc => hs hc.1).symm
      split_ifs with hm
      · rw [clusterLink, if_neg fun hc => hs (hsrchome.mpr ⟨hmem.mp hm, hc⟩)]
        rfl
      · rfl

/-- A link between domains. -/
theorem inserted_domain (hp : h.IsCluster p) (hsrc : h.Valid l.src) (hdst : h.Valid l.dst)
    (hdom : l.src.domain ≠ l.dst.domain) {t₁ t₂ : Tables}
    (ht₁ : t₁ = h.domainLink l.src l.dst l.cost p t)
    (ht₂ : t₂ = if p ∈ h.clusters l.src.domain then h.exitLink l.src l.dst l.cost p t₁ else t₁) :
    Inserted h.toShape p l t
      (if p = l.src.home then h.gatewayLink l.src l.dst l.cost t₂ else t₂) := by
  have hmem := mem_clusters_domain hp hsrc
  have hhome : l.dst.home ≠ l.src.home := fun heq => hdom (congrArg Prod.fst heq).symm
  have hborder : l.src.domain = p.1 → h.border p l.dst = h.domainVertex p l.dst.domain := by
    intro hd
    rw [border, if_neg fun heq => hdom (hd.trans heq.symm)]
  have hvertex : l.src.home = p → h.vertex p l.dst = h.domainVertex p l.dst.domain := by
    intro hs
    rw [vertex, if_neg fun heq => hhome (heq.trans hs.symm), hborder (congrArg Prod.fst hs)]
  have hlt : h.domainVertex p l.dst.domain < h.order p := domainVertex_lt hp hdst.home.domain_lt
  have hdomain : Sets (h.order p) l.cost (fun u v => u = h.domainVertex p l.src.domain ∧
      v = h.domainVertex p l.dst.domain) t t₁ := by
    rw [ht₁, domainLink, D_D_INDEX_eq]
    exact sets_setAdj (i := h.domainVertex p l.src.domain) hlt t
  have hexit : Sets (h.order p) l.cost (fun u v => p ∈ h.clusters l.src.domain ∧
      u = h.clusterVertex p l.src.cluster ∧ v = h.domainVertex p l.dst.domain) t₁ t₂ := by
    rw [ht₂]
    refine Sets.ite fun hm => ?_
    rw [exitLink, C_D_INDEX_eq, hmem.mp hm]
    exact sets_setAdj (i := h.clusterVertex p l.src.cluster) hlt t₁
  have hgateway : Sets (h.order p) l.cost (fun u v => p = l.src.home ∧ u = l.src.node ∧
      v = h.domainVertex p l.dst.domain) t₂
      (if p = l.src.home then h.gatewayLink l.src l.dst l.cost t₂ else t₂) := by
    refine Sets.ite fun hs => ?_
    subst hs
    unfold gatewayLink
    simp only [N_D_INDEX_eq]
    exact sets_setAdj (i := l.src.node) hlt t₂
  have hkeep : t₂.hconnect_ = t.hconnect_ := by
    rw [ht₂, ht₁]
    split_ifs <;> rfl
  refine ⟨((hdomain.trans hexit).trans hgateway).congr fun u v => ?_, fun k => ?_⟩
  · unfold Writes
    rw [hmem]
    constructor
    · rintro (⟨hs, hu, hv⟩ | ⟨hd, -, hu, hv⟩ | ⟨-, hu, hv⟩)
      · exact Or.inr ⟨hs.symm, hu, hv.trans (hvertex hs)⟩
      · exact Or.inl (Or.inr ⟨hd, hu, hv.trans (hborder hd)⟩)
      · exact Or.inl (Or.inl ⟨hu, hv⟩)
    · rintro ((⟨hu, hv⟩ | ⟨hd, hu, hv⟩) | ⟨hs, hu, hv⟩)
      · exact Or.inr (Or.inr ⟨hdom.symm, hu, hv⟩)
      · exact Or.inr (Or.inl ⟨hd, hhome, hu, hv.trans (hborder hd).symm⟩)
      · exact Or.inl ⟨hs.symm, hu, hv.trans (hvertex hs.symm).symm⟩
  · by_cases hs : l.src.home = p
    · have hplace : h.domainVertex p l.dst.domain - h.size p = h.C_ p.1 - 1 + l.dst.domain := by
        unfold domainVertex
        omega
      have hd : l.src.domain = p.1 := congrArg Prod.fst hs
      rw [if_pos hs.symm, hvertex hs, hplace, gatewayLink]
      simp only [Tables.setConnect, Tables.setAdj, Function.update_apply, hs, true_and, hd,
        ne_eq, hs ▸ hhome, not_false_eq_true, hkeep]
    · rw [if_neg (Ne.symm hs), if_neg fun hc => hs hc.1, hkeep]

/-- **What `hier_insert` does.** -/
theorem hier_insert_spec (hw : h.Wide) (hsrc : h.Valid l.src) (hdst : h.Valid l.dst) :
    h.Extends (h.hier_insert l.src l.dst l.cost) ∧
      (∀ p, h.IsCluster p → Touches p l →
        ((h.hier_insert l.src l.dst l.cost).tables (h.index p)).isSome) ∧
      ∀ p, h.IsCluster p →
        Inserted h.toShape p l (h.tab p) ((h.hier_insert l.src l.dst l.cost).tab p) := by
  have hclusters : ∀ q ∈ h.clusters l.src.domain, h.IsCluster q := fun q hq =>
    ((mem_clusters (x := l.src.domain) ⟨hsrc.home.domain_pos, hsrc.home.domain_lt⟩).mp hq).1
  unfold hier_insert
  by_cases hdom : l.src.domain = l.dst.domain
  · rw [if_pos hdom]
    by_cases hc : l.src.cluster = l.dst.cluster
    · have hhome : l.dst.home = l.src.home := Prod.ext hdom.symm hc.symm
      rw [if_pos hc]
      refine ⟨extends_modify _ _ _, fun p _ ht => ?_, fun p hp => ?_⟩
      · rcases ht with hne | rfl | ⟨-, hne⟩
        · exact absurd hdom.symm hne
        · exact isSome_modify _ _ _
        · exact absurd hhome hne
      · dsimp only
        rw [tab_modify (q := (l.src.domain, l.src.cluster)) hw hp hsrc.home]
        exact inserted_node hsrc hdst hhome
    · rw [if_neg hc]
      obtain ⟨h1, h2, h3⟩ := foldl_modify (h.clusterLink l.src l.dst l.cost)
        (h.clusters l.src.domain) (h.nodup_clusters _) h hw hclusters
      refine ⟨h1, fun p hp ht => h3 p ((mem_clusters_domain hp hsrc).mpr ?_), fun p hp => ?_⟩
      · rcases ht with hne | hs | ⟨hd, -⟩
        · exact absurd hdom.symm hne
        · exact congrArg Prod.fst hs
        · exact hd
      · rw [h2 p hp]
        exact inserted_cluster hp hsrc hdst hdom hc
  · rw [if_neg hdom]
    obtain ⟨h1, h2, h3⟩ := foldl_modify (h.domainLink l.src l.dst l.cost) h.allClusters
      h.nodup_allClusters h hw fun q hq => mem_allClusters.mp hq
    set h₁ := h.allClusters.foldl (fun g p => g.modify p (h.domainLink l.src l.dst l.cost p)) h
    have hs₁ := h1.shape
    obtain ⟨h4, h5, -⟩ := foldl_modify (h.exitLink l.src l.dst l.cost) (h.clusters l.src.domain)
      (h.nodup_clusters _) h₁ (hs₁.symm ▸ hw) (hs₁.symm ▸ hclusters)
    set h₂ := (h.clusters l.src.domain).foldl
      (fun g p => g.modify p (h.exitLink l.src l.dst l.cost p)) h₁
    have hs₂ := h4.shape.trans hs₁
    have h6 := (h1.trans h4).trans
      (extends_modify h₂ (l.src.domain, l.src.cluster) (h.gatewayLink l.src l.dst l.cost))
    refine ⟨h6, fun p hp _ => ?_, fun p hp => ?_⟩
    · exact (h4.trans (extends_modify h₂ (l.src.domain, l.src.cluster) _)).isSome _
        (h3 p (mem_allClusters.mpr hp))
    · rw [tab_modify (hs₂.symm ▸ hw) (hs₂.symm ▸ hp) (hs₂.symm ▸ hsrc.home), h5 p (hs₁.symm ▸ hp),
        h2 p hp, if_pos (mem_allClusters.mpr hp)]
      exact inserted_domain hp hsrc hdst hdom rfl rfl

end Insert

/-! ## The invariant -/

/-- The matrices have positive entries, and a finite one for every link and nothing else;
`hconnect_` knows where the links out of a cluster lead. -/
structure Inv (h : Hier) (links : Set Link) : Prop where
  wide : h.Wide
  alloc : ∀ l ∈ links, ∀ p, h.IsCluster p → Touches p l → (h.tables (h.index p)).isSome
  pos : ∀ p, h.IsCluster p → ∀ u v, u < h.order p → v < h.order p → 0 < h.entry p u v
  edge : ∀ p, h.IsCluster p → ∀ u v, u < h.order p → v < h.order p →
    (h.entry p u v ≠ HINFINITY ↔ ∃ l ∈ links, h.Writes p l u v)
  connect : ∀ l ∈ links, l.dst.home ≠ l.src.home → ∃ l' ∈ links, l'.src = l.src ∧
    h.vertex l.src.home l'.dst = h.vertex l.src.home l.dst ∧
    (h.tab l.src.home).hconnect_ (l.src.node * (h.C_ l.src.domain + h.D_) +
      (h.vertex l.src.home l.dst - h.size l.src.home)) = some l'.dst

section Inv

variable {links : Set Link}

theorem inv_empty (hw : h.Wide) (ht : ∀ i, h.tables i = none) : h.Inv ∅ := by
  have hentry : ∀ p u v, h.entry p u v = HINFINITY := by
    intro p u v
    rw [entry, tab, ht]
    rfl
  refine ⟨hw, fun l hl => hl.elim, fun p _ u v _ _ => ?_, fun p _ u v _ _ => ?_, fun l hl => hl.elim⟩
  · rw [hentry]
    decide
  · exact ⟨fun hne => absurd (hentry p u v) hne, fun ⟨l, hl, _⟩ => hl.elim⟩

/-- Two links that leave a cluster and have their border node in one place of the table start at one
node and lead to one vertex. -/
theorem same_place {l' : Link} (hl : h.Proper l) (hl' : h.Proper l') (hne : l'.dst.home ≠ l'.src.home)
    (hs : l.src.home = l'.src.home) (hd : l.dst.home ≠ l'.src.home)
    (hk : l'.src.node * (h.C_ l'.src.domain + h.D_) +
        (h.vertex l'.src.home l'.dst - h.size l'.src.home) =
      l.src.node * (h.C_ l'.src.domain + h.D_) +
        (h.vertex l'.src.home l.dst - h.size l'.src.home)) :
    l.src = l'.src ∧ h.vertex l'.src.home l.dst = h.vertex l'.src.home l'.dst := by
  obtain ⟨-, hlt, hle⟩ := vertex_bounds hl'.src.home hl.dst
  obtain ⟨-, hlt', hle'⟩ := vertex_bounds hl'.src.home hl'.dst
  have hgt := not_le.mp fun hc => hd (hle.mp hc)
  have hgt' := not_le.mp fun hc => hne (hle'.mp hc)
  have horder : h.order l'.src.home =
      h.size l'.src.home + (h.C_ l'.src.domain + h.D_) := by
    rw [order, add_assoc]
    rfl
  have hk' : INDEX l'.src.node (h.vertex l'.src.home l'.dst - h.size l'.src.home)
      (h.C_ l'.src.domain + h.D_) = INDEX l.src.node
      (h.vertex l'.src.home l.dst - h.size l'.src.home) (h.C_ l'.src.domain + h.D_) := by
    rw [INDEX, INDEX, Nat.mul_comm, hk, Nat.mul_comm]
  obtain ⟨hnode, hvertex⟩ := (INDEX_inj (by omega) (by omega)).mp hk'
  refine ⟨?_, by omega⟩
  have hd' := congrArg Prod.fst hs
  have hc' := congrArg Prod.snd hs
  cases hsrc : l.src
  cases hsrc' : l'.src
  simp only [hsrc, hsrc', Addr.home] at hnode hd' hc' ⊢
  rw [hnode, hd', hc']

/-- **A link is inserted.** -/
theorem Inv.insert_link (hI : h.Inv links) (hlinks : ∀ l' ∈ links, h.Proper l')
    (hl : h.Proper l) :
    (h.hier_insert l.src l.dst l.cost).Inv (insert l links) ∧
      (h.hier_insert l.src l.dst l.cost).toShape = h.toShape := by
  obtain ⟨hext, halloc, hins⟩ := hier_insert_spec hI.wide hl.src hl.dst
  set h' := h.hier_insert l.src l.dst l.cost
  have hshape := hext.shape
  have hentry : ∀ p, h.IsCluster p → ∀ u v, u < h.order p → v < h.order p →
      (h.Writes p l u v → h'.entry p u v = l.cost) ∧
      (¬ h.Writes p l u v → h'.entry p u v = h.entry p u v) := by
    intro p hp u v hu hv
    rw [entry, hshape]
    exact (hins p hp).hadj u v hu hv
  refine ⟨⟨hshape.symm ▸ hI.wide, ?_, ?_, ?_, ?_⟩, hshape⟩
  · rw [hshape]
    intro l' hl' p hp ht
    rcases Set.mem_insert_iff.mp hl' with rfl | hl'
    · exact halloc p hp ht
    · exact hext.isSome _ (hI.alloc l' hl' p hp ht)
  · rw [hshape]
    intro p hp u v hu hv
    obtain ⟨h1, h2⟩ := hentry p hp u v hu hv
    by_cases hW : h.Writes p l u v
    · rw [h1 hW]
      exact hl.cost_pos
    · rw [h2 hW]
      exact hI.pos p hp u v hu hv
  · rw [hshape]
    intro p hp u v hu hv
    obtain ⟨h1, h2⟩ := hentry p hp u v hu hv
    by_cases hW : h.Writes p l u v
    · rw [h1 hW]
      exact ⟨fun _ => ⟨l, Set.mem_insert _ _, hW⟩, fun _ => hl.cost_lt.ne⟩
    · rw [h2 hW, hI.edge p hp u v hu hv]
      constructor
      · rintro ⟨l', hl', hW'⟩
        exact ⟨l', Set.mem_insert_of_mem _ hl', hW'⟩
      · rintro ⟨l', hl', hW'⟩
        rcases Set.mem_insert_iff.mp hl' with rfl | hl'
        · exact absurd hW' hW
        · exact ⟨l', hl', hW'⟩
  · rw [hshape]
    intro l' hl' hne
    have hl'p : h.Proper l' := by
      rcases Set.mem_insert_iff.mp hl' with rfl | hl'
      exacts [hl, hlinks l' hl']
    have hcon := (hins l'.src.home hl'p.src.home).hconnect (l'.src.node *
      (h.C_ l'.src.domain + h.D_) + (h.vertex l'.src.home l'.dst - h.size l'.src.home))
    by_cases hover : l.src.home = l'.src.home ∧ l.dst.home ≠ l'.src.home ∧
        l'.src.node * (h.C_ l'.src.domain + h.D_) +
          (h.vertex l'.src.home l'.dst - h.size l'.src.home) =
        l.src.node * (h.C_ l'.src.domain + h.D_) +
          (h.vertex l'.src.home l.dst - h.size l'.src.home)
    · -- the same place, so the same node and the same vertex
      obtain ⟨hs, hd, hk⟩ := hover
      obtain ⟨hsrc, hvertex⟩ := same_place hl hl'p hne hs hd hk
      exact ⟨l, Set.mem_insert _ _, hsrc, hvertex, hcon.trans (if_pos ⟨hs, hd, hk⟩)⟩
    · have hold := hcon.trans (if_neg hover)
      rcases Set.mem_insert_iff.mp hl' with rfl | hl'
      · exact absurd ⟨rfl, hne, rfl⟩ hover
      · obtain ⟨l'', hl'', h1, h2, h3⟩ := hI.connect l' hl' hne
        exact ⟨l'', Set.mem_insert_of_mem _ hl'', h1, h2, hold.trans h3⟩

/-- Insert all links. -/
def insertLinks (h : Hier) (links : List Link) : Hier :=
  links.foldl (fun h l => h.hier_insert l.src l.dst l.cost) h

/-- **All links are inserted.** -/
theorem Inv.insertLinks (hI : h.Inv links) (hlinks : ∀ l ∈ links, h.Proper l)
    {ls : List Link} (hls : ∀ l ∈ ls, h.Proper l) :
    (h.insertLinks ls).Inv (links ∪ {l | l ∈ ls}) ∧ (h.insertLinks ls).toShape = h.toShape := by
  induction ls generalizing h links with
  | nil => exact ⟨by simpa [Hier.insertLinks] using hI, rfl⟩
  | cons l ls ih =>
    obtain ⟨hI', hshape⟩ := hI.insert_link hlinks (hls l List.mem_cons_self)
    obtain ⟨h1, h2⟩ := ih hI' (by
      rw [hshape]
      intro l' hl'
      rcases Set.mem_insert_iff.mp hl' with rfl | hl'
      exacts [hls _ List.mem_cons_self, hlinks l' hl']) (by
      rw [hshape]
      exact fun l' hl' => hls l' (List.mem_cons_of_mem l hl'))
    refine ⟨?_, h2.trans hshape⟩
    have hset : insert l links ∪ {l | l ∈ ls} = links ∪ {l' | l' ∈ l :: ls} := by
      ext l'
      simp only [Set.mem_union, Set.mem_insert_iff, Set.mem_ofPred_eq, List.mem_cons]
      tauto
    rw [← hset]
    exact h1

end Inv

/-! ## Computed tables -/

/-- **What `hier_compute` does**: the routes of every cluster are those of its matrix. -/
theorem hier_compute_spec (hopcnt : ℕ → ℕ → ℚ) (hw : h.Wide)
    (hsome : ∀ p, h.IsCluster p → (h.tables (h.index p)).isSome) :
    ∃ h', hier_compute hopcnt h = some h' ∧ h'.toShape = h.toShape ∧
      ∀ p, h.IsCluster p → h'.tables (h.index p) =
        some (computeTables (h.order p) (hopcnt (h.index p)) (h.tab p)) := by
  obtain ⟨h1, h2, h3⟩ := foldl_modify
    (fun p => computeTables (h.order p) (hopcnt (h.index p))) h.allClusters
    h.nodup_allClusters h hw fun q hq => mem_allClusters.mp hq
  refine ⟨_, if_pos fun p hp => hsome p (mem_allClusters.mp hp), h1.shape, fun p hp => ?_⟩
  have htab := h2 p hp
  rw [if_pos (mem_allClusters.mpr hp), tab, h1.shape] at htab
  obtain ⟨t, ht⟩ := Option.isSome_iff_exists.mp (h3 p (mem_allClusters.mpr hp))
  rw [ht, Option.getD_some] at htab
  rw [ht, htab]

/-- A route is an entry of the table of `compute_routes`. -/
theorem hroute_computeTables {s : ℕ} {hopcnt : ℕ → ℚ} {t : Tables} (hu : u < s) (hv : v < s) :
    (computeTables s hopcnt t).hroute_ (INDEX u v s) =
      (computeRoutes s (adj s t) hopcnt u v).next_hop := by
  have hs : 0 < s := by omega
  have hlt : INDEX u v s < s * s := by
    unfold INDEX
    nlinarith
  unfold computeTables
  simp only [if_pos hlt]
  rw [INDEX, Nat.mul_add_div hs, Nat.div_eq_of_lt hv, Nat.mul_add_mod, Nat.mod_eq_of_lt hv,
    Nat.add_zero]

end Hier

end Ns2.Routing
