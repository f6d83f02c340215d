import Ns2.Routing.RouteLogic

/-!
# Hierarchical routing

Three levels: domains, clusters and nodes.  Every cluster has a matrix of its own, whose vertices
are its nodes, the clusters of its domain and the domains.

* `INDEX`, `N_N_INDEX`, … `D_D_INDEX` — the places of the entries.
* `Tables`, `Shape`, `Hier` — the tables of a cluster, the numbers of domains, clusters and nodes,
  and all tables.
* `hier_init`, `hier_insert` — the matrices.
* `hier_compute` — the routes, with the loops of `compute_routes`.
* `get_address`, `lookup_hier` — the next hop from one node to another.

Addresses are kept the way `ns_strtok` leaves them: counted from 1, with 0 where there is nothing
or a negative number.
-/

namespace Ns2.Routing

/-- An address. -/
structure Addr where
  domain : ℕ
  cluster : ℕ
  node : ℕ
deriving DecidableEq

/-! ## Places -/

def INDEX (i j N : ℕ) : ℕ := N * i + j

def N_N_INDEX (i j a b c : ℕ) : ℕ := i * (a + b + c) + j

def N_C_INDEX (i j a b c : ℕ) : ℕ := i * (a + b + c) + (a + j)

def N_D_INDEX (i j a b c : ℕ) : ℕ := i * (a + b + c) + (a + (b - 1) + j)

def C_C_INDEX (i j a b c : ℕ) : ℕ := (a + i) * (a + b + c) + (a + j)

def C_D_INDEX (i j a b c : ℕ) : ℕ := (a + i) * (a + b + c) + (a + (b - 1) + j)

def D_D_INDEX (i j a b c : ℕ) : ℕ := (a + (b - 1) + i) * (a + b + c) + (a + (b - 1) + j)

/-! ## Tables -/

/-- `INFINITY`, in the matrices of the clusters. -/
def HINFINITY : ℤ := 0x3fff

/-- The tables of a cluster: costs, next hops, and the addresses that the links to other clusters
and domains lead to. -/
structure Tables where
  hadj_ : ℕ → ℤ
  hroute_ : ℕ → ℕ
  hconnect_ : ℕ → Option Addr

/-- `hier_alloc`. -/
def Tables.alloc : Tables := ⟨fun _ => HINFINITY, fun _ => 0x3fff, fun _ => none⟩

def Tables.setAdj (k : ℕ) (cost : ℤ) (t : Tables) : Tables :=
  { t with hadj_ := Function.update t.hadj_ k cost }

def Tables.setConnect (k : ℕ) (a : Addr) (t : Tables) : Tables :=
  { t with hconnect_ := Function.update t.hconnect_ k (some a) }

/-- `D_` and `C_` are one more than the numbers of domains and clusters. -/
structure Shape where
  D_ : ℕ
  C_ : ℕ → ℕ
  Cmax_ : ℕ
  cluster_size_ : ℕ → ℕ

namespace Shape

/-- The clusters of a domain. -/
def clusters (h : Shape) (x : ℕ) : List (ℕ × ℕ) := (List.range' 1 (h.C_ x - 1)).map fun y => (x, y)

/-- The clusters of all domains. -/
def allClusters (h : Shape) : List (ℕ × ℕ) := (List.range' 1 (h.D_ - 1)).flatMap h.clusters

/-- The place of a cluster. -/
def index (h : Shape) (p : ℕ × ℕ) : ℕ := INDEX p.1 p.2 h.Cmax_

/-- The number of its nodes. -/
def size (h : Shape) (p : ℕ × ℕ) : ℕ := h.cluster_size_ (h.index p)

/-- The number of rows of its matrix. -/
def order (h : Shape) (p : ℕ × ℕ) : ℕ := h.size p + h.C_ p.1 + h.D_

end Shape

/-- All tables: `hadj_`, `hroute_` and `hconnect_` of every cluster, once they are allocated. -/
structure Hier extends Shape where
  tables : ℕ → Option Tables

namespace Hier

/-- `send-num-of-domains`, `send-num-of-clusters` and `send-num-of-nodes`. -/
def hier_init (D_ : ℕ) (C_ : ℕ → ℕ) (size : ℕ → ℕ → ℕ) : Hier :=
  let Cmax_ := (List.range' 1 (D_ - 1)).foldl (fun m i => if m < C_ i then C_ i else m) 0
  { D_ := D_, C_ := C_, Cmax_ := Cmax_
    cluster_size_ := fun k => size (k / Cmax_) (k % Cmax_)
    tables := fun _ => none }

/-- `hier_check`, and assignments to the tables of a cluster. -/
def modify (h : Hier) (p : ℕ × ℕ) (f : Tables → Tables) : Hier :=
  { h with
    tables := Function.update h.tables (h.index p)
      (some (f ((h.tables (h.index p)).getD Tables.alloc))) }

/-! ## Links -/

/-- A link between clusters, in the tables of a cluster of the domain. -/
def clusterLink (h : Hier) (src dst : Addr) (cost : ℤ) (p : ℕ × ℕ) (t : Tables) : Tables :=
  let n := h.size p
  let C := h.C_ src.domain
  let t := t.setAdj (C_C_INDEX src.cluster dst.cluster n C h.D_) cost
  if p.2 = src.cluster then
    (t.setAdj (N_C_INDEX src.node dst.cluster n C h.D_) cost).setConnect
      (src.node * (C + h.D_) + dst.cluster) dst
  else t

/-- A link between domains, in the tables of any cluster. -/
def domainLink (h : Hier) (src dst : Addr) (cost : ℤ) (p : ℕ × ℕ) (t : Tables) : Tables :=
  t.setAdj (D_D_INDEX src.domain dst.domain (h.size p) (h.C_ p.1) h.D_) cost

/-- In the tables of a cluster of the domain that it leaves. -/
def exitLink (h : Hier) (src dst : Addr) (cost : ℤ) (p : ℕ × ℕ) (t : Tables) : Tables :=
  t.setAdj (C_D_INDEX src.cluster dst.domain (h.size p) (h.C_ src.domain) h.D_) cost

/-- In the tables of the cluster that it leaves. -/
def gatewayLink (h : Hier) (src dst : Addr) (cost : ℤ) (t : Tables) : Tables :=
  let n := h.size (src.domain, src.cluster)
  let C := h.C_ src.domain
  (t.setAdj (N_D_INDEX src.node dst.domain n C h.D_) cost).setConnect
    (src.node * (C + h.D_) + (C - 1 + dst.domain)) dst

/-- `hier_insert`. -/
def hier_insert (h : Hier) (src dst : Addr) (cost : ℤ) : Hier :=
  if src.domain = dst.domain then
    if src.cluster = dst.cluster then
      let p := (src.domain, src.cluster)
      h.modify p (Tables.setAdj
        (N_N_INDEX src.node dst.node (h.size p) (h.C_ src.domain) h.D_) cost)
    else
      (h.clusters src.domain).foldl (fun g p => g.modify p (h.clusterLink src dst cost p)) h
  else
    let h₁ := h.allClusters.foldl (fun g p => g.modify p (h.domainLink src dst cost p)) h
    let h₂ := (h.clusters src.domain).foldl (fun g p => g.modify p (h.exitLink src dst cost p)) h₁
    h₂.modify (src.domain, src.cluster) (h.gatewayLink src dst cost)

/-! ## Routes -/

/-- The matrix of a cluster. -/
def adj (s : ℕ) (t : Tables) (n m : ℕ) : AdjEntry := ⟨t.hadj_ (INDEX n m s), 0⟩

/-- `hier_compute_routes`, and the loop that copies the table. -/
def computeTables (s : ℕ) (hopcnt : ℕ → ℚ) (t : Tables) : Tables :=
  { t with
    hroute_ := fun k =>
      if k < s * s then (computeRoutes s (adj s t) hopcnt (k / s) (k % s)).next_hop
      else t.hroute_ k }

/-- `hier_compute`; `none` if there is a cluster whose matrix has not been allocated.  `hopcnt` is
what the memory holds at the start. -/
def hier_compute (hopcnt : ℕ → ℕ → ℚ) (h : Hier) : Option Hier :=
  if ∀ p ∈ h.allClusters, (h.tables (h.index p)).isSome then
    some (h.allClusters.foldl
      (fun g p => g.modify p (computeTables (h.order p) (hopcnt (h.index p)))) h)
  else none

/-! ## Lookup -/

/-- `get_address`. -/
def get_address (h : Hier) (t : Tables) (next_hop : ℕ) (src : Addr) : Option Addr :=
  let size := h.size (src.domain, src.cluster)
  let C := h.C_ src.domain
  if next_hop ≤ size then some ⟨src.domain, src.cluster, next_hop⟩
  else if next_hop < size + C then
    t.hconnect_ (src.node * (C + h.D_) + (next_hop - size))
  else t.hconnect_ (src.node * (C + h.D_) + (C - 1 + (next_hop - size - (C - 1))))

/-- The place of the route to `dst`. -/
def routeIndex (h : Hier) (src dst : Addr) : ℕ :=
  let size := h.size (src.domain, src.cluster)
  let C := h.C_ src.domain
  if (dst.cluster = 0 ∧ dst.node = 0) ∨ src.domain ≠ dst.domain then
    N_D_INDEX src.node dst.domain size C h.D_
  else if dst.node = 0 ∨ src.cluster ≠ dst.cluster then
    N_C_INDEX src.node dst.cluster size C h.D_
  else N_N_INDEX src.node dst.node size C h.D_

/-- `lookup_hier`: an error, or the next hop if there is one. -/
def lookup_hier (h : Hier) (src dst : Addr) : Except String (Option Addr) :=
  if src.domain = 0 ∨ src.cluster = 0 ∨ src.node = 0 then .error "negative src node number"
  else if dst.domain = 0 then .error "negative dst domain number"
  else
    match h.tables (h.index (src.domain, src.cluster)) with
    | none => .error "Routes not computed"
    | some t =>
      if src.domain < h.D_ ∨ dst.domain < h.D_ then
        let next_hop := t.hroute_ (h.routeIndex src dst)
        if 0 < next_hop then .ok (h.get_address t next_hop src) else .ok none
      else .error "node out of range"

end Hier

end Ns2.Routing
