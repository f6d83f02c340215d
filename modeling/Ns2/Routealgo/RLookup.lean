import Ns2.Routealgo.RBitMap

/-!
# Routing table representations

The model of `routealgo/rlookup.cc`.  A routing table is a vector of next hops,
one for each node; its owner has no next hop to itself, and what the vector
holds there is arbitrary.

* `Analyze` — population counts, the best default, and the first and the last
  entry that is not the default.
* `NHLookup`, `BMLookup`, `HMLookup` — the plain table, the bitmap and the map.
  Reading outside a vector and failed assertions give `none`.
* `insertUnique`, `find` — `insert` and `find` of the standard map with a
  comparison of the user: keys are the same when neither is before the other.
-/

namespace Ns2.Routealgo

variable {w : ℕ}

/-- No node. -/
def NODE_NONE : ℕ := 0xffffffff

/-! ## Analysis -/

/-- What `Analyze` returns. -/
structure Analysis where
  /-- Population counts. -/
  p : List ℕ
  /-- Default. -/
  d : ℕ
  /-- Number of default entries. -/
  n : ℕ
  /-- First non-default. -/
  f : ℕ
  /-- Last non-default. -/
  l : ℕ

/-- Count occurrences of each next hop, except the owner's. -/
def population (r : List ℕ) (o : ℕ) : List ℕ :=
  (List.range r.length).foldl
    (fun p i => if i ≠ o then p.modify (r.getD i 0) (· + 1) else p) (List.replicate r.length 0)

/-- One step of the search for the best default: the index of the largest count so far, and how
many counts are not zero. -/
def bestDefaultStep (p : List ℕ) (s : ℕ × ℕ) (i : ℕ) : ℕ × ℕ :=
  (if s.1 = NODE_NONE ∨ p.getD i 0 > p.getD s.1 0 then i else s.1,
    if p.getD i 0 ≠ 0 then s.2 + 1 else s.2)

/-- One step of the search for the first and the last entry that is not the default. -/
def nonDefaultStep (r : List ℕ) (o d : ℕ) (s : ℕ × ℕ) (i : ℕ) : ℕ × ℕ :=
  if i ≠ o then
    (if r.getD i 0 ≠ d ∧ s.1 = NODE_NONE then i else s.1, if r.getD i 0 ≠ d then i else s.2)
  else s

/-- `RLookup::Analyze`. -/
def Analyze (r : List ℕ) (o : ℕ) : Analysis :=
  let p := population r o
  let (largest, nonzero) := (List.range p.length).foldl (bestDefaultStep p) (NODE_NONE, 0)
  let d := if nonzero = 0 then NODE_NONE else largest
  let n := p.getD largest 0
  if nonzero = 1 then ⟨p, d, n, NODE_NONE, NODE_NONE⟩
  else
    let (f, l) := (List.range r.length).foldl (nonDefaultStep r o d) (NODE_NONE, NODE_NONE)
    ⟨p, d, n, f, l⟩

/-! ## The plain table -/

structure NHLookup where
  m_RouteTable : List ℕ

/-- `NHLookup::Populate`: copy the routing vector. -/
def NHLookup.Populate (r : List ℕ) : NHLookup := ⟨r⟩

/-- `NHLookup::Lookup`. -/
def NHLookup.Lookup (h : NHLookup) (t : ℕ) : Option ℕ :=
  if t ≥ h.m_RouteTable.length then some NODE_NONE else h.m_RouteTable[t]?

/-! ## The bitmap -/

structure BMLookup (w : ℕ) where
  m_Default : ℕ
  m_FirstNonDefault : ℕ
  m_LastNonDefault : ℕ
  /-- Neighbor vector. -/
  m_NVec : List ℕ
  /-- Bitmap of non-default entries. -/
  m_pBitMap : BitMap w

/-- The nodes with a population count: the neighbor vector. -/
def neighbors (p : List ℕ) : List ℕ := (List.range p.length).filter fun i => p.getD i 0 ≠ 0

/-- Populate the bitmap: for each entry the index of its next hop. -/
def populateBitMap (r nvec : List ℕ) (f c : ℕ) (b : BitMap w) : Option (BitMap w) :=
  (List.range c).foldlM (fun b k => do
    let next ← r[f + k]?
    b.Set k (BitVec.ofNat w (nvec.idxOf next))) b

/-- `BMLookup::Populate`. -/
def BMLookup.Populate (w : ℕ) (r : List ℕ) (a : Analysis) : Option (BMLookup w) :=
  let nvec := neighbors a.p
  let c := a.l - a.f + 1
  (populateBitMap r nvec a.f c (BitMap.new w c (BitMap.FindBPE nvec.length))).map fun b =>
    ⟨a.d, a.f, a.l, nvec, b⟩

/-- `BMLookup::Lookup`. -/
def BMLookup.Lookup (h : BMLookup w) (t : ℕ) : Option ℕ :=
  if t < h.m_FirstNonDefault then some h.m_Default
  else if t > h.m_LastNonDefault then some h.m_Default
  else do
    let i ← h.m_pBitMap.Get (t - h.m_FirstNonDefault)
    h.m_NVec[i.toNat]?

/-! ## The map -/

/-- Keys are the same for the map when neither is before the other. -/
def sameKey (before : ℕ → ℕ → Bool) (a b : ℕ) : Bool := !before a b && !before b a

/-- `insert`: nothing happens if the key is there. -/
def insertUnique (before : ℕ → ℕ → Bool) (m : List (ℕ × ℕ)) (e : ℕ × ℕ) : List (ℕ × ℕ) :=
  if m.any fun e' => sameKey before e'.1 e.1 then m else m ++ [e]

/-- `find`. -/
def find (before : ℕ → ℕ → Bool) (m : List (ℕ × ℕ)) (t : ℕ) : Option (ℕ × ℕ) :=
  m.find? fun e => sameKey before e.1 t

structure HMLookup where
  m_Default : ℕ
  m_RouteMap : List (ℕ × ℕ)

/-- `HMLookup::Populate`, for a map with the comparison `before`. -/
def HMLookup.Populate (before : ℕ → ℕ → Bool) (r : List ℕ) (a : Analysis) : HMLookup :=
  ⟨a.d, (List.range r.length).foldl (fun m i =>
    if r.getD i 0 ≠ a.d ∧ r.getD i 0 ≠ NODE_NONE then insertUnique before m (i, r.getD i 0)
    else m) []⟩

/-- `HMLookup::Lookup`, for a map with the comparison `before`. -/
def HMLookup.Lookup (before : ℕ → ℕ → Bool) (h : HMLookup) (t : ℕ) : Option ℕ :=
  match find before h.m_RouteMap t with
  | none => some h.m_Default
  | some e => some e.2

/-- The comparison `RouteMap_t` is declared with. -/
def equal_to (a b : ℕ) : Bool := a == b

end Ns2.Routealgo
