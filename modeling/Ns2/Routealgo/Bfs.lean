import Ns2.Nix.Extract
import Ns2.Routealgo.RBitMap
import Ns2.Routealgo.RLookup

/-!
# Breadth-first search

The model of `routealgo/bfs.cc`, of `NixRoute` in `routealgo/routealgo.cc` and of the nodes in
`nix/nixnode.cc`.  A node is its adjacency list, and its identifier is its index.

* `NextAdj`, `GetNix`, `GetNeighbor` — the functions of a node.
* `visit`, `scan`, `search`, `BFS` — the search, with a bitmap for the colors.
* `NixPred`, `NixRoute`, `ComputeNixVector` — the indices along the parents.

A function returns nothing when the program exits, or an assertion fails.
-/

namespace Ns2.Routealgo

variable {w : ℕ}

def INF : ℕ := 0xffffffff

def NIX_NONE : ℕ := 0xffffffff

/-- A graph of nodes with adjacency lists over them; `NODE_NONE` is no node, and `NIX_NONE` no
index. -/
structure Graph (nodes : List (List ℕ)) : Prop where
  ids : nodes.length ≤ NODE_NONE
  adjacent : ∀ m_Adj ∈ nodes, ∀ v ∈ m_Adj, v < nodes.length
  degree : ∀ m_Adj ∈ nodes, m_Adj.length ≤ NIX_NONE

/-! ## Nodes -/

/-- `NextAdj`, with the index of the iterator `prev`: the next neighbor, and where the iterator is. -/
def NextAdj (m_Adj : List ℕ) (last prev : ℕ) : Option (ℕ × ℕ) :=
  if last = NODE_NONE then some (m_Adj.head?.getD NODE_NONE, 0)
  else if m_Adj[prev]? = some last then some (m_Adj[prev + 1]?.getD NODE_NONE, prev + 1)
  else none

/-- The loop of `GetBitl`, from bit `h`. -/
def highestBit (l : ℕ) : ℕ → ℕ
  | 0 => 1
  | h + 1 => if l.testBit (h + 1) then h + 2 else highestBit l h

/-- `GetBitl`. -/
def GetBitl (l : ℕ) : ℕ :=
  highestBit l (if l &&& 0xFFFF0000 = 0 then if l &&& 0xFFFFFF00 = 0 then 7 else 15 else 31)

/-- `GetNix`: the index of a neighbor, and its bits. -/
def GetNix (m_Adj : List ℕ) (t : ℕ) : ℕ × ℕ :=
  if t ∈ m_Adj then (m_Adj.idxOf t, GetBitl (m_Adj.length - 1)) else (NIX_NONE, 0)

/-- `GetNeighbor`. -/
def GetNeighbor (m_Adj : List ℕ) (n : ℕ) : Option ℕ := m_Adj[n]?

/-! ## The search -/

/-- The variables of `BFS`; a vector is a function of the index. -/
structure Search (w : ℕ) where
  /-- The colors: 0 is white. -/
  B : BitMap w
  Q : List ℕ
  D : ℕ → ℕ
  NextHop : ℕ → ℕ
  Parent : ℕ → ℕ

/-- A neighbor `v` of the node `u`. -/
def visit (root u : ℕ) (s : Search w) (v : ℕ) : Option (Search w) :=
  (s.B.Get v).bind fun color =>
    if color = 0 then
      (s.B.Set v 1).map fun B =>
        { B := B, Q := s.Q ++ [v], D := Function.update s.D v (s.D u + 1)
          NextHop := Function.update s.NextHop v (if u = root then v else s.NextHop u)
          Parent := Function.update s.Parent v u }
    else some s

/-- The inner loop, after the neighbor `last`. -/
def scan (m_Adj : List ℕ) (root u : ℕ) : ℕ → ℕ → ℕ → Search w → Option (Search w)
  | 0, _, _, _ => none
  | n + 1, last, prev, s =>
    (NextAdj m_Adj last prev).bind fun (v, prev) =>
      if v = NODE_NONE then some s
      else (visit root u s v).bind fun s => scan m_Adj root u n v prev s

/-- The outer loop. -/
def search (nodes : List (List ℕ)) (root : ℕ) : ℕ → Search w → Option (Search w)
  | 0, _ => none
  | n + 1, s =>
    match s.Q with
    | [] => some s
    | u :: _ =>
      let m_Adj := nodes.getD u []
      (scan m_Adj root u (m_Adj.length + 1) NODE_NONE 0 s).bind fun s =>
        search nodes root n { s with Q := s.Q.tail }

/-- `BFS`, with a bound on the nodes it takes from the queue. -/
def BFS (w : ℕ) (nodes : List (List ℕ)) (root fuel : ℕ) : Option (Search w) :=
  ((BitMap.new w nodes.length 1).Set root 1).bind fun B =>
    search nodes root fuel
      { B := B, Q := [root], D := Function.update (fun _ => INF) root 0
        NextHop := fun _ => NODE_NONE, Parent := fun _ => NODE_NONE }

/-! ## Routes -/

/-- `NixPred`: the pairs that are added, in order. -/
def NixPred (nodes : List (List ℕ)) (pred : ℕ → ℕ) (s : ℕ) : ℕ → ℕ → Option (List (ℕ × ℕ))
  | 0, _ => none
  | n + 1, p =>
    if s = p then some []
    else if pred p = NODE_NONE then some []
    else
      (NixPred nodes pred s n (pred p)).bind fun l =>
        let n := GetNix (nodes.getD (pred p) []) p
        if n.1 = NIX_NONE then none else some (l ++ [n])

/-- `ComputeNixVector`: the pairs that `NixRoute` adds, and the vector. -/
def ComputeNixVector (w : ℕ) (nodes : List (List ℕ)) (m_id t fuel : ℕ) :
    Option (List (ℕ × ℕ) × Nix.NixVec w) :=
  (BFS w nodes m_id fuel).bind fun s =>
    (NixPred nodes s.Parent m_id fuel t).bind fun l =>
      ((Nix.NixVec.empty w).addAll l).map fun pNv => (l, pNv)

end Ns2.Routealgo
