import Mathlib
import Ns2.LinkState.Database

/-!
# Route computation from the link-state database

The model of `LsPaths`, `LsPathsTentative` and `LsRouting::_computeRoutes` in `linkstate/ls.cc`
and `linkstate/ls.h`.

* `LsPaths` — for each destination the cost and the next hops found so far.
* `insertPath`, `insertNextHopList`, `popShortestPath` — the operations on them.
* `relax`, `expand`, `popLoop`, `mainLoop` — the parts of the main loop.

`ls_error` aborts, which is `none`.  The loops take the number of rounds they may make.
-/

namespace Ns2.LinkState

def LS_INVALID_NODE_ID : ℤ := 65535

def LS_INVALID_COST : ℤ := 65535

def LS_MAX_COST : ℤ := 65534

/-- A destination with its cost and one next hop. -/
structure LsPath where
  destination : ℤ
  cost : ℤ
  nextHop : ℤ

/-- The constructor without arguments; it leaves the other fields as they are in memory, and
`isValid` does not look at them then. -/
def LsPath.invalid : LsPath := ⟨LS_INVALID_NODE_ID, 0, 0⟩

def LsPath.isValid (p : LsPath) : Bool :=
  p.destination ≠ LS_INVALID_NODE_ID ∧ p.cost ≠ LS_INVALID_COST ∧ p.nextHop ≠ LS_INVALID_COST

/-- One cost and the next hops of all paths of that cost. -/
structure LsEqualPaths where
  cost : ℤ
  nextHopList : List ℤ

abbrev LsPaths := LsMap ℤ LsEqualPaths

/-- `LsNodeIdList::appendUnique`. -/
def appendUnique (l x : List ℤ) : List ℤ :=
  x.foldl (fun l a => if a ∈ l then l else l ++ [a]) l

namespace LsPaths

def lookupCost (m : LsPaths) (destId : ℤ) : ℤ :=
  match m[destId]? with
  | none => LS_MAX_COST + 1
  | some ep => ep.cost

def insertPath (m : LsPaths) (p : LsPath) : LsPaths :=
  match m[p.destination]? with
  | none => m.insert p.destination ⟨p.cost, [p.nextHop]⟩
  | some ep =>
    if ep.cost < p.cost then m
    else if ep.cost > p.cost then m.insert p.destination ⟨p.cost, [p.nextHop]⟩
    else if p.nextHop ∈ ep.nextHopList then m
    else m.insert p.destination { ep with nextHopList := ep.nextHopList ++ [p.nextHop] }

def insertNextHopList (m : LsPaths) (destId cost : ℤ) (nextHopList : List ℤ) : LsPaths :=
  match m[destId]? with
  | none => m.insert destId ⟨cost, nextHopList⟩
  | some ep =>
    if ep.cost < cost then m
    else if ep.cost > cost then m.insert destId ⟨cost, nextHopList⟩
    else m.insert destId { ep with nextHopList := appendUnique ep.nextHopList nextHopList }

/-- One entry in the search of `findMinEqualPaths`: the smallest cost so far, and where. -/
def minStep (r : ℤ × Option ℤ) (e : ℤ × LsEqualPaths) : ℤ × Option ℤ :=
  if r.1 > e.2.cost ∧ e.2.nextHopList ≠ [] then (e.2.cost, some e.1) else r

/-- `findMinEqualPaths`.  The smallest cost and its place are looked for anew by every
`popShortestPath`, so they are not kept with the paths. -/
def findMinEqualPaths (m : LsPaths) : Option ℤ :=
  (m.toList.foldl minStep (LS_MAX_COST + 1, none)).2

def popShortestPath (m : LsPaths) : LsPaths × LsPath :=
  match m.findMinEqualPaths with
  | none => (m, LsPath.invalid)
  | some d =>
    match m[d]? with
    | none => (m, LsPath.invalid)
    | some ep =>
      match ep.nextHopList with
      | [] => (m, LsPath.invalid)
      | h :: nhList =>
        (if nhList = [] then m.erase d else m.insert d { ep with nextHopList := nhList },
          ⟨d, ep.cost, h⟩)

end LsPaths

/-! ## The main loop -/

/-- A sum in an `int`. -/
def intAdd (a b : ℤ) : ℤ := (a + b).bmod (2 ^ 32)

/-- One link of the new node. -/
def relax (myNodeId_ newNodeId : ℤ) (paths : LsPaths) (nhl : List ℤ) (tentative : LsPaths)
    (link : LsLinkState) : LsPaths :=
  if link.status_ ≠ .up then tentative
  else
    let path_cost := intAdd link.cost_ (paths.lookupCost newNodeId)
    if paths.lookupCost link.neighborId_ < path_cost then tentative
    else tentative.insertNextHopList link.neighborId_ path_cost
      (if newNodeId = myNodeId_ then [link.neighborId_] else nhl)

/-- Step 2: the links of the new node. -/
def expand (myNodeId_ newNodeId : ℤ) (ptrLSL : List LsLinkState) (paths tentative : LsPaths) :
    Option LsPaths := do
  let nhl ← if newNodeId = myNodeId_ then some [] else paths[newNodeId]?.map LsEqualPaths.nextHopList
  some (ptrLSL.foldl (relax myNodeId_ newNodeId paths nhl) tentative)

/-- The shortest paths are popped and installed, until there is a node whose links are known.
The node is `none` when there are no more tentative paths. -/
def popLoop (db : LsMap ℤ (List LsLinkState)) :
    ℕ → LsPaths → LsPaths → Option (LsPaths × LsPaths × Option (ℤ × List LsLinkState))
  | 0, _, _ => none
  | n + 1, paths, tentative =>
    if tentative.isEmpty then some (paths, tentative, none)
    else
      let (tentative, sp) := tentative.popShortestPath
      if ¬ sp.isValid then none
      else
        let paths := paths.insertPath sp
        match db[sp.destination]? with
        | some ptrLSL => some (paths, tentative, some (sp.destination, ptrLSL))
        | none => popLoop db n paths tentative

def mainLoop (db : LsMap ℤ (List LsLinkState)) (myNodeId_ : ℤ) :
    ℕ → LsPaths → LsPaths → ℤ → List LsLinkState → Option LsPaths
  | 0, _, _, _, _ => none
  | n + 1, paths, tentative, newNodeId, ptrLSL => do
    let tentative ← expand myNodeId_ newNodeId ptrLSL paths tentative
    match ← popLoop db n paths tentative with
    | (paths, _, none) => some paths
    | (paths, tentative, some (newNodeId, ptrLSL)) =>
      mainLoop db myNodeId_ n paths tentative newNodeId ptrLSL

/-- `LsRouting::_computeRoutes`. -/
def _computeRoutes (db : LsMap ℤ (List LsLinkState)) (myNodeId_ : ℤ) (n : ℕ) : Option LsPaths :=
  let pPaths : LsPaths := (∅ : LsPaths).insert myNodeId_ ⟨0, [myNodeId_]⟩
  match db[myNodeId_]? with
  | none => some pPaths
  | some ptrLSL => mainLoop db myNodeId_ n pPaths ∅ myNodeId_ ptrLSL

end Ns2.LinkState
