import Ns2.Lib.Upsert

/-!
# The link-state database

`LsTopoMap` of the link-state protocol: for each node the list of its links, as that node has
announced them.

* `LsLinkState`, `LsTopoMap` — a link, and the database.
* `update` — put the links of a node, changing old entries in place.
* `mem_update` — the links put are there afterwards.
* `LsMessageHistory`, `isNewMessage` — the last sequence number seen from each node.
-/

namespace Ns2.LinkState

/-- A `std::map`: ordered by key, and iterated in that order. -/
abbrev LsMap (κ β : Type) [Ord κ] := Std.TreeMap κ β

section

variable {κ β : Type} [Ord κ] [Std.TransOrd κ] [Std.LawfulEqOrd κ] [DecidableEq κ]

theorem getElem?_lsInsert (m : LsMap κ β) (k a : κ) (v : β) :
    (m.insert k v)[a]? = if a = k then some v else m[a]? := by
  rw [Std.TreeMap.getElem?_insert]
  simp only [Std.compare_eq_iff_eq, eq_comm (a := a)]

theorem getElem?_lsErase (m : LsMap κ β) (k a : κ) :
    (m.erase k)[a]? = if a = k then none else m[a]? := by
  rw [Std.TreeMap.getElem?_erase]
  simp only [Std.compare_eq_iff_eq, eq_comm (a := a)]

end

/-- `ls_status_t`. -/
inductive LsStatus where
  | down
  | up
deriving DecidableEq, Repr

/-- A link of a node, to the neighbor `neighborId_`. -/
structure LsLinkState where
  neighborId_ : ℤ
  status_ : LsStatus
  cost_ : ℤ
  /-- The constructor leaves it as it is in memory; `sendLinkStates` sets it. -/
  sequenceNumber_ : UInt32
deriving DecidableEq, Repr

/-- The links of a node as its agent reports them: one for each neighbor. -/
abbrev LinkList := {l : List LsLinkState // (l.map LsLinkState.neighborId_).Nodup}

/-- The database of a node. -/
structure LsTopoMap where
  map : LsMap ℤ (List LsLinkState)
  /-- Whose database it is. -/
  myNodeId_ : ℤ

/-! ## `update` -/

/-- An old entry with the data of a new one.  The node's own links keep their sequence
numbers. -/
def LsLinkState.renew (mine : Bool) (old new : LsLinkState) : LsLinkState :=
  { old with
    sequenceNumber_ := if mine then old.sequenceNumber_ else new.sequenceNumber_
    status_ := new.status_
    cost_ := new.cost_ }

/-- One link of the new list: the old entries are searched for its neighbor.  Also whether
anything has changed. -/
def updateLink (mine : Bool) : List LsLinkState → LsLinkState → List LsLinkState × Bool
  | [], new => ([new], true)
  | old :: rest, new =>
    if new.neighborId_ = old.neighborId_ then
      (old.renew mine new :: rest,
        decide (new.status_ ≠ old.status_) || decide (new.cost_ ≠ old.cost_))
    else
      let (l, changed) := updateLink mine rest new
      (old :: l, changed)

/-- All links of the new list. -/
def updateLinks (mine : Bool) (old new : List LsLinkState) : List LsLinkState × Bool :=
  new.foldl (fun r link => ((updateLink mine r.1 link).1, r.2 || (updateLink mine r.1 link).2))
    (old, false)

/-- `LsTopoMap::update`: true if anything has changed. -/
def LsTopoMap.update (db : LsTopoMap) (nodeId : ℤ) (linkStateList : List LsLinkState) :
    LsTopoMap × Bool :=
  match db.map[nodeId]? with
  | none => ({ db with map := db.map.insert nodeId linkStateList }, true)
  | some old =>
    let (l, changed) := updateLinks (decide (nodeId = db.myNodeId_)) old linkStateList
    ({ db with map := db.map.insert nodeId l }, changed)

section

variable {db : LsTopoMap} {mine : Bool} {nodeId n : ℤ} {old new l : List LsLinkState}

theorem updateLink_fst (mine : Bool) (old : List LsLinkState) (new : LsLinkState) :
    (updateLink mine old new).1 =
      Upsert.upsert LsLinkState.neighborId_ (LsLinkState.renew mine) old new := by
  induction old with
  | nil => rfl
  | cons a old ih =>
    by_cases h : new.neighborId_ = a.neighborId_
    · rw [Upsert.upsert_cons_eq h, updateLink, if_pos h]
    · rw [Upsert.upsert_cons_ne h, updateLink, if_neg h, ← ih]

theorem updateLinks_fst (mine : Bool) (old new : List LsLinkState) :
    (updateLinks mine old new).1 =
      Upsert.upsertAll LsLinkState.neighborId_ (LsLinkState.renew mine) old new := by
  unfold updateLinks
  generalize false = changed
  induction new generalizing old changed with
  | nil => rfl
  | cons a new ih =>
    rw [List.foldl_cons, ih, Upsert.upsertAll_cons, updateLink_fst]

theorem neighborId_renew (mine : Bool) (a b : LsLinkState) :
    (a.renew mine b).neighborId_ = a.neighborId_ := rfl

/-- Of another node, nothing of the old entry stays. -/
theorem renew_false (a b : LsLinkState) (h : b.neighborId_ = a.neighborId_) :
    a.renew false b = b := by
  cases a
  cases b
  cases h
  rfl

/-- What the database holds of `nodeId` after an update. -/
def updated (db : LsTopoMap) (nodeId : ℤ) (l : List LsLinkState) : List LsLinkState :=
  match db.map[nodeId]? with
  | none => l
  | some old => (updateLinks (decide (nodeId = db.myNodeId_)) old l).1

/-- `update` writes the record of one node. -/
theorem update_fst (db : LsTopoMap) (nodeId : ℤ) (l : List LsLinkState) :
    (db.update nodeId l).1 = { db with map := db.map.insert nodeId (updated db nodeId l) } := by
  unfold LsTopoMap.update updated
  cases db.map[nodeId]? <;> rfl

theorem getElem?_update (db : LsTopoMap) (nodeId n : ℤ) (l : List LsLinkState) :
    (db.update nodeId l).1.map[n]? =
      if n = nodeId then some (updated db nodeId l) else db.map[n]? := by
  rw [update_fst]
  exact getElem?_lsInsert _ _ _ _

@[simp] theorem update_myNodeId (db : LsTopoMap) (nodeId : ℤ) (l : List LsLinkState) :
    (db.update nodeId l).1.myNodeId_ = db.myNodeId_ := by
  rw [update_fst]

/-- Neighbors stay distinct. -/
theorem nodup_updated (hl : (l.map LsLinkState.neighborId_).Nodup)
    (hdb : ∀ old, db.map[nodeId]? = some old → (old.map LsLinkState.neighborId_).Nodup) :
    ((updated db nodeId l).map LsLinkState.neighborId_).Nodup := by
  unfold updated
  cases hold : db.map[nodeId]? with
  | none => exact hl
  | some old =>
    simp only
    rw [updateLinks_fst]
    exact Upsert.nodup_map_upsertAll (neighborId_renew _) l (hdb old hold)

/-- **The links of another node are in the database after an update**, with their sequence
numbers. -/
theorem mem_updated (hl : (l.map LsLinkState.neighborId_).Nodup) (hn : nodeId ≠ db.myNodeId_) :
    ∀ link ∈ l, link ∈ updated db nodeId l := by
  unfold updated
  cases db.map[nodeId]? with
  | none => exact fun link h => h
  | some old =>
    simp only [decide_eq_false hn]
    rw [updateLinks_fst]
    exact Upsert.mem_upsertAll renew_false hl old

end

/-! ## `isNewMessage` -/

/-- `LsMessageHistory`: the last sequence number of each node. -/
abbrev LsMessageHistory := LsMap ℤ UInt32

/-- `LS_WRAPAROUND_THRESHOLD`. -/
def LS_WRAPAROUND_THRESHOLD : UInt32 := 1073741824

/-- A sequence number is more recent than an old one. -/
def moreUpToDate (old new : UInt32) : Bool :=
  decide (old < new) || decide (LS_WRAPAROUND_THRESHOLD < old - new)

/-- Whether `isNewMessage` says so. -/
def LsMessageHistory.isNew (h : LsMessageHistory) (origin : ℤ) (seq : UInt32) : Bool :=
  match h[origin]? with
  | some old => moreUpToDate old seq
  | none => true

/-- `LsMessageHistory::isNewMessage`: a new message is written down as well. -/
def LsMessageHistory.isNewMessage (h : LsMessageHistory) (origin : ℤ) (seq : UInt32) :
    LsMessageHistory × Bool :=
  match h[origin]? with
  | some old => if moreUpToDate old seq then (h.insert origin seq, true) else (h, false)
  | none => (h.insert origin seq, true)

theorem isNewMessage_snd (h : LsMessageHistory) (origin : ℤ) (seq : UInt32) :
    (h.isNewMessage origin seq).2 = h.isNew origin seq := by
  unfold LsMessageHistory.isNewMessage LsMessageHistory.isNew
  cases h[origin]? with
  | none => rfl
  | some old => cases hu : moreUpToDate old seq <;> simp [hu]

/-- A new message is in the history afterwards. -/
theorem isNewMessage_fst {h : LsMessageHistory} {origin : ℤ} {seq : UInt32}
    (hn : h.isNew origin seq = true) :
    (h.isNewMessage origin seq).1 = h.insert origin seq := by
  unfold LsMessageHistory.isNewMessage
  unfold LsMessageHistory.isNew at hn
  cases hh : h[origin]? with
  | none => rfl
  | some old =>
    simp only [hh] at hn
    simp only [hn, if_true]

end Ns2.LinkState
