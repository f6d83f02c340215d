import Ns2.Tcp.SlistBase
import Ns2.Lib.Run

/-!
# What the list counts

A `slist_base` of `tcp/nilist.cc` from its construction on, beside the list of nodes that its
operations are meant to keep.

* `SlistRun` — a list with the nodes it should hold; `SlistRun.step` is one call.
* `SlistRun.Legal` — how `remove` is called: with the node before the one that goes, or without one.
* `SlistRun.cycle_step` — a call that puts in new nodes only leaves the cycle of the nodes.
* `SlistRun.drift_step` — `count_` falls behind with each node taken out that is not there.
* `counts_iff` — so it counts the nodes exactly when there is no such call.
-/

namespace Ns2.Tcp

variable {Slink : Type*} [DecidableEq Slink]

/-! ## Calls -/

/-- A call of the list. -/
inductive SlistOp (Slink : Type*) where
  | insert (a : Slink)
  | append (a : Slink)
  | remove (a : Slink) (prev : Option Slink)
  | get

/-- A list, and the nodes it should hold. -/
structure SlistRun (Slink : Type*) where
  list : SlistBase Slink
  nodes : List Slink

namespace SlistRun

/-- A new list. -/
def new (next_ : Slink → Option Slink) (key_ : Slink → ℤ) : SlistRun Slink :=
  ⟨SlistBase.new next_ key_, []⟩

/-- One call.  A call of `get` that does not return leaves the list. -/
def step (w : SlistRun Slink) : SlistOp Slink → SlistRun Slink
  | .insert a => ⟨w.list.insert a, a :: w.nodes⟩
  | .append a => ⟨w.list.append a, w.nodes ++ [a]⟩
  | .remove a prev => ⟨w.list.remove a prev, w.nodes.erase a⟩
  | .get => ⟨(w.list.get.map Prod.snd).getD w.list, w.nodes.tail⟩

/-- `remove(a, prev)` is called with the node before `a`, or without one if `a` is the first node or
is not in the list. -/
def Legal (w : SlistRun Slink) : SlistOp Slink → Prop
  | .remove a (some prev) => [prev, a] <:+: w.nodes ++ w.nodes.take 1
  | .remove a none => w.nodes.head? = some a ∨ a ∉ w.nodes
  | _ => True

/-- A node is put in that is not in the list. -/
def Fresh (w : SlistRun Slink) : SlistOp Slink → Prop
  | .insert a => a ∉ w.nodes
  | .append a => a ∉ w.nodes
  | _ => True

/-- A node is taken out that is in the list. -/
def Hits (w : SlistRun Slink) : SlistOp Slink → Prop
  | .remove a _ => a ∈ w.nodes
  | .get => w.nodes ≠ []
  | _ => True

/-- `get` returns the first node, and `NULL` exactly if there is none. -/
def GetReturns (w : SlistRun Slink) : SlistOp Slink → Prop
  | .get => ∃ f s, w.list.get = some (f, s) ∧ f = w.nodes.head? ∧ (f = none ↔ w.nodes = [])
  | _ => True

/-- By how much the counter is too low. -/
def drift (w : SlistRun Slink) : ℤ := w.nodes.length - w.list.count_

/-- What a list should tell after a call: its nodes form the cycle of the abstract list, `count_` is
their number, and `get` returned what it should. -/
def Tells (w : SlistRun Slink) (op : SlistOp Slink) : Prop :=
  (w.step op).list.Cycle (w.step op).nodes ∧
    (w.step op).list.count_ = (w.step op).nodes.length ∧ w.GetReturns op

instance (w : SlistRun Slink) : ∀ op : SlistOp Slink, Decidable (w.Legal op)
  | .remove a (some prev) => inferInstanceAs (Decidable ([prev, a] <:+: _))
  | .remove a none => inferInstanceAs (Decidable (_ = some a ∨ a ∉ _))
  | .insert _ => .isTrue trivial
  | .append _ => .isTrue trivial
  | .get => .isTrue trivial

instance (w : SlistRun Slink) : ∀ op : SlistOp Slink, Decidable (w.Fresh op)
  | .insert a => inferInstanceAs (Decidable (a ∉ _))
  | .append a => inferInstanceAs (Decidable (a ∉ _))
  | .remove _ _ => .isTrue trivial
  | .get => .isTrue trivial

instance (w : SlistRun Slink) : ∀ op : SlistOp Slink, Decidable (w.Hits op)
  | .insert _ => .isTrue trivial
  | .append _ => .isTrue trivial
  | .remove a _ => inferInstanceAs (Decidable (a ∈ _))
  | .get => inferInstanceAs (Decidable (_ ≠ []))

/-! ## One call -/

variable {w : SlistRun Slink} {op : SlistOp Slink}

/-- What `get` leaves, and what it returns. -/
theorem get_step (h : w.list.Cycle w.nodes) :
    ∃ t, w.list.get = some (w.nodes.head?, t) ∧ w.step .get = ⟨t, w.nodes.tail⟩ ∧
      t.Cycle w.nodes.tail ∧ t.count_ = w.list.count_ - 1 := by
  obtain ⟨t, ht, hcycle, hcount⟩ := SlistBase.get_cycle h
  exact ⟨t, ht, by rw [step, ht]; rfl, hcycle, hcount⟩

/-- The cycle follows the abstract list, also where nothing is taken out, and `get` returns the first
node. -/
theorem cycle_step (h : w.list.Cycle w.nodes) (hl : w.Legal op) (hf : w.Fresh op) :
    (w.step op).list.Cycle (w.step op).nodes ∧ w.GetReturns op := by
  cases op with
  | insert a => exact ⟨SlistBase.insert_cycle h hf, trivial⟩
  | append a => exact ⟨SlistBase.append_cycle h hf, trivial⟩
  | remove a prev =>
      cases prev with
      | some p => exact ⟨SlistBase.remove_cycle h hl, trivial⟩
      | none => exact ⟨SlistBase.remove_none_cycle h hl, trivial⟩
  | get =>
      obtain ⟨t, ht, hstep, hcycle, -⟩ := get_step h
      rw [hstep]
      exact ⟨hcycle, w.nodes.head?, t, ht, rfl, List.head?_eq_none_iff⟩

/-- A call that takes out a node of the list, or none, keeps the counter in step. -/
theorem drift_of_hits (h : w.list.Cycle w.nodes) (hh : w.Hits op) : (w.step op).drift = w.drift := by
  cases op with
  | insert a => simp [step, drift]
  | append a => simp [step, drift]
  | remove a prev =>
      have hpos : 0 < w.nodes.length := List.length_pos_of_mem hh
      simp only [step, drift, SlistBase.remove_count, List.length_erase_of_mem hh]
      omega
  | get =>
      have hpos : 0 < w.nodes.length := List.length_pos_iff.2 hh
      obtain ⟨t, -, hstep, -, hcount⟩ := get_step h
      simp only [hstep, drift, hcount, List.length_tail]
      omega

/-- A call that takes out a node that is not there leaves the counter one lower. -/
theorem drift_of_not_hits (h : w.list.Cycle w.nodes) (hh : ¬ w.Hits op) :
    (w.step op).drift = w.drift + 1 := by
  cases op with
  | insert a => exact absurd trivial hh
  | append a => exact absurd trivial hh
  | remove a prev =>
      have hnot : a ∉ w.nodes := hh
      simp only [step, drift, SlistBase.remove_count, List.erase_of_not_mem hnot]
      omega
  | get =>
      have hnil : w.nodes = [] := not_not.1 hh
      obtain ⟨t, -, hstep, -, hcount⟩ := get_step h
      simp only [hstep, drift, hcount, hnil, List.tail_nil, List.length_nil]
      omega

omit [DecidableEq Slink] in
theorem count_eq_iff : w.list.count_ = w.nodes.length ↔ w.drift = 0 := by
  rw [drift, sub_eq_zero, eq_comm]

/-- A node that is put in twice leaves no cycle of the abstract list. -/
theorem fresh_of_cycle (h : (w.step op).list.Cycle (w.step op).nodes) : w.Fresh op := by
  cases op with
  | insert a => exact (List.nodup_cons.1 h.nodup).1
  | append a =>
      have hnd : (w.nodes ++ [a]).Nodup := h.nodup
      exact fun ha => (List.nodup_append.1 hnd).2.2 a ha a (List.mem_singleton_self a) rfl
  | remove a prev => trivial
  | get => trivial

/-! ## Runs -/

/-- **The cycle never breaks.**  In every run that puts in new nodes only, the nodes form the cycle
of the abstract list after each call, and `get` returns `NULL` exactly for the empty list. -/
theorem cycle_run (next_ : Slink → Option Slink) (key_ : Slink → ℤ) (ops : List (SlistOp Slink))
    (hrun : Run.AllSteps step (fun w op => w.Legal op ∧ w.Fresh op) (new next_ key_) ops) :
    Run.AllSteps step (fun w op => (w.step op).list.Cycle (w.step op).nodes ∧ w.GetReturns op)
      (new next_ key_) ops :=
  Run.allSteps_imp (I := fun w => w.list.Cycle w.nodes) (fun _ _ h hop => cycle_step h hop.1 hop.2)
    (fun _ _ h hop => (cycle_step h hop.1 hop.2).1) ops _ (SlistBase.new_cycle next_ key_) hrun

/-- **The counter never catches up.**  In every run that puts in new nodes only, each call leaves it
at least as far behind the number of nodes as it was. -/
theorem drift_run (next_ : Slink → Option Slink) (key_ : Slink → ℤ) (ops : List (SlistOp Slink))
    (hrun : Run.AllSteps step (fun w op => w.Legal op ∧ w.Fresh op) (new next_ key_) ops) :
    Run.AllSteps step (fun w op => w.drift ≤ (w.step op).drift) (new next_ key_) ops := by
  refine Run.allSteps_imp (I := fun w => w.list.Cycle w.nodes) ?_
    (fun _ _ h hop => (cycle_step h hop.1 hop.2).1) ops _ (SlistBase.new_cycle next_ key_) hrun
  intro w op h _
  by_cases hh : w.Hits op
  · rw [drift_of_hits h hh]
  · rw [drift_of_not_hits h hh]
    omega

/-- **The list counts what it holds exactly when only nodes that are there are taken out.**  In a run
of calls from a new list each call leaves the cycle of the abstract list with `count_` the number of
its nodes, and `get` returns `NULL` exactly for the empty list, if and only if no call puts in a node
that is in the list, removes one that is not, or gets one from the empty list. -/
theorem counts_iff (next_ : Slink → Option Slink) (key_ : Slink → ℤ) (ops : List (SlistOp Slink))
    (hlegal : Run.AllSteps step Legal (new next_ key_) ops) :
    Run.AllSteps step Tells (new next_ key_) ops ↔
      Run.AllSteps step (fun w op => w.Fresh op ∧ w.Hits op) (new next_ key_) ops := by
  refine Run.allSteps_congr_legal (I := fun w => w.list.Cycle w.nodes ∧ w.drift = 0) ?_ ?_ ops _
    ⟨SlistBase.new_cycle next_ key_, rfl⟩ hlegal
  · rintro w op ⟨h, hd⟩ hl
    rw [Tells, count_eq_iff]
    constructor
    · rintro ⟨hcycle, hd', -⟩
      refine ⟨fresh_of_cycle hcycle, ?_⟩
      by_contra hh
      rw [drift_of_not_hits h hh] at hd'
      omega
    · rintro ⟨hf, hh⟩
      have hstep := cycle_step h hl hf
      exact ⟨hstep.1, by rw [drift_of_hits h hh, hd], hstep.2⟩
  · rintro w op ⟨h, hd⟩ hl ⟨hf, hh⟩
    exact ⟨(cycle_step h hl hf).1, by rw [drift_of_hits h hh, hd]⟩

/-- Two segments are kept in order, and both are taken out. -/
theorem counts_two :
    Run.AllSteps step Tells (new (fun _ : ℕ => none) fun _ => 0)
      [.append 1, .append 2, .remove 2 (some 1), .get] :=
  (counts_iff _ _ _ (by decide)).2 (by decide)

/-- `get` on a new list counts one node less than none. -/
theorem counts_below_zero :
    ¬ ∀ ops : List (SlistOp ℕ),
      Run.AllSteps step Legal (new (fun _ => none) fun _ => 0) ops →
      Run.AllSteps step Tells (new (fun _ => none) fun _ => 0) ops := by
  intro hall
  have htells := (hall [.get] (by decide)).1
  have hcount : ((new (fun _ : ℕ => none) fun _ => 0).step .get).list.count_ = -1 := rfl
  rw [Tells, hcount] at htells
  exact absurd htells.2.1 (by decide)

end SlistRun

end Ns2.Tcp
