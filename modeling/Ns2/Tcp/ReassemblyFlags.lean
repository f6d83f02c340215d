import Ns2.Tcp.ReassemblyRun

/-!
# The flags of reassembled segments

What becomes of the TCP flags of the segments given to `ReassemblyQueue::add`.  `coalesce`
gives the block before a hole the flags of the segment that fills it, and forgets those of
the block after it.

* `Ledger` — a queue, the flags its numbers came with, and what `clearto` has returned.
* `Kept` — no flag is lost, neither in the queue nor by `clearto`.
* `SafeBridge` — an `add` that joins two blocks finds the flags of the second elsewhere.
* `flags_never_lost` — flags are kept in all runs of such steps.
-/

namespace Ns2.Tcp.ReassemblyQueue

open Linked Intervals

variable {q : ReassemblyQueue} {xs : List Ptr}

/-- The nodes of the FIFO. -/
def fifoNodes (q : ReassemblyQueue) : List Ptr := follow q.next_ q.bound q.head_

theorem follow_eq {f : Ptr → Option Ptr} :
    ∀ {B : List Ptr} {fuel : ℕ} {A : List Ptr},
      (∀ A' x B', A ++ B = A' ++ x :: B' → f x = B'.head?) → B.length < fuel →
      follow f fuel B.head? = B := by
  intro B
  induction B with
  | nil =>
    intro fuel A _ hf
    obtain ⟨fuel, rfl⟩ := Nat.exists_eq_succ_of_ne_zero hf.ne_bot
    rfl
  | cons b B ih =>
    intro fuel A h hf
    obtain ⟨fuel, rfl⟩ := Nat.exists_eq_succ_of_ne_zero hf.ne_bot
    rw [List.head?_cons, follow, h A b B rfl]
    rw [ih (A := A ++ [b]) (fun A' x B' hB => h A' x B' (by simpa using hB)) (by simpa using hf)]

theorem Holds.fifoNodes_eq (h : q.Holds xs) : q.fifoNodes = xs := by
  rw [fifoNodes, h.head_eq]
  exact follow_eq (A := []) (fun A' x B' hB => h.fifo.next A' x B' hB) h.length_lt_bound

/-- A queue with the flags that are owed for it. -/
structure Ledger where
  queue : Option ReassemblyQueue
  /-- The numbers in the queue, each with the flags of the segments that it came with. -/
  owed : Set (ℤ × ℕ)
  /-- The flags of the segments of which something has been cleared. -/
  cleared : Set ℕ
  /-- The union of the values that `clearto` has returned. -/
  returned : TcpFlag

namespace Ledger

/-- A new queue. -/
def new (rcvnxt : ℤ) : Ledger := ⟨some (ReassemblyQueue.new rcvnxt), ∅, ∅, 0⟩

/-- The flags that an operation returns for what it clears. -/
def flagsOf (q? : Option ReassemblyQueue) : Op → TcpFlag
  | .add .. => 0
  | .clearto seq => (q?.bind (·.clearto seq)).elim 0 Prod.snd
  | .moveTo rcvnxt =>
    (q?.bind fun q => { q with rcv_nxt_ := rcvnxt }.cleartonxt).elim 0 Prod.snd
  | .init _ => 0

/-- The flags of the numbers before `seq`. -/
def before (owed : Set (ℤ × ℕ)) (seq : ℤ) : Set ℕ := {j | ∃ n, n < seq ∧ (n, j) ∈ owed}

/-- One operation. -/
def step (l : Ledger) (o : Op) : Ledger where
  queue := exec l.queue o
  owed :=
    match o with
    | .add start stop tiflags _ _ => l.owed ∪ flaggedRange start stop tiflags
    | .clearto seq => l.owed ∩ {a | seq ≤ a.1}
    | .moveTo rcvnxt => l.owed ∩ {a | rcvnxt ≤ a.1}
    | .init _ => ∅
  cleared :=
    match o with
    | .clearto seq => l.cleared ∪ before l.owed seq
    | .moveTo rcvnxt => l.cleared ∪ before l.owed rcvnxt
    | _ => l.cleared
  returned := l.returned ||| flagsOf l.queue o

/-- Each block of the queue has every flag of every segment that it has a number of, and every
flag of a segment of which something has been cleared was returned. -/
def Kept (l : Ledger) : Prop :=
  ∃ q, l.queue = some q ∧
    (∀ x ∈ q.fifoNodes, ∀ n j, q.startseq_ x ≤ n → n < q.endseq_ x → (n, j) ∈ l.owed →
      (q.pflags_ x).testBit j) ∧
    ∀ j ∈ l.cleared, l.returned.testBit j

/-- If the operation is an `add` that joins two blocks, it finds the flags of the second one in
the first, in the segment or in a block inside of it. -/
def SafeBridge (l : Ledger) : Op → Prop
  | .add start stop tiflags _ _ =>
    ∀ q ∈ l.queue, q.BridgeFlags q.fifoNodes start stop tiflags
  | _ => True

/-- The invariant of the runs that keep the flags. -/
structure Inv (l : Ledger) (q : ReassemblyQueue) (xs : List Ptr) : Prop where
  queue : l.queue = some q
  holds : q.Holds xs
  flags : l.owed ⊆ q.flagged xs
  returned : ∀ j ∈ l.cleared, l.returned.testBit j

theorem Inv.kept {l : Ledger} (h : Inv l q xs) : l.Kept := by
  refine ⟨q, h.queue, fun x hx n j hlo hhi hn => ?_, h.returned⟩
  rw [h.holds.fifoNodes_eq] at hx
  obtain ⟨y, hy, h1, h2, h3⟩ := h.flags hn
  rwa [h.holds.blocks.eq_of_mem hx hy ⟨hlo, hhi⟩ ⟨h1, h2⟩]

/-- Clearing up to `seq`. -/
theorem Inv.clear {l l' : Ledger} {q' : ReassemblyQueue} {xs' : List Ptr} {seq : ℤ}
    {flag : TcpFlag} (h : Inv l q xs) (hf : FlagsCleared q xs seq flag q' xs')
    (hq : l'.queue = some q') (hholds : q'.Holds xs') (howed : l'.owed = l.owed ∩ {a | seq ≤ a.1})
    (hcleared : l'.cleared = l.cleared ∪ before l.owed seq)
    (hreturned : l'.returned = l.returned ||| flag) : Inv l' q' xs' := by
  refine ⟨hq, hholds, fun a ha => ?_, fun j hj => ?_⟩
  · rw [howed] at ha
    exact hf.kept a (h.flags ha.1) ha.2
  · rw [hreturned]
    rw [hcleared] at hj
    rcases hj with hj | ⟨n, hn, hj⟩
    · exact testBit_or_left (h.returned j hj)
    · exact testBit_or_right (hf.returned (n, j) (h.flags hj) hn)

theorem Inv.step {l : Ledger} (h : Inv l q xs) (o : Op) (ho : l.SafeBridge o) :
    ∃ q' xs', Inv (l.step o) q' xs' := by
  cases o with
  | add start stop tiflags rqflags hlt =>
    obtain ⟨q', flag, xs', h1, h2⟩ := add_spec (g := tiflags) (f := rqflags) h.holds hlt
    have hb := ho q h.queue
    rw [h.holds.fifoNodes_eq] at hb
    refine ⟨q', xs', ?_, h2.holds, ?_, fun j hj => testBit_or_left (h.returned j hj)⟩
    · rw [Ledger.step, h.queue, exec, Option.bind_some, ReassemblyQueue.step, h1, Option.map_some]
    · exact (Set.union_subset_union_left _ h.flags).trans (h2.flags hb)
  | clearto seq =>
    obtain ⟨q', flag, xs', h1, h2, -, -, -, h3⟩ := clearto_spec seq h.holds
    refine ⟨q', xs', h.clear h3 ?_ h2 rfl rfl ?_⟩
    · rw [Ledger.step, h.queue, exec, Option.bind_some, ReassemblyQueue.step, h1, Option.map_some]
    · rw [Ledger.step, flagsOf, h.queue, Option.bind_some, h1, Option.elim_some]
  | moveTo rcvnxt =>
    have hq : Inv { l with queue := some { q with rcv_nxt_ := rcvnxt } }
        { q with rcv_nxt_ := rcvnxt } xs :=
      ⟨rfl, ⟨h.holds.links, h.holds.blocks, h.holds.count⟩, h.flags, h.returned⟩
    obtain ⟨q', flag, xs', h1, h2, -, -, -, h3⟩ := clearto_spec rcvnxt hq.holds
    refine ⟨q', xs', hq.clear h3 ?_ h2 rfl rfl ?_⟩
    · rw [Ledger.step, h.queue, exec, Option.bind_some, ReassemblyQueue.step, cleartonxt, h1,
        Option.map_some]
    · rw [Ledger.step, flagsOf, h.queue, Option.bind_some, cleartonxt, h1, Option.elim_some]
  | init rcvnxt =>
    obtain ⟨q', h1, h2, -⟩ := clear_spec (q := { q with rcv_nxt_ := rcvnxt })
      ⟨h.holds.links, h.holds.blocks, h.holds.count⟩
    refine ⟨q', [], ?_, h2, Set.empty_subset _, fun j hj => testBit_or_left (h.returned j hj)⟩
    rw [Ledger.step, h.queue, exec, Option.bind_some, ReassemblyQueue.step, ReassemblyQueue.init, h1]

/-- **Flags are never lost** in a run whose steps are all safe, in any state that it passes. -/
theorem flags_never_lost (rcvnxt : ℤ) (ops : List Op)
    (h : Run.AllSteps step SafeBridge (new rcvnxt) ops) :
    ∀ p, p <+: ops → (p.foldl step (new rcvnxt)).Kept := by
  rintro p ⟨r, rfl⟩
  rw [Run.allSteps_append] at h
  have hstart : ∃ q xs, Inv (new rcvnxt) q xs :=
    ⟨_, [], rfl, holds_new rcvnxt, Set.empty_subset _, by simp [new]⟩
  obtain ⟨q, xs, hinv⟩ := Run.foldl_invariant (I := fun _ l => ∃ q xs, Inv l q xs)
    (fun _ _ o ⟨_, _, hi⟩ ho => hi.step o ho) p [] _ hstart h.1
  exact hinv.kept

/-- Blocks with the same flags may be joined. -/
theorem bridgeFlags_of_eq {s e : ℤ} {g : TcpFlag}
    (h : ∀ x ∈ xs, ∀ y ∈ xs, q.pflags_ x = q.pflags_ y) : q.BridgeFlags xs s e g :=
  fun x hx y hy _ _ _ _ _ _ hj => Or.inl (testBit_or_left (h x hx y hy ▸ hj))

/-- The FIN of the two blocks around a hole is returned after it has been filled. -/
theorem flags_never_lost_hole :
    ([.add 0 10 1 0 (by decide), .add 20 30 1 0 (by decide), .add 10 20 0 0 (by decide),
      .clearto 30].foldl step (new 0)).Kept := by
  have hsame : ∀ ops : List Op, ((ops.foldl step (new 0)).queue.all fun q =>
      q.fifoNodes.all fun x => q.fifoNodes.all fun y => q.pflags_ x = q.pflags_ y) = true →
      ∀ start stop tiflags rqflags h,
        SafeBridge (ops.foldl step (new 0)) (.add start stop tiflags rqflags h) := by
    intro ops hops start stop tiflags rqflags h q hq
    rw [hq, Option.all_some] at hops
    exact bridgeFlags_of_eq (by simpa using hops)
  refine flags_never_lost 0 [.add 0 10 1 0 (by decide), .add 20 30 1 0 (by decide),
    .add 10 20 0 0 (by decide), .clearto 30] ⟨?_, ?_, ?_, trivial, trivial⟩ _ (List.prefix_refl _)
  · exact hsame [] (by decide +kernel) _ _ _ _ _
  · exact hsame [.add 0 10 1 0 (by decide)] (by decide +kernel) _ _ _ _ _
  · exact hsame [.add 0 10 1 0 (by decide), .add 20 30 1 0 (by decide)] (by decide +kernel) _ _ _ _ _

/-- The FIN of a segment that arrived out of order is lost when the hole before it is filled. -/
theorem not_kept_fin :
    ¬ ([.add 0 10 0 0 (by decide), .add 20 30 1 0 (by decide), .add 10 20 0 0 (by decide),
      .clearto 30].foldl step (new 0)).Kept := by
  rintro ⟨q, -, -, h⟩
  have hret : ([.add 0 10 0 0 (by decide), .add 20 30 1 0 (by decide), .add 10 20 0 0 (by decide),
      .clearto 30].foldl step (new 0)).returned = 0 := by decide +kernel
  have := h 0 (Or.inr ⟨20, by decide, Or.inl (Or.inr ⟨by decide, by decide, by decide⟩)⟩)
  rw [hret] at this
  exact absurd this (by decide)

end Ledger

end Ns2.Tcp.ReassemblyQueue
