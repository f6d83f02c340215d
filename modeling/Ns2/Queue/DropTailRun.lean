import Ns2.Lib.Run
import Ns2.Queue.DropTail

/-!
# The limit of drop-tail queues

* `Ledger`, `step` — a queue, with the packets that arrived, were delivered and were dropped.
* `Accounted` — every packet that arrived is in one place, and those not dropped are in order.
* `Room` — what an arrival has to meet for the queue to stay within its limit.
* `drop_tail_iff` — **the queue respects its limit if every arrival finds room, and only then.**
-/

namespace Ns2.Queue.DropTail

open PacketQueue (Holds)

variable {c : Config} {size : ℕ → ℕ} {q : PacketQueue} {xs : List ℕ} {p : ℕ}

/-! ## One arrival -/

/-- What packets count for against the limit. -/
def Config.weight (c : Config) (size : ℕ → ℕ) (xs : List ℕ) : ℤ :=
  if c.qib_ then ((xs.map size).sum : ℕ) else xs.length

theorem weight_append (xs ys : List ℕ) :
    c.weight size (xs ++ ys) = c.weight size xs + c.weight size ys := by
  unfold Config.weight
  cases c.qib_ <;> simp

theorem weight_nonneg (xs : List ℕ) : 0 ≤ c.weight size xs := by
  unfold Config.weight
  split
  · exact Int.natCast_nonneg _
  · exact Int.natCast_nonneg _

theorem occupancy_eq (h : Holds size q xs) : c.occupancy q = c.weight size xs := by
  unfold Config.occupancy Config.weight
  rw [h.len, h.bytes]

theorem overflows_iff (h : Holds size q xs) :
    Overflows c size q p ↔ c.limit ≤ c.weight size (xs ++ [p]) := by
  unfold Overflows Config.limit Config.weight
  rw [h.len, h.bytes]
  cases c.qib_ <;> simp

/-- What an arrival does to the packets in the queue, and which packet is dropped. -/
inductive Arrival (c : Config) (size : ℕ → ℕ) (xs : List ℕ) (p : ℕ) : List ℕ → Option ℕ → Prop
  | kept (h : c.weight size (xs ++ [p]) < c.limit) : Arrival c size xs p (xs ++ [p]) none
  | dropped (h : c.limit ≤ c.weight size (xs ++ [p])) (hf : c.drop_front_ = false) :
    Arrival c size xs p xs (some p)
  | front {x : ℕ} {t : List ℕ} (h : c.limit ≤ c.weight size (xs ++ [p]))
    (hf : c.drop_front_ = true) (hx : xs ++ [p] = x :: t) : Arrival c size xs p t (some x)

/-- `enque` is one of these. -/
theorem enque_arrival (h : Holds size q xs) (hp : p ∉ xs) :
    ∃ q' ys d, enque c size q p = (q', d) ∧ Holds size q' ys ∧ Arrival c size xs p ys d := by
  unfold enque
  by_cases hover : Overflows c size q p
  · rw [if_pos hover]
    have hlimit := (overflows_iff h).mp hover
    cases hf : c.drop_front_ with
    | false => exact ⟨q, xs, some p, rfl, h, .dropped hlimit hf⟩
    | true =>
      obtain ⟨x, t, hx⟩ : ∃ x t, xs ++ [p] = x :: t :=
        List.exists_cons_of_ne_nil (by simp)
      have h' := h.enque hp
      rw [hx] at h'
      obtain ⟨q', hq', h''⟩ := h'.deque_cons
      exact ⟨q', t, some x, hq', h'', .front hlimit hf hx⟩
  · rw [if_neg hover]
    exact ⟨_, xs ++ [p], none, rfl, h.enque hp, .kept (not_le.mp fun hle =>
      hover ((overflows_iff h).mpr hle))⟩

/-- The limit is not negative, and in a queue of bytes that drops from the front the packet that
is dropped makes room for one that arrives when the queue is full. -/
def Room (c : Config) (size : ℕ → ℕ) (q : PacketQueue) (p : ℕ) : Prop :=
  0 ≤ c.limit ∧ (c.qib_ = true → c.drop_front_ = true → c.limit ≤ q.bytes_ + size p →
    (size p : ℤ) - size (q.head_.getD p) ≤ c.limit - q.bytes_)

/-- From within the limit, the queue stays within it exactly if the arrival finds room. -/
theorem Arrival.room_iff {ys : List ℕ} {d : Option ℕ} (ha : Arrival c size xs p ys d)
    (h : Holds size q xs) (hxs : c.weight size xs ≤ max c.limit 0) :
    Room c size q p ↔ c.weight size ys ≤ c.limit := by
  have hnonneg : 0 ≤ c.weight size ys := weight_nonneg ys
  unfold Room
  cases ha with
  | kept hlt =>
    rw [weight_append] at hlt hnonneg ⊢
    have hbytes : c.qib_ = true → q.bytes_ + size p = c.weight size xs + c.weight size [p] := by
      intro hqib
      simp [Config.weight, hqib, h.bytes]
    constructor
    · exact fun _ => hlt.le
    · refine fun hle => ⟨hnonneg.trans hle, fun hqib _ hfull => ?_⟩
      rw [hbytes hqib] at hfull
      omega
  | dropped hle hf =>
    constructor
    · rintro ⟨hlimit, -⟩
      rwa [max_eq_left hlimit] at hxs
    · intro hy
      exact ⟨hnonneg.trans hy, fun _ hf' => absurd (hf.symm.trans hf') Bool.false_ne_true⟩
  | @front x _ hle hf hx =>
    have hhead : q.head_.getD p = x := by
      have := congrArg List.head? hx
      rw [h.list.head]
      cases xs with
      | nil => simpa using this
      | cons a l => simpa using this
    have hsum : c.weight size xs + c.weight size [p] = c.weight size [x] + c.weight size ys := by
      rw [← weight_append, hx, ← List.singleton_append, weight_append]
    cases hqib : c.qib_ with
    | true =>
      have hbytes : q.bytes_ = c.weight size xs := by simp [Config.weight, hqib, h.bytes]
      have hp : (size p : ℤ) = c.weight size [p] := by simp [Config.weight, hqib]
      have hx' : (size x : ℤ) = c.weight size [x] := by simp [Config.weight, hqib]
      rw [weight_append] at hle
      rw [hhead, hbytes, hp, hx']
      constructor
      · rintro ⟨-, hroom⟩
        have := hroom rfl hf hle
        omega
      · intro hy
        exact ⟨hnonneg.trans hy, fun _ _ _ => by omega⟩
    | false =>
      -- one packet for another
      have hsame : c.weight size [p] = c.weight size [x] := by simp [Config.weight, hqib]
      have heq : c.weight size ys = c.weight size xs := by omega
      rw [heq] at hnonneg ⊢
      constructor
      · rintro ⟨hlimit, -⟩
        rwa [max_eq_left hlimit] at hxs
      · intro hy
        exact ⟨hnonneg.trans hy, fun hqib' => absurd hqib' (by simp)⟩

/-! ## Runs -/

/-- A packet arrives, or one is asked for. -/
inductive Op where
  | enque (p : ℕ)
  | deque
deriving DecidableEq

/-- A queue, and what became of the packets. -/
structure Ledger where
  queue : PacketQueue
  arrived : List ℕ
  delivered : List ℕ
  dropped : List ℕ

def start (next_ : ℕ → Option ℕ) : Ledger := ⟨.empty next_, [], [], []⟩

def step (c : Config) (size : ℕ → ℕ) (s : Ledger) : Op → Ledger
  | .enque p =>
    let r := enque c size s.queue p
    { s with queue := r.1, arrived := s.arrived ++ [p], dropped := s.dropped ++ r.2.toList }
  | .deque =>
    let r := deque size s.queue
    { s with queue := r.1, delivered := s.delivered ++ r.2.toList }

/-- A packet that arrives has not arrived before. -/
def Fresh (s : Ledger) (op : Op) : Prop := ∀ p, op = .enque p → p ∉ s.arrived

/-- Every packet that arrived is delivered, dropped or one of the `xs` in the queue, and only one
of these; the packets that were not dropped are in the order in which they arrived. -/
structure Account (size : ℕ → ℕ) (s : Ledger) (xs : List ℕ) : Prop where
  holds : Holds size s.queue xs
  perm : (s.delivered ++ s.dropped ++ xs).Perm s.arrived
  nodup : (s.delivered ++ s.dropped ++ xs).Nodup
  order : (s.delivered ++ xs).Sublist s.arrived

variable {s : Ledger}

theorem account_start (next_ : ℕ → Option ℕ) : Account size (start next_) [] :=
  ⟨PacketQueue.holds_empty next_, List.Perm.nil, List.nodup_nil, List.Sublist.refl _⟩

theorem Account.notMem (h : Account size s xs) (hp : p ∉ s.arrived) : p ∉ xs := fun hx =>
  hp (h.perm.mem_iff.mp (List.mem_append_right _ hx))

/-- The packets of the ledger after one more has arrived. -/
theorem Account.snoc (h : Account size s xs) (hp : p ∉ s.arrived) :
    (s.delivered ++ s.dropped ++ (xs ++ [p])).Perm (s.arrived ++ [p]) ∧
      (s.arrived ++ [p]).Nodup ∧ (s.delivered ++ (xs ++ [p])).Sublist (s.arrived ++ [p]) := by
  have hnd : s.arrived.Nodup := h.perm.nodup_iff.mp h.nodup
  refine ⟨?_, ?_, ?_⟩
  · rw [← List.append_assoc]
    exact h.perm.append_right [p]
  · exact List.nodup_append.mpr ⟨hnd, List.nodup_singleton p, by
      rintro x hx y hy rfl
      exact hp (List.mem_singleton.mp hy ▸ hx)⟩
  · rw [← List.append_assoc]
    exact h.order.append (List.Sublist.refl [p])

/-- A packet arrives. -/
theorem Account.enque (h : Account size s xs) (hp : p ∉ s.arrived) :
    ∃ ys d, Account size (step c size s (.enque p)) ys ∧ Arrival c size xs p ys d := by
  obtain ⟨q', ys, d, hq', hholds, harr⟩ := enque_arrival (c := c) h.holds (h.notMem hp)
  obtain ⟨hperm, hnd, hsub⟩ := h.snoc hp
  refine ⟨ys, d, ?_, harr⟩
  simp only [step, hq']
  cases harr with
  | kept =>
    have hperm' : (s.delivered ++ (s.dropped ++ []) ++ (xs ++ [p])).Perm (s.arrived ++ [p]) := by
      rwa [List.append_nil]
    exact ⟨hholds, hperm', hperm'.nodup_iff.mpr hnd, hsub⟩
  | dropped =>
    have hperm' : (s.delivered ++ (s.dropped ++ [p]) ++ xs).Perm (s.arrived ++ [p]) := by
      refine List.Perm.trans ?_ hperm
      rw [← List.append_assoc s.delivered, List.append_assoc _ [p] xs]
      exact List.Perm.append_left _ List.perm_append_comm
    exact ⟨hholds, hperm', hperm'.nodup_iff.mpr hnd,
      h.order.trans (List.sublist_append_left _ _)⟩
  | @front x t hle hf hx =>
    rw [hx] at hperm hsub
    have hperm' : (s.delivered ++ (s.dropped ++ [x]) ++ ys).Perm (s.arrived ++ [p]) := by
      simpa using hperm
    refine ⟨hholds, hperm', hperm'.nodup_iff.mpr hnd, List.Sublist.trans ?_ hsub⟩
    exact (List.Sublist.refl s.delivered).append (List.sublist_cons_self x ys)

/-- A packet is asked for. -/
theorem Account.deque (h : Account size s xs) :
    ∃ ys, Account size (step c size s .deque) ys ∧ c.weight size ys ≤ c.weight size xs := by
  cases xs with
  | nil =>
    have hd := h.holds.deque_nil
    refine ⟨[], ?_, le_refl _⟩
    simp only [step, DropTail.deque, hd, Option.toList_none, List.append_nil]
    exact h
  | cons p t =>
    obtain ⟨q', hd, hholds⟩ := h.holds.deque_cons
    refine ⟨t, ?_, ?_⟩
    · simp only [step, DropTail.deque, hd, Option.toList_some]
      have hperm : (s.delivered ++ [p] ++ s.dropped ++ t).Perm
          (s.delivered ++ s.dropped ++ p :: t) := by
        simp only [List.append_assoc, List.singleton_append]
        refine List.Perm.append_left _ ?_
        exact List.perm_middle.symm
      exact ⟨hholds, hperm.trans h.perm, hperm.nodup_iff.mpr h.nodup, by simpa using h.order⟩
    · have : 0 ≤ c.weight size [p] := weight_nonneg [p]
      rw [← List.singleton_append, weight_append]
      omega

/-- After an `enque` the queue is within its limit, and every packet is accounted for. -/
def Within (c : Config) (size : ℕ → ℕ) (pre : List Op) (s : Ledger) : Prop :=
  (∀ p, pre.getLast? = some (.enque p) → c.occupancy s.queue ≤ c.limit) ∧ ∃ xs, Account size s xs

/-- This holds at all times of a run. -/
def Respects (c : Config) (size : ℕ → ℕ) (next_ : ℕ → Option ℕ) (ops : List Op) : Prop :=
  ∀ pre, pre <+: ops → Within c size pre (pre.foldl (step c size) (start next_))

/-- If the call is an arrival, it finds room. -/
def FindsRoom (c : Config) (size : ℕ → ℕ) (s : Ledger) (op : Op) : Prop :=
  ∀ p, op = .enque p → Room c size s.queue p

/-- The invariant of runs in which every arrival finds room. -/
def Bounded (c : Config) (size : ℕ → ℕ) (pre : List Op) (s : Ledger) : Prop :=
  Within c size pre s ∧ c.occupancy s.queue ≤ max c.limit 0

theorem bounded_start (next_ : ℕ → Option ℕ) : Bounded c size [] (start next_) := by
  have h : Account size (start next_) [] := account_start next_
  refine ⟨⟨fun p hp => by simp at hp, [], h⟩, ?_⟩
  rw [occupancy_eq h.holds]
  simp [Config.weight]

theorem Bounded.findsRoom_iff {pre : List Op} {op : Op} (h : Bounded c size pre s)
    (hfresh : Fresh s op) :
    FindsRoom c size s op ↔ Within c size (pre ++ [op]) (step c size s op) := by
  obtain ⟨⟨-, xs, hacc⟩, hmax⟩ := h
  cases op with
  | enque p =>
    obtain ⟨ys, d, hacc', harr⟩ := hacc.enque (c := c) (hfresh p rfl)
    have hroom := harr.room_iff hacc.holds (occupancy_eq hacc.holds ▸ hmax)
    rw [← occupancy_eq hacc'.holds] at hroom
    constructor
    · exact fun hr => ⟨fun _ _ => hroom.mp (hr p rfl), ys, hacc'⟩
    · rintro ⟨hle, -⟩ _ ⟨rfl⟩
      exact hroom.mpr (hle p (by simp))
  | deque =>
    obtain ⟨ys, hacc', -⟩ := hacc.deque (c := c)
    exact iff_of_true (fun p hp => by simp at hp) ⟨fun p hp => by simp at hp, ys, hacc'⟩

theorem Bounded.step {pre : List Op} {op : Op} (h : Bounded c size pre s) (hfresh : Fresh s op)
    (hroom : FindsRoom c size s op) : Bounded c size (pre ++ [op]) (step c size s op) := by
  have hwithin := (h.findsRoom_iff hfresh).mp hroom
  refine ⟨hwithin, ?_⟩
  obtain ⟨⟨-, xs, hacc⟩, hmax⟩ := h
  cases op with
  | enque p => exact (hwithin.1 p (by simp)).trans (le_max_left _ _)
  | deque =>
    obtain ⟨ys, hacc', hle⟩ := hacc.deque (c := c)
    rw [occupancy_eq hacc.holds] at hmax
    rw [occupancy_eq hacc'.holds]
    exact hle.trans hmax

/-- **The queue respects its limit if every arrival finds room, and only then.** -/
theorem drop_tail_iff (c : Config) (size : ℕ → ℕ) (next_ : ℕ → Option ℕ) (ops : List Op)
    (hops : Run.AllSteps (step c size) Fresh (start next_) ops) :
    Respects c size next_ ops ↔
      Run.AllSteps (step c size) (FindsRoom c size) (start next_) ops := by
  symm
  refine Run.allSteps_iff_forall_prefix_legal (I := Bounded c size) ?_ ?_ ?_ ops []
    (start next_) hops (bounded_start next_)
  · exact fun _ _ h => h.1
  · exact fun _ _ _ hfresh h => h.findsRoom_iff hfresh
  · exact fun _ _ _ hfresh h => h.step hfresh

/-- A queue of bytes that drops from the front, all packets of one size. -/
theorem drop_tail_iff_equal :
    Respects ⟨2, 1000, true, true⟩ (fun _ => 900) (fun _ => none)
      [.enque 0, .enque 1, .enque 2, .enque 3, .deque] :=
  (drop_tail_iff ⟨2, 1000, true, true⟩ (fun _ => 900) (fun _ => none)
    [.enque 0, .enque 1, .enque 2, .enque 3, .deque] (by simp [Fresh, step, start])).mpr
    (by simp [FindsRoom, Room]; decide)

/-- A small packet is dropped from the front for a large one. -/
theorem not_respects_large : ¬ Respects ⟨2, 1000, true, true⟩
    (fun p => if p = 0 then 40 else 1500) (fun _ => none) [.enque 0, .enque 1, .enque 2] := by
  intro h
  have hle := (h _ (List.prefix_refl _)).1 2 rfl
  exact absurd hle (by decide)

end Ns2.Queue.DropTail
