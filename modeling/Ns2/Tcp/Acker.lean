import Ns2.Lib.Ring

/-!
# The acker of a TCP sink

`Acker` of `tcp/tcp-sink.cc`: the packets received are kept in a ring, which holds the
number of bytes of each of them, from the next one expected to the highest one seen.  The
ring is made larger when a packet does not fit.

* `Acker.update` — the source function, with `resizeBuffers`, `markNew` and `deliver`,
  its loops.  A loop that does not come to an end is `none`.
* `Exact` — the invariant: the ring says of every packet of the window whether it was
  received, and how large it is.
* `update_spec` — one packet.
* `update_exact` — any packets: `next_` is the first one missing, and the bytes delivered
  are those of the packets below it.
-/

namespace Ns2.Tcp

open Ring

/-- The part of `Acker` that `update` reads and writes.  `seen_` is an array of
`wndmask_ + 1` numbers. -/
structure Acker where
  /-- Next packet expected. -/
  next_ : ℕ
  /-- Highest packet seen. -/
  maxseen_ : ℕ
  /-- Window mask. -/
  wndmask_ : ℕ
  /-- Bytes of the packets seen. -/
  seen_ : ℕ → ℤ
  /-- The last packet is a duplicate. -/
  is_dup_ : Bool

namespace Acker

/-- `MWM`. -/
def mwm : ℕ := 63

/-- The constructor. -/
def new : Acker where
  next_ := 0
  maxseen_ := 0
  wndmask_ := mwm
  seen_ _ := 0
  is_dup_ := false

/-- `resize_buffers`. -/
def resizeBuffers (a : Acker) (sz : ℕ) : Acker :=
  let new_wndmask := sz - 1
  { a with
    seen_ := (List.range' a.next_ (a.maxseen_ + 2 - a.next_)).foldl
      (fun f i => Function.update f (i &&& new_wndmask) (a.seen_ (i &&& a.wndmask_))) fun _ => 0
    wndmask_ := new_wndmask }

/-- The loop of `update` that makes the ring larger. -/
def growLoop (seq : ℕ) : ℕ → Acker → Option Acker
  | 0, _ => none
  | fuel + 1, a =>
    if seq + 1 ≥ a.next_ + a.wndmask_ then
      growLoop seq fuel (a.resizeBuffers ((a.wndmask_ + 1) * 2))
    else some a

/-- The packet is the highest one seen so far: those between are not seen yet, and the
entry after it is cleared. -/
def markNew (a : Acker) (seq : ℕ) (numBytes : ℤ) : Acker :=
  let seen := (List.range' (a.maxseen_ + 1) (seq - (a.maxseen_ + 1))).foldl
    (fun f i => Function.update f (i &&& a.wndmask_) 0) a.seen_
  { a with
    maxseen_ := seq
    seen_ := Function.update (Function.update seen (seq &&& a.wndmask_) numBytes)
      ((seq + 1) &&& a.wndmask_) 0 }

@[simp] theorem markNew_next_ (a : Acker) (seq : ℕ) (numBytes : ℤ) :
    (a.markNew seq numBytes).next_ = a.next_ := rfl

@[simp] theorem markNew_maxseen_ (a : Acker) (seq : ℕ) (numBytes : ℤ) :
    (a.markNew seq numBytes).maxseen_ = seq := rfl

@[simp] theorem markNew_wndmask_ (a : Acker) (seq : ℕ) (numBytes : ℤ) :
    (a.markNew seq numBytes).wndmask_ = a.wndmask_ := rfl

/-- The loop of `update` that slides the window: the new left edge, and the bytes to be
delivered. -/
def deliver (a : Acker) : ℕ → ℕ → ℤ → Option (ℕ × ℤ)
  | 0, _, _ => none
  | fuel + 1, next, numToDeliver =>
    if a.seen_ (next &&& a.wndmask_) ≠ 0 then
      deliver a fuel (next + 1) (numToDeliver + a.seen_ (next &&& a.wndmask_))
    else some (next, numToDeliver)

/-- The last part of `update`, for a packet in the window. -/
def accept (a : Acker) (seq : ℕ) (numBytes : ℤ) (just_marked_as_seen : Bool) : Option (Acker × ℤ) :=
  let a' := { a with
    is_dup_ := a.is_dup_ || (a.seen_ (seq &&& a.wndmask_) ≠ 0 ∧ just_marked_as_seen = false)
    seen_ := Function.update a.seen_ (seq &&& a.wndmask_) numBytes }
  (a'.deliver (a'.wndmask_ + 2) a'.next_ 0).map fun r => ({ a' with next_ := r.1 }, r.2)

/-- `update`; the second component is the number of bytes that it returns. -/
def update (a : Acker) (seq : ℕ) (numBytes : ℤ) : Option (Acker × ℤ) :=
  (growLoop seq (seq + 3) { a with is_dup_ := false }).bind fun a =>
    let just_marked_as_seen := decide (seq > a.maxseen_)
    let a := if seq > a.maxseen_ then a.markNew seq numBytes else a
    let a := if seq < a.next_ then { a with is_dup_ := true } else a
    if seq ≥ a.next_ ∧ seq ≤ a.maxseen_ then a.accept seq numBytes just_marked_as_seen
    else some (a, 0)

/-- `update` for packets as they arrive, with the sum of the numbers returned; `size`
gives the bytes of a packet. -/
def run (size : ℕ → ℤ) (seqs : List ℕ) : Option (Acker × ℤ) :=
  seqs.foldlM (fun r seq => (r.1.update seq (size seq)).map fun r' => (r'.1, r.2 + r'.2)) (new, 0)

/-! ## The invariant -/

/-- What the ring holds when the packets `R` were received. -/
def entries (size : ℕ → ℤ) (R : Finset ℕ) (i : ℕ) : ℤ := if i ∈ R then size i else 0

/-- The acker has received the packets `R`. -/
structure Exact (size : ℕ → ℤ) (R : Finset ℕ) (a : Acker) : Prop where
  /-- The ring holds the window, and the packet after it. -/
  window : Window a.wndmask_ a.seen_ a.next_ (a.maxseen_ + 1) (entries size R)
  /-- There is a slot to spare. -/
  spare : a.maxseen_ + 2 ≤ a.next_ + a.wndmask_
  /-- The window is not beyond the highest packet. -/
  next_le : a.next_ ≤ a.maxseen_ + 1
  /-- `next_` is the first packet missing. -/
  point : IsLeast {n | n ∉ R} a.next_
  /-- No packet is above the highest one. -/
  le_maxseen : ∀ i ∈ R, i ≤ a.maxseen_

variable {size : ℕ → ℤ} {R : Finset ℕ} {a a' : Acker} {seq : ℕ} {numBytes : ℤ}

theorem exact_new (size : ℕ → ℤ) : Exact size ∅ new := by
  refine ⟨⟨⟨6, rfl⟩, by decide, fun i _ _ => ?_⟩, by decide, by decide, ?_, by simp⟩
  · simp [new, entries]
  · exact ⟨by simp, fun n _ => Nat.zero_le n⟩

/-- The flag does not matter. -/
theorem Exact.setDup (h : Exact size R a) (b : Bool) : Exact size R { a with is_dup_ := b } :=
  ⟨h.window, h.spare, h.next_le, h.point, h.le_maxseen⟩

/-- A larger ring holds the same. -/
theorem Exact.resize (h : Exact size R a) : Exact size R (a.resizeBuffers ((a.wndmask_ + 1) * 2)) := by
  have hspare := h.spare
  refine ⟨?_, ?_, h.next_le, h.point, h.le_maxseen⟩
  · have hcopy := h.window.copy h.window.isMask.double
      (show a.maxseen_ + 1 ≤ a.next_ + ((a.wndmask_ + 1) * 2 - 1) by omega) 0
    exact hcopy
  · show a.maxseen_ + 2 ≤ a.next_ + ((a.wndmask_ + 1) * 2 - 1)
    omega

/-- The loop makes the ring large enough for the packet. -/
theorem growLoop_spec (fuel : ℕ) (h : Exact size R a) (hfuel : seq + 2 ≤ fuel + a.wndmask_) :
    ∃ a', growLoop seq (fuel + 1) a = some a' ∧ Exact size R a' ∧
      seq + 1 < a'.next_ + a'.wndmask_ := by
  induction fuel generalizing a with
  | zero =>
    unfold growLoop
    rw [if_neg (by omega)]
    exact ⟨a, rfl, h, by omega⟩
  | succ fuel ih =>
    unfold growLoop
    split
    · refine ih h.resize ?_
      show seq + 2 ≤ fuel + ((a.wndmask_ + 1) * 2 - 1)
      omega
    · exact ⟨a, rfl, h, by omega⟩

/-- The loop does not touch the flag. -/
theorem growLoop_is_dup_ {fuel : ℕ} (h : growLoop seq fuel a = some a') :
    a'.is_dup_ = a.is_dup_ := by
  induction fuel generalizing a with
  | zero => cases h
  | succ fuel ih =>
    unfold growLoop at h
    split at h
    · have hsame := ih h
      exact hsame
    · cases h
      rfl

/-! ## One packet -/

/-- What a packet does to the acker; `size` gives the bytes of the packets, those of the
new one as well. -/
structure Taken (size : ℕ → ℤ) (R : Finset ℕ) (seq : ℕ) (a a' : Acker) : Prop where
  /-- The packet is received. -/
  exact : Exact size (insert seq R) a'
  /-- The window only slides to the right. -/
  next_le : a.next_ ≤ a'.next_
  /-- A duplicate is a packet that was received before. -/
  is_dup_ : a'.is_dup_ = decide (seq ∈ R)
  /-- For a packet of the window the ring still holds what the window has slid over. -/
  slid : a.next_ ≤ seq →
    Window a'.wndmask_ a'.seen_ a.next_ (a'.maxseen_ + 1) (entries size (insert seq R))

/-- The bytes of one packet do not matter outside the window. -/
theorem Exact.setSize (h : Exact size R a) (hseq : seq < a.next_) (numBytes : ℤ) :
    Exact (Function.update size seq numBytes) R a := by
  refine ⟨h.window.congr fun i hi _ => ?_, h.spare, h.next_le, h.point, h.le_maxseen⟩
  unfold entries
  rw [Function.update_of_ne (by omega)]

/-- A packet above all others is put into the ring. -/
theorem Exact.markNew (h : Exact size R a) (hnew : a.maxseen_ < seq)
    (hroom : seq + 1 < a.next_ + a.wndmask_) (numBytes : ℤ) :
    Window a.wndmask_ (a.markNew seq numBytes).seen_ a.next_ (seq + 1)
      (entries (Function.update size seq numBytes) (insert seq R)) := by
  have hnext := h.next_le
  have htop := h.le_maxseen
  obtain ⟨n, rfl⟩ : ∃ n, seq = a.maxseen_ + n + 1 := ⟨seq - a.maxseen_ - 1, by omega⟩
  -- the packets between, the packet, and the one after it
  have hfill := (h.window.take (Nat.le_succ _)).fill (by omega) 0 n (by omega)
  have hpush := (hfill.push (by omega) (by omega) numBytes).push (by omega) (by omega) 0
  have hloop : a.maxseen_ + n + 1 - (a.maxseen_ + 1) = n := by omega
  show Window a.wndmask_ (Function.update (Function.update ((List.range' (a.maxseen_ + 1)
    (a.maxseen_ + n + 1 - (a.maxseen_ + 1))).foldl _ a.seen_) _ _) _ 0) _ _ _
  rw [hloop]
  refine hpush.congr fun i _ hi => ?_
  unfold entries
  rcases eq_or_ne i (a.maxseen_ + n + 1 + 1) with rfl | hafter
  · rw [Function.update_self, if_neg]
    intro hmem
    rcases Finset.mem_insert.mp hmem with heq | hmem
    · omega
    · have := htop _ hmem
      omega
  · rw [Function.update_of_ne hafter]
    rcases eq_or_ne i (a.maxseen_ + n + 1) with rfl | hseq
    · rw [Function.update_self, if_pos (Finset.mem_insert_self _ _), Function.update_self]
    · rw [Function.update_of_ne hseq, Function.update_of_ne hseq]
      simp only [Finset.mem_insert, hseq, false_or]
      split
      · rw [if_neg fun hmem => by
          have := htop i hmem
          omega]
      · rfl

/-- The loop that slides the window stops at the first packet missing. -/
theorem deliver_spec {n : ℕ} (hsize : ∀ i, 0 < size i) {hi : ℕ}
    (hw : Window a.wndmask_ a.seen_ a.next_ hi (entries size R)) (hn : n ∉ R) (hhi : n ≤ hi) :
    ∀ (d next : ℕ) (sum : ℤ), next + d = n → a.next_ ≤ next → (∀ i, next ≤ i → i < n → i ∈ R) →
      ∀ fuel, d < fuel → a.deliver fuel next sum = some (n, sum + ∑ i ∈ Finset.Ico next n, size i) := by
  intro d
  induction d with
  | zero =>
    intro next sum hd hlo _ fuel hfuel
    obtain ⟨fuel, rfl⟩ := Nat.exists_eq_add_of_lt hfuel
    obtain rfl : next = n := by omega
    unfold deliver
    rw [hw.entry next hlo hhi, entries, if_neg hn]
    simp
  | succ d ih =>
    intro next sum hd hlo hmem fuel hfuel
    obtain ⟨fuel, rfl⟩ : ∃ f, fuel = f + 1 := ⟨fuel - 1, by omega⟩
    have hnext : next ∈ R := hmem next le_rfl (by omega)
    have hlt : next < n := by omega
    unfold deliver
    rw [hw.entry next hlo (by omega), entries, if_pos hnext, if_pos (hsize next).ne',
      ih (next + 1) (sum + size next) (by omega) (by omega) (fun i h1 h2 => hmem i (by omega) h2)
        fuel (by omega), Finset.sum_eq_sum_Ico_succ_bot hlt, add_assoc]

/-- Some packet is missing. -/
theorem exists_isLeast (R : Finset ℕ) : ∃ n, IsLeast {n | n ∉ R} n := by
  obtain ⟨n, hn⟩ := R.exists_notMem
  exact ⟨_, isLeast_csInf ⟨n, hn⟩⟩

/-- A packet in the window is taken, and the window slides. -/
theorem accept_spec (hsize : ∀ i, 0 < size i) (b : Bool)
    (hdup : (a.is_dup_ || decide (a.seen_ (seq &&& a.wndmask_) ≠ 0 ∧ b = false)) = decide (seq ∈ R))
    (hle' : seq ≤ a.maxseen_) (hspare : a.maxseen_ + 2 ≤ a.next_ + a.wndmask_)
    (hpoint : ∀ i < a.next_, i ∈ R) (htop : ∀ i ∈ R, i ≤ a.maxseen_)
    (hw : Window a.wndmask_ (Function.update a.seen_ (seq &&& a.wndmask_) numBytes) a.next_
      (a.maxseen_ + 1) (entries size (insert seq R))) :
    ∃ a', a.accept seq numBytes b = some (a', ∑ i ∈ Finset.Ico a.next_ a'.next_, size i) ∧
      Taken size R seq a a' := by
  obtain ⟨n, hn⟩ := exists_isLeast (insert seq R)
  have htop' : ∀ i ∈ insert seq R, i ≤ a.maxseen_ := by
    intro i hi
    rcases Finset.mem_insert.mp hi with rfl | hi
    · exact hle'
    · exact htop i hi
  have hbelow : ∀ i < n, i ∈ insert seq R := fun i hi => by
    by_contra hmiss
    exact absurd (hn.2 hmiss) (by omega)
  have hnext : a.next_ ≤ n := by
    by_contra hlt
    exact hn.1 (Finset.mem_insert_of_mem (hpoint n (by omega)))
  have hend : n ≤ a.maxseen_ + 1 := by
    refine hn.2 fun hmem => ?_
    have := htop' _ hmem
    omega
  have hdel := deliver_spec (a := { a with
      is_dup_ := a.is_dup_ || (a.seen_ (seq &&& a.wndmask_) ≠ 0 ∧ b = false)
      seen_ := Function.update a.seen_ (seq &&& a.wndmask_) numBytes })
    hsize hw hn.1 hend (n - a.next_) a.next_ 0 (by omega) le_rfl (fun i _ h2 => hbelow i h2)
    (a.wndmask_ + 2) (by omega)
  unfold accept
  simp only
  rw [hdel, Option.map_some, zero_add]
  refine ⟨_, rfl, ⟨?_, hnext, hdup, fun _ => hw⟩⟩
  exact ⟨hw.drop hnext, by show a.maxseen_ + 2 ≤ n + a.wndmask_; omega, hend, hn, htop'⟩

/-- The number of bytes of a packet received is put into its slot. -/
theorem window_set_entries {mask lo hi : ℕ} {seen : ℕ → ℤ} {R' : Finset ℕ}
    (hw : Window mask seen lo hi (entries size R)) (hlo : lo ≤ seq) (hhi : seq ≤ hi)
    (hR : insert seq R = insert seq R') (numBytes : ℤ) :
    Window mask (Function.update seen (seq &&& mask) numBytes) lo hi
      (entries (Function.update size seq numBytes) (insert seq R')) := by
  refine (hw.set hlo hhi numBytes).congr fun i _ _ => ?_
  rw [← hR]
  unfold entries
  rcases eq_or_ne i seq with rfl | hne
  · rw [Function.update_self, if_pos (Finset.mem_insert_self _ _), Function.update_self]
  · rw [Function.update_of_ne hne, Function.update_of_ne hne]
    simp only [Finset.mem_insert, hne, false_or]

/-- **One packet.**  It is received, and the bytes of the packets the window has slid over
are delivered. -/
theorem update_spec (hsize : ∀ i, 0 < size i) (h : Exact size R a) (seq : ℕ) (hpos : 0 < numBytes) :
    ∃ a', a.update seq numBytes = some (a', ∑ i ∈ Finset.Ico a.next_ a'.next_,
        Function.update size seq numBytes i) ∧
      Taken (Function.update size seq numBytes) R seq a a' := by
  obtain ⟨a₁, hgrow, h₁, hroom⟩ := growLoop_spec (seq + 2) (h.setDup false)
    (show seq + 2 ≤ seq + 2 + a.wndmask_ by omega)
  have hflag : a₁.is_dup_ = false := growLoop_is_dup_ hgrow
  have hnext : a₁.next_ = a.next_ := h₁.point.unique h.point
  have hbelow : ∀ i < a₁.next_, i ∈ R := fun i hi => by
    by_contra hmiss
    exact absurd (h₁.point.2 hmiss) (by omega)
  have hle := h₁.next_le
  have hspare := h₁.spare
  have hsize' : ∀ i, 0 < Function.update size seq numBytes i := fun i => by
    rcases eq_or_ne i seq with rfl | hne
    · rwa [Function.update_self]
    · rw [Function.update_of_ne hne]
      exact hsize i
  -- only `next_` of the state before counts
  have htaken : ∀ {a'}, Taken (Function.update size seq numBytes) R seq a₁ a' →
      Taken (Function.update size seq numBytes) R seq a a' := fun {a'} ht =>
    ⟨ht.exact, hnext ▸ ht.next_le, ht.is_dup_, hnext ▸ ht.slid⟩
  unfold update
  rw [hgrow, Option.bind_some, ← hnext]
  simp only
  by_cases hnew : seq > a₁.maxseen_
  · -- the highest packet so far
    have hin : a₁.next_ ≤ seq := by omega
    have hmiss : seq ∉ R := fun hmem => by
      have := h₁.le_maxseen seq hmem
      omega
    rw [if_pos hnew, markNew_next_, if_neg (not_lt.mpr hin), markNew_next_, markNew_maxseen_,
      if_pos ⟨hin, le_rfl⟩]
    obtain ⟨a', hacc, ht⟩ := accept_spec (a := a₁.markNew seq numBytes) (R := R) hsize'
      (decide (seq > a₁.maxseen_)) (by simp [hflag, hnew, hmiss, Acker.markNew]) le_rfl
      (by
        rw [markNew_next_, markNew_maxseen_, markNew_wndmask_]
        omega)
      hbelow (fun i hi => (h₁.le_maxseen i hi).trans hnew.le) (by
        have hset := window_set_entries (h₁.markNew hnew hroom numBytes) hin (Nat.le_succ _)
          (Finset.insert_idem seq R) numBytes
        rwa [Function.update_idem] at hset)
    exact ⟨a', hacc, htaken ⟨ht.exact, ht.next_le, ht.is_dup_, ht.slid⟩⟩
  · rw [if_neg hnew]
    by_cases hdup : seq < a₁.next_
    · -- a packet below the window
      rw [if_pos hdup, if_neg fun hin => absurd hdup (not_lt.mpr hin.1)]
      refine ⟨{ a₁ with is_dup_ := true }, ?_, htaken ⟨?_, le_rfl, ?_, fun hin => ?_⟩⟩
      · rw [Finset.Ico_self, Finset.sum_empty]
      · rw [Finset.insert_eq_of_mem (hbelow seq hdup)]
        exact (h₁.setSize hdup numBytes).setDup true
      · simp [hbelow seq hdup]
      · omega
    · have hentry := h₁.window.entry seq (by omega) (by omega)
      rw [if_neg hdup, if_pos ⟨by omega, by omega⟩]
      obtain ⟨a', hacc, ht⟩ := accept_spec hsize' (decide (seq > a₁.maxseen_))
        (by simp [hflag, hnew, hentry, entries, (hsize seq).ne']) (by omega) hspare hbelow
        h₁.le_maxseen (window_set_entries h₁.window (by omega) (by omega) rfl numBytes)
      exact ⟨a', hacc, htaken ht⟩

/-! ## Runs -/

/-- Packets as they arrive keep the invariant, and what is delivered are the bytes of the
packets below `next_`. -/
theorem run_spec (hsize : ∀ i, 0 < size i) (seqs : List ℕ) :
    ∃ a, run size seqs = some (a, ∑ i ∈ Finset.range a.next_, size i) ∧
      Exact size seqs.toFinset a := by
  unfold run
  induction seqs using List.reverseRecOn with
  | nil => exact ⟨new, by simp [new], exact_new size⟩
  | append_singleton seqs seq ih =>
    obtain ⟨a, hrun, h⟩ := ih
    obtain ⟨a', hupd, ht⟩ := update_spec hsize h seq (hsize seq)
    rw [Function.update_eq_self] at hupd ht
    have h' := ht.exact
    have hle := ht.next_le
    refine ⟨a', ?_, ?_⟩
    · rw [List.foldlM_append, hrun]
      simp only [Option.bind_eq_bind, Option.bind_some, List.foldlM_cons, List.foldlM_nil, hupd,
        Option.map_some]
      rw [Finset.sum_range_add_sum_Ico _ hle]
      rfl
    · rw [List.toFinset_append, Finset.union_comm]
      simpa using h'

/-- **The acker is exact.**  Whatever packets arrive, in any order and with any copies, each
with its own positive size: `update` returns; `next_` is the smallest sequence number not
received; two sequence numbers from `next_` to the one after the highest do not share a
slot; and the numbers returned add up to the sizes of the packets below `next_`. -/
theorem update_exact (size : ℕ → ℤ) (hsize : ∀ i, 0 < size i) (seqs : List ℕ) :
    ∃ a, run size seqs = some (a, ∑ i ∈ Finset.range a.next_, size i) ∧
      IsLeast {n | n ∉ seqs} a.next_ ∧
      ∀ i j, a.next_ ≤ i → i ≤ a.maxseen_ + 1 → a.next_ ≤ j → j ≤ a.maxseen_ + 1 →
        i &&& a.wndmask_ = j &&& a.wndmask_ → i = j := by
  obtain ⟨a, hrun, h⟩ := run_spec hsize seqs
  have hspare := h.spare
  refine ⟨a, hrun, ?_, fun i j hi hi' hj hj' heq => ?_⟩
  · simpa using h.point
  · exact slot_inj h.window.isMask hi (by omega) hj (by omega) heq

/-- Packet 70 makes the ring larger; two packets that fill the hole, and a copy. -/
theorem update_exact_growth : ∃ a, run (fun i => i + 1) [1, 70, 0, 1] = some (a, 3) ∧
    a.next_ = 2 ∧ a.wndmask_ = 127 := by
  obtain ⟨a, hrun, hleast, -⟩ := update_exact (fun i => i + 1) (fun i => by positivity) [1, 70, 0, 1]
  have hnext : a.next_ = 2 := by
    refine hleast.unique ⟨by decide, fun n hn => ?_⟩
    by_contra hlt
    have : n = 0 ∨ n = 1 := by omega
    rcases this with rfl | rfl
    · exact hn (by decide)
    · exact hn (by decide)
  have hmask : (run (fun i => i + 1) [1, 70, 0, 1]).map (fun r => r.1.wndmask_) = some 127 := by
    decide +kernel
  refine ⟨a, ?_, hnext, ?_⟩
  · rw [hrun, hnext]
    rfl
  · rw [hrun] at hmask
    simpa using hmask

end Acker

end Ns2.Tcp
