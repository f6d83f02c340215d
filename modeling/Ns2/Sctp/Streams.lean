import Ns2.Sctp.TsnState

/-!
# Ordered delivery on reliable streams

What `PassToStream` and `UpdateAllStreams` do with the chunks of a sender that numbers the ordered
chunks of each stream one after the other, modulo 2^16.

* `Sender`, `Arrival`, `Run` — the chunks that are sent, and the orders in which they can arrive.
* `StreamInv` — what is buffered and what has been passed on, for one stream.
* `NoneBehind` — the next chunk of a stream finds no smaller number in the buffer.
* `run_delivered` — delivery is exact in all runs of such steps.
-/

namespace Ns2.Sctp

/-- The ordered chunks of a sender, by stream and place. -/
structure Sender where
  chunk : ℕ → ℕ → DataChunk
  streamId : ∀ s k, (chunk s k).usStreamId = s
  seqNum : ∀ s k, (chunk s k).usStreamSeqNum = k % 2 ^ 16
  ordered : ∀ s k, (chunk s k).unordered = false

/-- A chunk on its way: the `k`-th ordered chunk of a stream, or an unordered chunk. -/
inductive Arrival where
  | ordered (s k : ℕ)
  | unordered (c : {c : DataChunk // c.unordered = true})

/-- The chunk that arrives. -/
def Sender.sent (snd : Sender) : Arrival → DataChunk
  | .ordered s k => snd.chunk s k
  | .unordered c => c

/-- The unordered chunk that arrives. -/
def Arrival.unordered? : Arrival → Option DataChunk
  | .ordered .. => none
  | .unordered c => some c

/-- The ordered chunks of a stream. -/
def onStream (s : ℕ) (c : DataChunk) : Bool := ! c.unordered && c.usStreamId == s

/-- How many bytes a list of chunks holds. -/
def bytes (l : List DataChunk) : ℕ := (l.map DataChunk.usLength).sum

@[simp] theorem bytes_nil : bytes [] = 0 := rfl

@[simp] theorem bytes_cons {c : DataChunk} {l : List DataChunk} :
    bytes (c :: l) = c.usLength + bytes l := rfl

@[simp] theorem bytes_append {A B : List DataChunk} : bytes (A ++ B) = bytes A + bytes B := by
  simp [bytes]

namespace Receiver

/-- The variables that depend on streams alone. -/
structure Streams where
  uiMyRwnd : ℕ
  iNumInStreams : ℕ
  spInStreams : ℕ → InStream
  passed : List DataChunk

/-- The stream variables of a receiver. -/
def streams (r : Receiver) : Streams := ⟨r.uiMyRwnd, r.iNumInStreams, r.spInStreams, r.passed⟩

/-- Chunks are passed on from a stream, which is left with the next number and the buffer given. -/
def Streams.deliver (v : Streams) (s : ℕ) (l : List DataChunk) (f : InStream) : Streams :=
  { v with
    uiMyRwnd := v.uiMyRwnd + bytes l
    spInStreams := Function.update v.spInStreams s f
    passed := v.passed ++ l }

variable {r : Receiver} {c : DataChunk} {snd : Sender} {s n k M N : ℕ} {f : InStream}
  {ks : List ℕ} {v : Streams} {A B : List DataChunk}

@[simp] theorem streams_noteNonReneg : (r.noteNonReneg c).streams = r.streams := by
  rw [noteNonReneg]
  split <;> rfl

theorem streams_UpdateAllStreams : r.UpdateAllStreams.streams = r.updateStreams.streams := by
  rw [UpdateAllStreams]
  split <;> rfl

theorem Streams.deliver_deliver {f' : InStream} :
    (v.deliver s A f).deliver s B f' = v.deliver s (A ++ B) f' := by
  simp [Streams.deliver, Nat.add_assoc]

/-- The head of the buffer is not the next chunk. -/
structure Settled (f : InStream) : Prop where
  mode : f.eMode = .reliable
  head : ∀ c ∈ f.sBufferedChunkList.head?, c.usStreamSeqNum ≠ f.usNextStreamSeqNum

theorem setStream_self : r.setStream s (r.spInStreams s) = r := by
  rw [setStream, Function.update_eq_self]

/-- Nothing is passed on from a settled stream. -/
theorem updateStream_settled (h : Settled (r.spInStreams s)) :
    updateStream s (r.spInStreams s).sBufferedChunkList r = r := by
  obtain ⟨hmode, hhead⟩ := h
  have hself : ∀ l, l = (r.spInStreams s).sBufferedChunkList →
      r.setStream s { r.spInStreams s with sBufferedChunkList := l } = r := by
    rintro l rfl
    exact setStream_self
  cases hl : (r.spInStreams s).sBufferedChunkList with
  | nil => exact hself [] hl.symm
  | cons c l =>
    have hne : c.usStreamSeqNum ≠ (r.spInStreams s).usNextStreamSeqNum := hhead c (by simp [hl])
    rw [updateStream]
    simp only [hmode, reduceCtorEq, false_and, if_false, if_neg hne]
    rw [← hmode]
    exact hself (c :: l) hl.symm

theorem foldl_settled (h : ∀ i ∈ ks, Settled (r.spInStreams i)) :
    ks.foldl (fun r i => updateStream i (r.spInStreams i).sBufferedChunkList r) r = r := by
  induction ks with
  | nil => rfl
  | cons i ks ih =>
    rw [List.foldl_cons, updateStream_settled (h i List.mem_cons_self)]
    exact ih fun j hj => h j (List.mem_cons_of_mem i hj)

theorem updateStreams_settled (h : ∀ i, Settled (r.spInStreams i)) : r.updateStreams = r :=
  foldl_settled fun i _ => h i

/-- Only one stream has something to pass on. -/
theorem updateStreams_one {r' : Receiver} (hs : s < r.iNumInStreams)
    (hr' : updateStream s (r.spInStreams s).sBufferedChunkList r = r')
    (hother : ∀ i, i ≠ s → Settled (r.spInStreams i)) (hsettled : ∀ i, Settled (r'.spInStreams i)) :
    r.updateStreams = r' := by
  obtain ⟨js, js', hsplit⟩ := List.append_of_mem (List.mem_range.mpr hs)
  have hnot : ∀ i ∈ js, i ≠ s := by
    rintro i hi rfl
    have hnodup := hsplit ▸ (List.nodup_range (n := r.iNumInStreams))
    exact (List.nodup_append.mp hnodup).2.2 i hi i List.mem_cons_self rfl
  rw [updateStreams, hsplit, List.foldl_append, foldl_settled fun i hi => hother i (hnot i hi),
    List.foldl_cons, hr']
  exact foldl_settled fun i _ => hsettled i

variable (snd) in
/-- **The loop over a buffer passes on the chunks that follow one another.** -/
theorem updateStream_deliver (hks : ks.Pairwise (· < ·)) (hM : ∀ k ∈ ks, M ≤ k ∧ k < M + 2 ^ 16)
    (hmode : (r.spInStreams s).eMode = .reliable)
    (hnext : (r.spInStreams s).usNextStreamSeqNum = M % 2 ^ 16) :
    ∃ m rest, ks = List.range' M m ++ rest ∧ (∀ k ∈ rest, M + m < k) ∧
      (updateStream s (ks.map (snd.chunk s)) r).streams =
        r.streams.deliver s ((List.range' M m).map (snd.chunk s))
          ⟨.reliable, (M + m) % 2 ^ 16, rest.map (snd.chunk s)⟩ := by
  induction ks generalizing M r with
  | nil =>
    refine ⟨0, [], rfl, by simp, ?_⟩
    rw [← hmode, Nat.add_zero, ← hnext]
    simp [updateStream, setStream, streams, Streams.deliver]
  | cons k ks ih =>
    obtain ⟨hk, hks⟩ := List.pairwise_cons.mp hks
    have hkM := hM k List.mem_cons_self
    rw [List.map_cons, updateStream]
    simp only [hmode, reduceCtorEq, false_and, if_false, snd.seqNum, hnext]
    by_cases heq : k % 2 ^ 16 = M % 2 ^ 16
    · obtain rfl : k = M := by omega
      rw [if_pos rfl]
      generalize hr₁ : ((r.setStream s _).PassToUpperLayer _).noteNonReneg _ = r₁
      have hv : r₁.streams = r.streams.deliver s [snd.chunk s k]
          ⟨.reliable, (k + 1) % 2 ^ 16, (r.spInStreams s).sBufferedChunkList⟩ := by
        rw [← hr₁, streams_noteNonReneg]
        simp [streams, PassToUpperLayer, setStream, Streams.deliver]
      have hf : r₁.spInStreams s =
          ⟨.reliable, (k + 1) % 2 ^ 16, (r.spInStreams s).sBufferedChunkList⟩ := by
        have := congrArg (fun v => v.spInStreams s) hv
        simpa [streams, Streams.deliver] using this
      have hge : ∀ j ∈ ks, k + 1 ≤ j ∧ j < k + 1 + 2 ^ 16 := fun j hj => by
        have h1 := hk j hj
        have h2 := hM j (List.mem_cons_of_mem k hj)
        omega
      obtain ⟨m, rest, hsplit, hrest, hres⟩ := ih (r := r₁) (M := k + 1) hks hge (by rw [hf])
        (by rw [hf])
      refine ⟨m + 1, rest, by rw [hsplit, List.range'_succ, List.cons_append], ?_, ?_⟩
      · intro j hj
        have := hrest j hj
        omega
      · rw [hres, hv, Streams.deliver_deliver, List.range'_succ, List.map_cons, List.singleton_append,
          Nat.add_right_comm, Nat.add_assoc]
    · rw [if_neg heq]
      refine ⟨0, k :: ks, rfl, ?_, ?_⟩
      · intro j hj
        rcases List.mem_cons.mp hj with rfl | hj
        · have : j ≠ M := fun h => heq (h ▸ rfl)
          omega
        · have := hk j hj
          omega
      · rw [← hmode, Nat.add_zero, ← hnext]
        simp [setStream, streams, Streams.deliver]

/-! ## Runs -/

/-- Chunks of 16 bytes on each stream, with the TSNs of a sender that uses one stream only. -/
def equalChunks : Sender where
  chunk s k := ⟨k + 1, 16, s, k % 2 ^ 16, false⟩
  streamId _ _ := rfl
  seqNum _ _ := rfl
  ordered _ _ := rfl

/-- What is promised of the next chunk: it fits the window, its TSN is its own, and fewer than 2^15
chunks of its stream are in flight, from the first that has not arrived on. -/
structure Arrives (snd : Sender) (a : List Arrival) (r : Receiver) (x : Arrival) : Prop where
  fits : r.Fits (.data (snd.sent x))
  once : ∀ y ∈ a, (snd.sent y).uiTsn ≠ (snd.sent x).uiTsn
  stream : ∀ s k, x = .ordered s k → s < r.iNumInStreams
  inFlight : ∀ s k, x = .ordered s k → ∀ j, j + 2 ^ 15 ≤ k → .ordered s j ∈ a

/-- If a chunk is the next one of its stream, no smaller number is in the buffer. -/
def NoneBehind (r : Receiver) (c : DataChunk) : Prop :=
  c.unordered = false → c.usStreamSeqNum = (r.spInStreams c.usStreamId).usNextStreamSeqNum →
    ∀ b ∈ (r.spInStreams c.usStreamId).sBufferedChunkList, c.usStreamSeqNum ≤ b.usStreamSeqNum

instance (r : Receiver) (c : DataChunk) : Decidable (r.NoneBehind c) :=
  inferInstanceAs (Decidable (_ → _ → ∀ b ∈ (r.spInStreams c.usStreamId).sBufferedChunkList, _))

/-- The runs of a receiver with `n` reliable streams, with a condition on each step. -/
inductive Run (snd : Sender) (w n : ℕ) (nr : Bool) (P : Receiver → DataChunk → Prop) :
    List Arrival → Receiver → Prop where
  | init : Run snd w n nr P [] (Receiver.init w n (fun _ => .reliable) nr)
  | step {a : List Arrival} {r : Receiver} {x : Arrival} : Run snd w n nr P a r →
      Arrives snd a r x → P r (snd.sent x) →
      Run snd w n nr P (a ++ [x]) (r.ProcessDataChunk (snd.sent x))

/-- The bytes in the buffers of all streams. -/
def Streams.buffered (v : Streams) : ℕ :=
  ∑ i ∈ Finset.range v.iNumInStreams, bytes (v.spInStreams i).sBufferedChunkList

/-- Delivery is exact: the chunks of a stream are passed on in order, up to the first that has not
arrived, only chunks behind that one are buffered, and no window is lost. -/
structure Delivered (snd : Sender) (w n : ℕ) (a : List Arrival) (r : Receiver) : Prop where
  inOrder : ∀ s < n, ∃ N, (∀ k < N, .ordered s k ∈ a) ∧ .ordered s N ∉ a ∧
    r.passed.filter (onStream s) = (List.range N).map (snd.chunk s) ∧
    ∀ c ∈ (r.spInStreams s).sBufferedChunkList, ∃ k, N < k ∧ .ordered s k ∈ a ∧ c = snd.chunk s k
  unordered : r.passed.filter DataChunk.unordered = a.filterMap Arrival.unordered?
  window : r.uiMyRwnd + ∑ i ∈ Finset.range n, bytes (r.spInStreams i).sBufferedChunkList = w

/-- One stream when the chunks `a` have arrived and the `N`-th of the stream is missing. -/
structure StreamInv (snd : Sender) (a : List Arrival) (s N : ℕ) (v : Streams) : Prop where
  mode : (v.spInStreams s).eMode = .reliable
  next : (v.spInStreams s).usNextStreamSeqNum = N % 2 ^ 16
  arrived : ∀ k < N, .ordered s k ∈ a
  missing : .ordered s N ∉ a
  passed : v.passed.filter (onStream s) = (List.range N).map (snd.chunk s)
  buffer : ∃ ks : List ℕ, (v.spInStreams s).sBufferedChunkList = ks.map (snd.chunk s) ∧
    ks.Pairwise (fun j k => j % 2 ^ 16 < k % 2 ^ 16) ∧ ∀ k, k ∈ ks ↔ N < k ∧ .ordered s k ∈ a
  window : ∀ k, .ordered s k ∈ a → k < N + 2 ^ 15

/-- The streams of a run. -/
structure StreamsInv (snd : Sender) (w n : ℕ) (a : List Arrival) (v : Streams) : Prop where
  num : v.iNumInStreams = n
  stream : ∀ s, ∃ N, StreamInv snd a s N v
  unordered : v.passed.filter DataChunk.unordered = a.filterMap Arrival.unordered?
  window : v.uiMyRwnd + v.buffered = w

/-! ## One stream -/

variable {a : List Arrival} {x : Arrival} {w : ℕ} {v' : Streams} {i j : ℕ}

theorem StreamInv.settled (h : StreamInv snd a s N v) : Settled (v.spInStreams s) := by
  obtain ⟨ks, hbuf, -, hmem⟩ := h.buffer
  refine ⟨h.mode, fun c hc => ?_⟩
  rw [hbuf, List.head?_map, Option.mem_map] at hc
  obtain ⟨k, hk, rfl⟩ := hc
  obtain ⟨hN, ha⟩ := (hmem k).mp (List.mem_of_mem_head? hk)
  have := h.window k ha
  rw [snd.seqNum, h.next]
  omega

/-- A stream that a step does not concern. -/
theorem StreamInv.congr (h : StreamInv snd a s N v) (hf : v'.spInStreams s = v.spInStreams s)
    (hp : v'.passed.filter (onStream s) = v.passed.filter (onStream s))
    (hx : ∀ k, x ≠ .ordered s k) : StreamInv snd (a ++ [x]) s N v' := by
  have hmem : ∀ k, .ordered s k ∈ a ++ [x] ↔ .ordered s k ∈ a := fun k => by
    simp [(hx k).symm]
  refine ⟨hf ▸ h.mode, hf ▸ h.next, fun k hk => (hmem k).mpr (h.arrived k hk), mt (hmem N).mp h.missing,
    hp.trans h.passed, ?_, fun k hk => h.window k ((hmem k).mp hk)⟩
  obtain ⟨ks, hbuf, hks, hiff⟩ := h.buffer
  exact ⟨ks, hf ▸ hbuf, hks, fun k => (hiff k).trans (and_congr_right' (hmem k).symm)⟩

variable (snd s) in
/-- A chunk of the sender finds its place in the buffer. -/
theorem InsertInStreamBuffer_spec (hks : ks.Pairwise (fun j k => j % 2 ^ 16 < k % 2 ^ 16))
    (hne : ∀ j ∈ ks, j % 2 ^ 16 ≠ k % 2 ^ 16) :
    ∃ K K', ks = K ++ K' ∧ InsertInStreamBuffer (snd.chunk s k) (ks.map (snd.chunk s)) =
        (K ++ k :: K').map (snd.chunk s) ∧
      (∀ j ∈ K, j % 2 ^ 16 < k % 2 ^ 16) ∧ ∀ j ∈ K', k % 2 ^ 16 < j % 2 ^ 16 := by
  induction ks with
  | nil => exact ⟨[], [], rfl, rfl, by simp, by simp⟩
  | cons j ks ih =>
    obtain ⟨hj, hks⟩ := List.pairwise_cons.mp hks
    have hjk := hne j List.mem_cons_self
    rw [InsertInStreamBuffer, List.map_cons, insertOnce]
    simp only [snd.seqNum, Nat.cast_le, ne_eq, Nat.cast_inj]
    by_cases hle : k % 2 ^ 16 ≤ j % 2 ^ 16
    · rw [if_pos hle, if_pos hjk]
      refine ⟨[], j :: ks, rfl, rfl, by simp, fun i hi => ?_⟩
      rcases List.mem_cons.mp hi with rfl | hi
      · omega
      · exact hle.trans_lt (hj i hi)
    · rw [if_neg hle]
      obtain ⟨K, K', hsplit, hins, hK, hK'⟩ := ih hks fun i hi => hne i (List.mem_cons_of_mem j hi)
      refine ⟨j :: K, K', by rw [hsplit, List.cons_append], ?_, fun i hi => ?_, hK'⟩
      · rw [InsertInStreamBuffer] at hins
        rw [hins]
        rfl
      · rcases List.mem_cons.mp hi with rfl | hi
        · omega
        · exact hK i hi

/-- The stream of a chunk that has just been put into the buffer. -/
def Streams.insert (v : Streams) (s : ℕ) (c : DataChunk) : Streams :=
  { v with
    uiMyRwnd := v.uiMyRwnd - c.usLength
    spInStreams := Function.update v.spInStreams s { v.spInStreams s with
      sBufferedChunkList := InsertInStreamBuffer c (v.spInStreams s).sBufferedChunkList } }

theorem StreamInv.lt_of_new (h : StreamInv snd a s N v) (hk : .ordered s k ∉ a) : N ≤ k :=
  not_lt.mp fun hlt => hk (h.arrived k hlt)

/-- What a step does to the stream `s` and what it leaves alone. -/
structure StreamStep (s : ℕ) (v v' : Streams) : Prop where
  num : v'.iNumInStreams = v.iNumInStreams
  other : ∀ i, i ≠ s → v'.spInStreams i = v.spInStreams i
  passed : ∃ l, v'.passed = v.passed ++ l ∧ ∀ c ∈ l, onStream s c = true
  window : v'.uiMyRwnd + bytes (v'.spInStreams s).sBufferedChunkList =
    v.uiMyRwnd + bytes (v.spInStreams s).sBufferedChunkList

/-- A chunk that is not the next one stays in the buffer. -/
theorem StreamInv.later (h : StreamInv snd a s N v) (hk : .ordered s k ∉ a) (hne : k ≠ N)
    (hw : k < N + 2 ^ 15) (hfit : (snd.chunk s k).usLength ≤ v.uiMyRwnd) :
    StreamInv snd (a ++ [.ordered s k]) s N (v.insert s (snd.chunk s k)) ∧
      StreamStep s v (v.insert s (snd.chunk s k)) := by
  have hN := h.lt_of_new hk
  obtain ⟨ks, hbuf, hks, hmem⟩ := h.buffer
  have hdiff : ∀ j ∈ ks, j % 2 ^ 16 ≠ k % 2 ^ 16 := by
    intro j hj
    obtain ⟨h1, h2⟩ := (hmem j).mp hj
    have h3 := h.window j h2
    have h4 : j ≠ k := by
      rintro rfl
      exact hk h2
    omega
  obtain ⟨K, K', hsplit, hins, hK, hK'⟩ := InsertInStreamBuffer_spec snd s hks hdiff
  have harr : ∀ j, .ordered s j ∈ a ++ [.ordered s k] ↔ .ordered s j ∈ a ∨ j = k := by simp
  have hbuf' : ((v.insert s (snd.chunk s k)).spInStreams s).sBufferedChunkList =
      (K ++ k :: K').map (snd.chunk s) := by
    simp only [Streams.insert, Function.update_self]
    rw [hbuf, hins]
  refine ⟨⟨?_, ?_, fun j hj => (harr j).mpr (Or.inl (h.arrived j hj)), ?_, h.passed,
    ⟨K ++ k :: K', hbuf', ?_, fun j => ?_⟩, fun j hj => ?_⟩, rfl, fun i hi => ?_,
    ⟨[], (List.append_nil _).symm, by simp⟩, ?_⟩
  · simpa [Streams.insert] using h.mode
  · simpa [Streams.insert] using h.next
  · rw [harr]
    rintro (hmiss | rfl)
    · exact h.missing hmiss
    · exact hne rfl
  · rw [hsplit, List.pairwise_append] at hks
    refine List.pairwise_append.mpr ⟨hks.1, List.pairwise_cons.mpr ⟨hK', hks.2.1⟩, ?_⟩
    intro i hi j hj
    rcases List.mem_cons.mp hj with rfl | hj
    · exact hK i hi
    · exact hks.2.2 i hi j hj
  · have hin : j ∈ K ++ k :: K' ↔ j = k ∨ j ∈ ks := by
      rw [hsplit]
      simp only [List.mem_append, List.mem_cons]
      tauto
    rw [hin, harr, hmem]
    constructor
    · rintro (rfl | ⟨h1, h2⟩)
      · exact ⟨by omega, Or.inr rfl⟩
      · exact ⟨h1, Or.inl h2⟩
    · rintro ⟨h1, h2 | rfl⟩
      · exact Or.inr ⟨h1, h2⟩
      · exact Or.inl rfl
  · rcases (harr j).mp hj with hj | rfl
    · exact h.window j hj
    · exact hw
  · simp [Streams.insert, Function.update_of_ne hi]
  · rw [hbuf', hbuf, hsplit]
    simp only [Streams.insert, List.map_append, List.map_cons, bytes_append, bytes_cons]
    omega

theorem pairwise_of_mod (hks : ks.Pairwise (fun j k => j % 2 ^ 16 < k % 2 ^ 16))
    (hle : ∀ k ∈ ks, N ≤ k ∧ k < N + 2 ^ 16) (hmod : ∀ k ∈ ks, N % 2 ^ 16 ≤ k % 2 ^ 16) :
    ks.Pairwise (· < ·) := by
  refine hks.imp_of_mem fun {j k} hj hk hlt => ?_
  have h1 := hle j hj
  have h2 := hle k hk
  have h3 := hmod j hj
  have h4 := hmod k hk
  omega

theorem onStream_chunk : onStream s (snd.chunk s k) = true := by
  simp [onStream, snd.ordered, snd.streamId]

/-- The next chunk goes in front of those that wait for it. -/
theorem StreamInv.insert_next {r' : Receiver} (h : StreamInv snd a s N r.streams)
    (hr' : r'.streams = r.streams.insert s (snd.chunk s N))
    (hnone : ∀ b ∈ (r.spInStreams s).sBufferedChunkList,
      (snd.chunk s N).usStreamSeqNum ≤ b.usStreamSeqNum) :
    ∃ ks, (r.spInStreams s).sBufferedChunkList = ks.map (snd.chunk s) ∧
      (ks.Pairwise fun j k => j % 2 ^ 16 < k % 2 ^ 16) ∧
      (∀ j, j ∈ ks ↔ N < j ∧ .ordered s j ∈ a) ∧ (N :: ks).Pairwise (· < ·) ∧
      (∀ j ∈ N :: ks, N ≤ j ∧ j < N + 2 ^ 16) ∧
      r'.spInStreams s = ⟨(r.spInStreams s).eMode, (r.spInStreams s).usNextStreamSeqNum,
        (N :: ks).map (snd.chunk s)⟩ := by
  obtain ⟨ks, hbuf, hks, hmem⟩ := h.buffer
  have hbuf₀ : (r.spInStreams s).sBufferedChunkList = ks.map (snd.chunk s) := hbuf
  have hrange : ∀ j ∈ ks, N < j ∧ j < N + 2 ^ 15 := fun j hj =>
    ⟨((hmem j).mp hj).1, h.window j ((hmem j).mp hj).2⟩
  have hdiff : ∀ j ∈ ks, j % 2 ^ 16 ≠ N % 2 ^ 16 := fun j hj => by
    have := hrange j hj
    omega
  have hmod : ∀ j ∈ ks, N % 2 ^ 16 ≤ j % 2 ^ 16 := fun j hj => by
    have := hnone (snd.chunk s j) (hbuf₀ ▸ List.mem_map_of_mem hj)
    rwa [snd.seqNum, snd.seqNum] at this
  -- nothing is before the next chunk in the buffer
  obtain ⟨K, K', hsplit, hins, hK, -⟩ := InsertInStreamBuffer_spec snd s hks hdiff
  have hnil : K = [] := by
    refine List.eq_nil_iff_forall_not_mem.mpr fun j hj => ?_
    have h1 := hK j hj
    have h2 := hmod j (hsplit ▸ List.mem_append_left K' hj)
    omega
  subst hnil
  rw [List.nil_append] at hsplit hins
  subst hsplit
  refine ⟨ks, hbuf₀, hks, hmem, ?_, ?_, ?_⟩
  · refine List.pairwise_cons.mpr ⟨fun j hj => (hrange j hj).1, pairwise_of_mod hks ?_ hmod⟩
    intro j hj
    have := hrange j hj
    omega
  · intro j hj
    rcases List.mem_cons.mp hj with rfl | hj
    · omega
    · have := hrange j hj
      omega
  · have := congrArg (fun v => v.spInStreams s) hr'
    simp only [streams, Streams.insert, Function.update_self] at this
    rw [this, hbuf₀, hins]

/-- The chunks that are passed on follow those passed on before. -/
theorem passed_range {l : List DataChunk} {m : ℕ}
    (h : l.filter (onStream s) = (List.range N).map (snd.chunk s)) :
    (l ++ (List.range' N m).map (snd.chunk s)).filter (onStream s) =
      (List.range (N + m)).map (snd.chunk s) := by
  have hsame : ((List.range' N m).map (snd.chunk s)).filter (onStream s) =
      (List.range' N m).map (snd.chunk s) := by
    refine List.filter_eq_self.mpr fun c hc => ?_
    obtain ⟨j, -, rfl⟩ := List.mem_map.mp hc
    exact onStream_chunk
  rw [List.filter_append, h, hsame, ← List.map_append, List.range_eq_range',
    List.range_eq_range', ← List.range'_append_1, Nat.zero_add]

/-- The next chunk passes on all that wait for it. -/
theorem StreamInv.turn {r' : Receiver} (h : StreamInv snd a s N r.streams)
    (hr' : r'.streams = r.streams.insert s (snd.chunk s N))
    (hnone : ∀ b ∈ (r.spInStreams s).sBufferedChunkList,
      (snd.chunk s N).usStreamSeqNum ≤ b.usStreamSeqNum)
    (hfit : (snd.chunk s N).usLength ≤ r.uiMyRwnd) {v' : Streams}
    (hv' : (updateStream s (r'.spInStreams s).sBufferedChunkList r').streams = v') :
    (∃ N', StreamInv snd (a ++ [.ordered s N]) s N' v') ∧ StreamStep s r.streams v' := by
  obtain ⟨ks, hbuf₀, hks, hmem, hall, hM, hf'⟩ := h.insert_next hr' hnone
  obtain ⟨m, rest, hlist, hrest, hres⟩ := updateStream_deliver snd hall hM
    (by rw [hf']; exact h.mode) (by rw [hf']; exact h.next)
  rw [hf', hres, hr'] at hv'
  subst hv'
  have harr : ∀ j, .ordered s j ∈ a ++ [.ordered s N] ↔ .ordered s j ∈ a ∨ j = N := by simp
  have hin : ∀ j, N ≤ j → (j ∈ N :: ks ↔ .ordered s j ∈ a ++ [.ordered s N]) := by
    intro j hj
    rw [harr, List.mem_cons, hmem]
    constructor
    · rintro (rfl | ⟨-, h2⟩)
      · exact Or.inr rfl
      · exact Or.inl h2
    · rintro (h2 | rfl)
      · refine Or.inr ⟨lt_of_le_of_ne hj ?_, h2⟩
        rintro rfl
        exact h.missing h2
      · exact Or.inl rfl
  have hrest_mem : ∀ j, j ∈ rest ↔ N + m < j ∧ j ∈ N :: ks := by
    intro j
    constructor
    · intro hj
      exact ⟨hrest j hj, hlist ▸ List.mem_append_right _ hj⟩
    · rintro ⟨hlt, hj⟩
      rw [hlist, List.mem_append, List.mem_range'_1] at hj
      exact hj.resolve_left fun hj => by omega
  refine ⟨⟨N + m, ?_, ?_, fun j hj => ?_, fun hmiss => ?_, ?_, ⟨rest, ?_, ?_, fun j => ?_⟩,
    fun j hj => ?_⟩, rfl, fun i hi => ?_, ⟨_, rfl, fun c hc => ?_⟩, ?_⟩
  · simp [Streams.deliver]
  · simp [Streams.deliver]
  · by_cases hlt : j < N
    · exact (harr j).mpr (Or.inl (h.arrived j hlt))
    · refine (hin j (not_lt.mp hlt)).mp ?_
      rw [hlist, List.mem_append, List.mem_range'_1]
      exact Or.inl ⟨not_lt.mp hlt, hj⟩
  · have := (hin (N + m) (by omega)).mpr hmiss
    rw [hlist, List.mem_append, List.mem_range'_1] at this
    rcases this with hj | hj
    · omega
    · exact lt_irrefl _ (hrest _ hj)
  · have hpassed : r.passed.filter (onStream s) = (List.range N).map (snd.chunk s) := h.passed
    exact passed_range hpassed
  · simp [Streams.deliver]
  · have hsub : rest.Sublist (N :: ks) := hlist ▸ List.sublist_append_right _ _
    cases m with
    | zero =>
      have : N ∈ rest := by
        rw [List.range'_zero, List.nil_append] at hlist
        exact hlist ▸ List.mem_cons_self
      exact absurd (hrest N this) (by omega)
    | succ m =>
      rw [List.range'_succ, List.cons_append, List.cons.injEq] at hlist
      exact hks.sublist (hlist.2 ▸ List.sublist_append_right _ _)
  · rw [hrest_mem]
    exact and_congr_right fun hlt => hin j (by omega)
  · rcases (harr j).mp hj with hj | rfl
    · have := h.window j hj
      omega
    · omega
  · simp [Streams.deliver, Streams.insert, Function.update_of_ne hi]
  · obtain ⟨j, -, rfl⟩ := List.mem_map.mp hc
    exact onStream_chunk
  · have hbytes := congrArg (fun l => bytes (l.map (snd.chunk s))) hlist
    simp only [List.map_append, List.map_cons, bytes_append, bytes_cons] at hbytes
    simp only [Streams.deliver, Streams.insert, Function.update_self, streams, hbuf₀]
    omega

/-! ## All streams -/

/-- What a step gives to one stream, it takes from the window. -/
theorem StreamStep.buffered (h : StreamStep s v v') (hs : s < v.iNumInStreams) :
    v'.uiMyRwnd + v'.buffered = v.uiMyRwnd + v.buffered := by
  have hmem : s ∈ Finset.range v.iNumInStreams := Finset.mem_range.mpr hs
  have hother : ∑ i ∈ (Finset.range v.iNumInStreams).erase s,
        bytes (v'.spInStreams i).sBufferedChunkList =
      ∑ i ∈ (Finset.range v.iNumInStreams).erase s, bytes (v.spInStreams i).sBufferedChunkList :=
    Finset.sum_congr rfl fun i hi => by rw [h.other i (Finset.ne_of_mem_erase hi)]
  have hwin := h.window
  rw [Streams.buffered, Streams.buffered, h.num, ← Finset.add_sum_erase _ _ hmem, hother,
    ← Finset.add_sum_erase _ _ hmem]
  omega

theorem onStream_ordered (hc : onStream s c = true) : c.unordered = false ∧ c.usStreamId = s := by
  simpa [onStream] using hc

theorem StreamsInv.ordered_step (h : StreamsInv snd w n a v) (hstep : StreamStep s v v')
    (hs : s < v.iNumInStreams) (hinv : ∃ N', StreamInv snd (a ++ [.ordered s k]) s N' v') :
    StreamsInv snd w n (a ++ [.ordered s k]) v' := by
  obtain ⟨l, hl, hon⟩ := hstep.passed
  refine ⟨hstep.num.trans h.num, fun i => ?_, ?_, (hstep.buffered hs).trans h.window⟩
  · by_cases hi : i = s
    · exact hi ▸ hinv
    · obtain ⟨N, hN⟩ := h.stream i
      have hnone : l.filter (onStream i) = [] := by
        refine List.filter_eq_nil_iff.mpr fun c hc hci => hi ?_
        rw [← (onStream_ordered hci).2, (onStream_ordered (hon c hc)).2]
      refine ⟨N, hN.congr (hstep.other i hi) ?_ fun j hj => hi ?_⟩
      · rw [hl, List.filter_append, hnone, List.append_nil]
      · exact (Arrival.ordered.inj hj).1.symm
  · have hnone : l.filter DataChunk.unordered = [] := by
      refine List.filter_eq_nil_iff.mpr fun c hc => ?_
      simp [(onStream_ordered (hon c hc)).1]
    rw [hl, List.filter_append, hnone, List.append_nil, h.unordered, List.filterMap_append]
    simp [Arrival.unordered?]

theorem StreamsInv.unordered_step {c : {c : DataChunk // c.unordered = true}}
    (h : StreamsInv snd w n a v) :
    StreamsInv snd w n (a ++ [.unordered c]) { v with passed := v.passed ++ [c.1] } := by
  refine ⟨h.num, fun i => ?_, ?_, h.window⟩
  · obtain ⟨N, hN⟩ := h.stream i
    refine ⟨N, hN.congr rfl ?_ fun j hj => Arrival.noConfusion hj⟩
    simp [onStream, c.2]
  · rw [List.filter_append, h.unordered, List.filterMap_append]
    simp [Arrival.unordered?, c.2]

/-- The chunk is in its stream or has been passed on; then come all streams. -/
theorem streams_PassToStream_ordered (hc : c.unordered = false) {t : ℤ} :
    (((r.accept c).UpdateRecvTsnBlocks t).PassToStream c).streams =
      r.streams.insert c.usStreamId c := by
  rw [PassToStream]
  simp [hc, accept, UpdateRecvTsnBlocks, setStream, streams, Streams.insert]

theorem streams_PassToStream_chunk {r' : Receiver} {t : ℤ}
    (h : ((r.accept (snd.chunk s k)).UpdateRecvTsnBlocks t).PassToStream (snd.chunk s k) = r') :
    r'.streams = r.streams.insert s (snd.chunk s k) := by
  have hpass := streams_PassToStream_ordered (r := r) (t := t) (snd.ordered s k)
  rw [snd.streamId, h] at hpass
  exact hpass

/-- The other streams. -/
theorem spInStreams_of_insert {r' : Receiver} {i : ℕ} {c : DataChunk}
    (h : r'.streams = r.streams.insert s c) (hi : i ≠ s) : r'.spInStreams i = r.spInStreams i := by
  have hstream := congrArg (fun v => v.spInStreams i) h
  simpa [streams, Streams.insert, Function.update_of_ne hi] using hstream

theorem StreamsInv.settled (h : StreamsInv snd w n a v) (i : ℕ) : Settled (v.spInStreams i) := by
  obtain ⟨N, hN⟩ := h.stream i
  exact hN.settled

theorem streams_PassToStream_unordered (hc : c.unordered = true) (hfit : c.usLength ≤ r.uiMyRwnd)
    {t : ℤ} : (((r.accept c).UpdateRecvTsnBlocks t).PassToStream c).streams =
      { r.streams with passed := r.passed ++ [c] } := by
  rw [PassToStream]
  simp only [hc, if_true, streams_noteNonReneg]
  simp only [PassToUpperLayer, accept, UpdateRecvTsnBlocks, streams, Nat.sub_add_cancel hfit]

/-- **One chunk**: delivery stays exact if no smaller number is in the buffer. -/
theorem StreamsInv.step (h : StreamsInv snd w n a r.streams) {S : Set ℤ} (htsn : r.tsnState.Inv S)
    (harr : Arrives snd a r x) (hS : (snd.sent x).uiTsn ∉ S) (hnone : r.NoneBehind (snd.sent x)) :
    StreamsInv snd w n (a ++ [x]) (r.ProcessDataChunk (snd.sent x)).streams := by
  rw [ProcessDataChunk_new htsn harr.fits hS, streams_UpdateAllStreams]
  cases x with
  | unordered c =>
    generalize hr' : ((r.accept _).UpdateRecvTsnBlocks _).PassToStream (snd.sent (.unordered c)) = r'
    have hv' : r'.streams = { r.streams with passed := r.passed ++ [c.1] } :=
      hr' ▸ streams_PassToStream_unordered c.2 harr.fits.1
    have hinv : StreamsInv snd w n (a ++ [.unordered c]) r'.streams := hv' ▸ h.unordered_step
    rw [updateStreams_settled fun i => hinv.settled i]
    exact hinv
  | ordered s k =>
    generalize hr' : ((r.accept _).UpdateRecvTsnBlocks _).PassToStream (snd.sent (.ordered s k)) = r'
    have hv' := streams_PassToStream_chunk hr'
    have hs : s < r.iNumInStreams := harr.stream s k rfl
    have hnew : .ordered s k ∉ a := fun hmem => harr.once _ hmem rfl
    obtain ⟨N, hN⟩ := h.stream s
    have hother : ∀ i, i ≠ s → Settled (r'.spInStreams i) := fun i hi =>
      (spInStreams_of_insert hv' hi).symm ▸ h.settled i
    by_cases hk : k = N
    · subst hk
      have hbehind := hnone (snd.ordered s k)
      rw [Sender.sent, snd.streamId, snd.seqNum] at hbehind
      have hturn := hN.turn hv' (fun b hb => (snd.seqNum s k).symm ▸ hbehind hN.next.symm b hb)
        harr.fits.1 rfl
      have hinv := h.ordered_step hturn.2 hs hturn.1
      have hnum : s < r'.iNumInStreams := by
        have : r'.iNumInStreams = r.iNumInStreams := congrArg Streams.iNumInStreams hv'
        omega
      rw [updateStreams_one hnum rfl hother fun i => hinv.settled i]
      exact hinv
    · have hw : k < N + 2 ^ 15 := by
        by_contra hge
        exact hN.missing (harr.inFlight s k rfl N (not_lt.mp hge))
      have hlater := hN.later hnew hk hw harr.fits.1
      have hinv := h.ordered_step hlater.2 hs ⟨N, hlater.1⟩
      rw [← hv'] at hinv
      rw [updateStreams_settled fun i => hinv.settled i]
      exact hinv

/-- The TSNs of the chunks that have arrived. -/
def arrivedTsns (snd : Sender) (a : List Arrival) : Set ℤ := {t | ∃ y ∈ a, (snd.sent y).uiTsn = t}

theorem arrivedTsns_append :
    arrivedTsns snd (a ++ [x]) = insert (snd.sent x).uiTsn (arrivedTsns snd a) := by
  ext t
  simp only [arrivedTsns, List.mem_append, List.mem_singleton, Set.mem_ofPred_eq,
    Set.mem_insert_iff]
  constructor
  · rintro ⟨y, hy | rfl, rfl⟩
    · exact Or.inr ⟨y, hy, rfl⟩
    · exact Or.inl rfl
  · rintro (rfl | ⟨y, hy, rfl⟩)
    · exact ⟨x, Or.inr rfl, rfl⟩
    · exact ⟨y, Or.inl hy, rfl⟩

theorem Arrives.not_mem (h : Arrives snd a r x) : (snd.sent x).uiTsn ∉ arrivedTsns snd a := by
  rintro ⟨y, hy, heq⟩
  exact h.once y hy heq

theorem StreamsInv.init {nr : Bool} :
    StreamsInv snd w n [] (Receiver.init w n (fun _ => .reliable) nr).streams := by
  refine ⟨rfl, fun s => ⟨0, rfl, rfl, by simp, List.not_mem_nil, rfl, ⟨[], rfl, by simp⟩, by simp⟩,
    rfl, ?_⟩
  simp [Receiver.init, streams, Streams.buffered]

/-- What holds in all runs whose steps find no smaller number in the buffer. -/
theorem Run.inv {nr : Bool} (h : Run snd w n nr NoneBehind a r) :
    r.tsnState.Inv (arrivedTsns snd a) ∧ StreamsInv snd w n a r.streams := by
  induction h with
  | init =>
    have hnone : arrivedTsns snd [] = ∅ := by simp [arrivedTsns]
    exact ⟨hnone ▸ TsnState.Inv.init, StreamsInv.init⟩
  | step _ harr hnone ih =>
    refine ⟨?_, ih.2.step ih.1 harr harr.not_mem hnone⟩
    rw [arrivedTsns_append]
    exact new_inv ih.1 harr.fits harr.not_mem

theorem StreamsInv.toDelivered (h : StreamsInv snd w n a r.streams) : Delivered snd w n a r := by
  have hwin := h.window
  rw [Streams.buffered, h.num] at hwin
  refine ⟨fun s _ => ?_, h.unordered, hwin⟩
  obtain ⟨N, hN⟩ := h.stream s
  obtain ⟨ks, hbuf, -, hmem⟩ := hN.buffer
  refine ⟨N, hN.arrived, hN.missing, hN.passed, fun c hc => ?_⟩
  have hbuf' : (r.spInStreams s).sBufferedChunkList = ks.map (snd.chunk s) := hbuf
  rw [hbuf'] at hc
  obtain ⟨k, hk, rfl⟩ := List.mem_map.mp hc
  exact ⟨k, ((hmem k).mp hk).1, ((hmem k).mp hk).2, rfl⟩

/-- **Ordered delivery is exact in all runs** in which the next chunk of a stream never finds a
smaller number in the buffer. -/
theorem run_delivered {nr : Bool} (h : Run snd w n nr NoneBehind a r) : Delivered snd w n a r :=
  h.inv.2.toDelivered

/-- A run in which two chunks arrive the other way round. -/
theorem run_delivered_swapped :
    ∃ r, Delivered equalChunks 100 1 [.ordered 0 1, .ordered 0 0] r := by
  have h₁ : Run equalChunks 100 1 true NoneBehind [] _ := Run.init
  have h₂ := h₁.step (x := .ordered 0 1) ⟨by decide, by simp, by simp [Receiver.init], by
    rintro s k hx j hj
    cases hx
    omega⟩ (by decide)
  have h₃ := h₂.step (x := .ordered 0 0) ⟨by decide, by decide, fun s k hx => by
    cases hx
    decide, by
    rintro s k hx j hj
    cases hx
    omega⟩ (by decide)
  exact ⟨_, run_delivered h₃⟩

/-! ## The next chunk behind a smaller number -/

/-- The next chunk stays in the buffer behind a smaller number. -/
theorem StreamsInv.buffered_behind {r' : Receiver} {c : DataChunk}
    (h : StreamsInv snd w n a r.streams) (hN : StreamInv snd a s k r.streams)
    (hr' : r'.streams = r.streams.insert s (snd.chunk s k))
    (hc : c ∈ (r.spInStreams s).sBufferedChunkList) (hlt : c.usStreamSeqNum < k % 2 ^ 16) :
    snd.chunk s k ∈ (r'.UpdateAllStreams.spInStreams s).sBufferedChunkList := by
  obtain ⟨ks, hbuf, hks, hmem⟩ := hN.buffer
  have hbuf₀ : (r.spInStreams s).sBufferedChunkList = ks.map (snd.chunk s) := hbuf
  have hdiff : ∀ j ∈ ks, j % 2 ^ 16 ≠ k % 2 ^ 16 := fun j hj => by
    have h1 := (hmem j).mp hj
    have h2 := hN.window j h1.2
    omega
  -- the smaller number stays at the head of the buffer
  obtain ⟨K, K', hsplit, hins, hK, hK'⟩ := InsertInStreamBuffer_spec snd s hks hdiff
  rw [hbuf₀] at hc
  obtain ⟨j, hj, rfl⟩ := List.mem_map.mp hc
  rw [snd.seqNum] at hlt
  have hjK : j ∈ K := by
    rw [hsplit] at hj
    refine (List.mem_append.mp hj).resolve_right fun hj => ?_
    have := hK' j hj
    omega
  obtain ⟨i, K, rfl⟩ := List.exists_cons_of_ne_nil (List.ne_nil_of_mem hjK)
  have hf' : r'.spInStreams s =
      ⟨(r.spInStreams s).eMode, (r.spInStreams s).usNextStreamSeqNum,
        (i :: K ++ k :: K').map (snd.chunk s)⟩ := by
    have := congrArg (fun v => v.spInStreams s) hr'
    simp only [streams, Streams.insert, Function.update_self] at this
    rw [this, hbuf₀, hins]
  have hsettled : ∀ l, Settled (r'.spInStreams l) := by
    intro l
    by_cases hl : l = s
    · subst hl
      refine ⟨hf' ▸ hN.mode, fun c hc => ?_⟩
      have hc' : c = snd.chunk l i := by simpa [hf'] using hc.symm
      have hi := hK i List.mem_cons_self
      have hnext := hN.next
      rw [hc', snd.seqNum, hf']
      show i % 2 ^ 16 ≠ (r.streams.spInStreams l).usNextStreamSeqNum
      omega
    · exact (spInStreams_of_insert hr' hl).symm ▸ h.settled l
  have hsame : r'.UpdateAllStreams.streams = r'.streams := by
    rw [streams_UpdateAllStreams, updateStreams_settled hsettled]
  have hfinal : (r'.UpdateAllStreams.spInStreams s).sBufferedChunkList =
      (i :: K ++ k :: K').map (snd.chunk s) := by
    have := congrArg (fun v => (v.spInStreams s).sBufferedChunkList) hsame
    exact this.trans (congrArg InStream.sBufferedChunkList hf')
  rw [hfinal]
  exact List.mem_map_of_mem (by simp)

/-- With exact delivery a chunk is not buffered once all before it have arrived. -/
theorem Delivered.not_buffered {r' : Receiver} (hdel : Delivered snd w n (a ++ [.ordered s k]) r')
    (hs : s < n) (hbefore : ∀ j < k, .ordered s j ∈ a)
    (honce : ∀ y ∈ a, (snd.sent y).uiTsn ≠ (snd.chunk s k).uiTsn) :
    snd.chunk s k ∉ (r'.spInStreams s).sBufferedChunkList := by
  intro hbuffered
  obtain ⟨N, -, hmiss, -, hbehind⟩ := hdel.inOrder s hs
  obtain ⟨k', hk', harr', heq⟩ := hbehind _ hbuffered
  have hkN : k < N := by
    by_contra hge
    refine hmiss (List.mem_append.mpr ?_)
    rcases lt_or_eq_of_le (not_lt.mp hge) with hlt | rfl
    · exact Or.inl (hbefore N hlt)
    · exact Or.inr (List.mem_singleton_self _)
  rcases List.mem_append.mp harr' with hmem | hmem
  · exact honce _ hmem (congrArg DataChunk.uiTsn heq.symm)
  · have := (Arrival.ordered.inj (List.mem_singleton.mp hmem)).2
    omega

/-- **The condition is exact**: a next chunk that finds a smaller number in the buffer is not
passed on. -/
theorem not_delivered {S : Set ℤ} (h : StreamsInv snd w n a r.streams) (htsn : r.tsnState.Inv S)
    (harr : Arrives snd a r x) (hS : (snd.sent x).uiTsn ∉ S) (hbehind : ¬ r.NoneBehind (snd.sent x)) :
    ¬ Delivered snd w n (a ++ [x]) (r.ProcessDataChunk (snd.sent x)) := by
  intro hdel
  cases x with
  | unordered c => exact hbehind fun hc => absurd (c.2.symm.trans hc) (by decide)
  | ordered s k =>
    simp only [NoneBehind, Sender.sent, snd.ordered, snd.streamId, snd.seqNum, forall_const,
      not_forall, not_le] at hbehind
    obtain ⟨hnext, b, hb, hlt⟩ := hbehind
    obtain ⟨N, hN⟩ := h.stream s
    have hnew : .ordered s k ∉ a := fun hmem => harr.once _ hmem rfl
    have hle := hN.lt_of_new hnew
    have hw : k < N + 2 ^ 15 := by
      by_contra hge
      exact hN.missing (harr.inFlight s k rfl N (not_lt.mp hge))
    obtain rfl : k = N := by
      have hmod : k % 2 ^ 16 = N % 2 ^ 16 := hnext.trans hN.next
      omega
    have hs : s < n := h.num ▸ harr.stream s k rfl
    refine hdel.not_buffered hs hN.arrived harr.once ?_
    rw [ProcessDataChunk_new htsn harr.fits hS]
    exact h.buffered_behind hN (streams_PassToStream_chunk rfl) hb hlt

/-! ## A stream that wraps -/

theorem Run.mono {nr : Bool} {P Q : Receiver → DataChunk → Prop} (hPQ : ∀ r c, P r c → Q r c)
    (h : Run snd w n nr P a r) : Run snd w n nr Q a r := by
  induction h with
  | init => exact .init
  | step _ harr hP ih => exact ih.step harr (hPQ _ _ hP)

/-- With no chunk in any buffer, the window is open. -/
theorem StreamsInv.empty (h : StreamsInv snd w n a r.streams)
    (hnone : ∀ i < n, (r.spInStreams i).sBufferedChunkList = []) : r.uiMyRwnd = w := by
  have hwin := h.toDelivered.window
  rw [Finset.sum_eq_zero fun i hi => by rw [hnone i (Finset.mem_range.mp hi), bytes_nil]] at hwin
  exact hwin

theorem StreamsInv.buffer_eq (h : StreamsInv snd w n a r.streams) (harr : ∀ k < N, .ordered s k ∈ a)
    (hmiss : .ordered s N ∉ a) :
    ∃ ks : List ℕ, (r.spInStreams s).sBufferedChunkList = ks.map (snd.chunk s) ∧ ks.Nodup ∧
      ∀ k, k ∈ ks ↔ N < k ∧ .ordered s k ∈ a := by
  obtain ⟨M, hM⟩ := h.stream s
  have hMN : M = N := by
    refine le_antisymm (not_lt.mp fun hlt => hmiss (hM.arrived N hlt)) (not_lt.mp fun hlt => ?_)
    exact hM.missing (harr M hlt)
  obtain ⟨ks, hbuf, hks, hmem⟩ := hM.buffer
  exact ⟨ks, hbuf, hks.imp fun hlt heq => (heq ▸ hlt).false, hMN ▸ hmem⟩

/-- The chunks of one stream that arrive in order. -/
def firstChunks (m : ℕ) : List Arrival := (List.range m).map (.ordered 0)

theorem mem_firstChunks {m : ℕ} : .ordered s k ∈ firstChunks m ↔ s = 0 ∧ k < m := by
  simp [firstChunks, and_comm, eq_comm]

/-- All buffers are empty when the chunks have arrived in order. -/
theorem window_firstChunks {m : ℕ} (h : StreamsInv equalChunks w 1 (firstChunks m) r.streams) :
    (r.spInStreams 0).sBufferedChunkList = [] ∧ r.uiMyRwnd = w := by
  obtain ⟨ks, hbuf, -, hmem⟩ := h.buffer_eq (s := 0) (N := m) (fun k hk => mem_firstChunks.mpr ⟨rfl, hk⟩)
    (fun hm => (mem_firstChunks.mp hm).2.false)
  have hks : ks = [] := List.eq_nil_iff_forall_not_mem.mpr fun k hk => by
    obtain ⟨h1, h2⟩ := (hmem k).mp hk
    have := (mem_firstChunks.mp h2).2
    omega
  have hnil : (r.spInStreams 0).sBufferedChunkList = [] := by rw [hbuf, hks, List.map_nil]
  exact ⟨hnil, h.empty fun i hi => by rw [Nat.lt_one_iff.mp hi, hnil]⟩

/-- A next or later chunk of the stream can arrive. -/
theorem arrives_next (hfit : 16 ≤ r.uiMyRwnd) (hnum : r.iNumInStreams = 1)
    (hk : k + 2 < 2 ^ 32) (hnew : ∀ y ∈ a, ∃ j, j ≠ k ∧ y = .ordered 0 j) (hfirst : ∀ j, j + 2 ^ 15 ≤ k → .ordered 0 j ∈ a) :
    Arrives equalChunks a r (.ordered 0 k) where
  fits := by
    refine ⟨hfit, ?_, ?_⟩
    · show (1 : ℤ) ≤ (k : ℤ) + 1
      omega
    · show (k : ℤ) + 1 < 2 ^ 32 - 1
      omega
  once y hy := by
    obtain ⟨j, hj, rfl⟩ := hnew y hy
    show (j : ℤ) + 1 ≠ (k : ℤ) + 1
    omega
  stream s k hx := by
    cases hx
    omega
  inFlight s k hx j hj := by
    cases hx
    exact hfirst j hj

theorem firstChunks_run (m : ℕ) (hm : m ≤ 2 ^ 16) :
    ∃ r, Run equalChunks 100 1 true NoneBehind (firstChunks m) r := by
  induction m with
  | zero => exact ⟨_, .init⟩
  | succ m ih =>
    obtain ⟨r, hr⟩ := ih (by omega)
    obtain ⟨hnil, hwin⟩ := window_firstChunks hr.inv.2
    have harr : Arrives equalChunks (firstChunks m) r (.ordered 0 m) := by
      refine arrives_next (by omega) hr.inv.2.num (by omega) (fun y hy => ?_) fun j hj => ?_
      · obtain ⟨j, hj, rfl⟩ := List.mem_map.mp hy
        exact ⟨j, (List.mem_range.mp hj).ne, rfl⟩
      · exact mem_firstChunks.mpr ⟨rfl, by omega⟩
    have hnone : r.NoneBehind (equalChunks.sent (.ordered 0 m)) := fun _ _ b hb =>
      absurd (hnil ▸ hb) List.not_mem_nil
    have hsplit : firstChunks (m + 1) = firstChunks m ++ [.ordered 0 m] := by
      rw [firstChunks, List.range_succ, List.map_append]
      rfl
    exact ⟨_, hsplit ▸ hr.step harr hnone⟩

/-- After 65535 chunks in order, the chunk numbered 0 arrives before the one numbered 65535, which
is then never passed on. -/
theorem not_delivered_wrapped :
    ∃ r, Run equalChunks 100 1 true (fun _ _ => True)
        (firstChunks 65535 ++ [.ordered 0 65536] ++ [.ordered 0 65535]) r ∧
      ¬ Delivered equalChunks 100 1
        (firstChunks 65535 ++ [.ordered 0 65536] ++ [.ordered 0 65535]) r := by
  obtain ⟨r₁, hr₁⟩ := firstChunks_run 65535 (by norm_num)
  obtain ⟨hnil, hwin₁⟩ := window_firstChunks hr₁.inv.2
  have harr₁ : Arrives equalChunks (firstChunks 65535) r₁ (.ordered 0 65536) := by
    refine arrives_next (by omega) hr₁.inv.2.num (by norm_num) (fun y hy => ?_) fun j hj => ?_
    · obtain ⟨j, hj, rfl⟩ := List.mem_map.mp hy
      have := List.mem_range.mp hj
      exact ⟨j, by omega, rfl⟩
    · exact mem_firstChunks.mpr ⟨rfl, by omega⟩
  have hnone : r₁.NoneBehind (equalChunks.sent (.ordered 0 65536)) := fun _ _ b hb =>
    absurd (hnil ▸ hb) List.not_mem_nil
  have hr₂ := hr₁.step harr₁ hnone
  generalize r₁.ProcessDataChunk _ = r₂ at hr₂
  have hmem : ∀ k, .ordered 0 k ∈ firstChunks 65535 ++ [.ordered 0 65536] ↔
      k < 65535 ∨ k = 65536 := fun k => by
    simp [mem_firstChunks]
  -- the buffer holds the chunk that came too early
  obtain ⟨ks, hbuf, hnodup, hks⟩ := hr₂.inv.2.buffer_eq (s := 0) (N := 65535)
    (fun k hk => (hmem k).mpr (Or.inl hk)) (by rw [hmem]; omega)
  have hone : ks = [65536] := by
    refine List.perm_singleton.mp ((List.perm_ext_iff_of_nodup hnodup (by simp)).mpr fun k => ?_)
    rw [hks, hmem, List.mem_singleton]
    omega
  have hwin₂ : r₂.uiMyRwnd + 16 = 100 := by
    have hwin := hr₂.inv.2.toDelivered.window
    rw [Finset.sum_range_one, hbuf, hone] at hwin
    exact hwin
  have harr₂ : Arrives equalChunks (firstChunks 65535 ++ [.ordered 0 65536]) r₂
      (.ordered 0 65535) := by
    refine arrives_next (by omega) hr₂.inv.2.num (by norm_num) (fun y hy => ?_) fun j hj => ?_
    · rcases List.mem_append.mp hy with hy | hy
      · obtain ⟨j, hj, rfl⟩ := List.mem_map.mp hy
        exact ⟨j, (List.mem_range.mp hj).ne, rfl⟩
      · exact ⟨65536, by norm_num, List.mem_singleton.mp hy⟩
    · exact (hmem j).mpr (Or.inl (by omega))
  refine ⟨_, (hr₂.mono fun _ _ _ => trivial).step harr₂ trivial, ?_⟩
  refine not_delivered hr₂.inv.2 hr₂.inv.1 harr₂ harr₂.not_mem fun hnone => ?_
  obtain ⟨N, hN⟩ := hr₂.inv.2.stream 0
  have hNeq : N = 65535 := by
    refine le_antisymm (not_lt.mp fun hlt => ?_) (not_lt.mp fun hlt => ?_)
    · have := (hmem 65535).mp (hN.arrived 65535 hlt)
      omega
    · exact hN.missing ((hmem N).mpr (Or.inl hlt))
  have hnext : (r₂.spInStreams 0).usNextStreamSeqNum = N % 2 ^ 16 := hN.next
  have hle := hnone rfl (by rw [hNeq] at hnext; exact hnext.symm) (equalChunks.chunk 0 65536) (by
    show _ ∈ (r₂.spInStreams 0).sBufferedChunkList
    rw [hbuf, hone]
    exact List.mem_singleton_self _)
  exact absurd hle (by decide)

end Receiver

end Ns2.Sctp
