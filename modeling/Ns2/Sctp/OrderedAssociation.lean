import Ns2.Sctp.Association
import Ns2.Sctp.Streams

/-!
# Ordered delivery over a lossy network

The chunks of an association, as the streams of its receiver see them: those of a stream are numbered
by the sender, and arrive in any order.

* `Numbered` — the stream sequence numbers of the chunks that have been sent.
* `senderOf` — the sender of `Ns2.Sctp.Streams` for the chunks of an association.
* `InOrder` — the streams of the receiver, for the chunks that have arrived.
* `association_in_order` — the chunks of a stream are passed on as they were sent.
-/

namespace Ns2.Sctp

open Receiver

variable {cfg : SendConfig} {a a' b : Association} {C : List DataChunk} {c : DataChunk} {s k n w : ℕ}
  {r : Receiver} {xs : List Arrival}

/-! ## Stream sequence numbers -/

/-- The ordered chunks of each stream are numbered in the order in which they were sent. -/
def SeqNumbered (C : List DataChunk) : Prop :=
  ∀ (s k : ℕ) c, (C.filter (onStream s))[k]? = some c → c.usStreamSeqNum = k % 2 ^ 16

/-- The chunks are numbered, and the next ones will be. -/
structure Numbered (a : Association) : Prop where
  seqNums : SeqNumbered a.chunks
  next : ∀ s, a.usNextStreamSeqNum s = (a.chunks.filter (onStream s)).length % 2 ^ 16

theorem numbered_of_same (h : Numbered a) (hchunks : a'.chunks = a.chunks)
    (hnext : a'.usNextStreamSeqNum = a.usNextStreamSeqNum) : Numbered a' :=
  ⟨hchunks ▸ h.seqNums, fun s => by rw [hchunks, hnext]; exact h.next s⟩

/-- A new chunk is numbered. -/
theorem Numbered.concat (h : Numbered a) (uiNextTsn : ℤ) (usLength usStreamId : ℕ) (eUnordered : Bool)
    (hchunks : a'.chunks = a.chunks ++
      [(GenDataChunk uiNextTsn a.usNextStreamSeqNum usLength usStreamId eUnordered).1])
    (hnext : a'.usNextStreamSeqNum =
      (GenDataChunk uiNextTsn a.usNextStreamSeqNum usLength usStreamId eUnordered).2) : Numbered a' := by
  have hon : ∀ s, onStream s (GenDataChunk uiNextTsn a.usNextStreamSeqNum usLength usStreamId eUnordered).1 =
      (!eUnordered && usStreamId == s) := fun s => rfl
  have hfilter : ∀ s, a'.chunks.filter (onStream s) = a.chunks.filter (onStream s) ++
      if eUnordered = false ∧ usStreamId = s then
        [(GenDataChunk uiNextTsn a.usNextStreamSeqNum usLength usStreamId eUnordered).1] else [] := by
    intro s
    rw [hchunks, List.filter_append, List.filter_singleton, hon]
    cases eUnordered with
    | true => simp
    | false =>
      by_cases hs : usStreamId = s
      · simp [hs]
      · simp [hs, beq_eq_false_iff_ne.mpr hs]
  refine ⟨fun s k c hc => ?_, fun s => ?_⟩
  · rw [hfilter, List.getElem?_append] at hc
    split at hc
    · exact h.seqNums s k c hc
    · split at hc
      · rename_i hlt hs
        obtain ⟨hk, hget⟩ := List.getElem?_eq_some_iff.mp hc
        obtain rfl : k = (a.chunks.filter (onStream s)).length := by simp at hk; omega
        rw [← hget, ← h.next s]
        simp [GenDataChunk, hs.1, hs.2]
      · exact absurd hc.symm (by simp)
  · rw [hfilter, hnext, GenDataChunk]
    cases eUnordered with
    | true => simpa using h.next s
    | false =>
      by_cases hs : usStreamId = s
      · subst hs
        simp [h.next, Nat.add_mod]
      · simp [hs, Function.update_of_ne (Ne.symm hs), h.next]

/-- **A step numbers the chunks that it sends**, and changes none that was sent before. -/
theorem Numbered.step {e : AssociationEvent} (h : Numbered a) (hstep : a.step cfg e = some a') :
    Numbered a' ∧ a.chunks <+: a'.chunks := by
  cases e with
  | send usLength usStreamId iUnrelRtxLimit spNewTxDest eUnordered =>
    obtain rfl := Option.some.inj hstep
    exact ⟨h.concat _ _ _ _ rfl rfl, List.prefix_append _ _⟩
  | data i =>
    rw [Association.step] at hstep
    split at hstep
    · obtain rfl := Option.some.inj hstep
      exact ⟨h, List.prefix_refl _⟩
    · obtain rfl := Option.some.inj hstep
      exact ⟨numbered_of_same h rfl rfl, List.prefix_refl _⟩
  | ack =>
    obtain ⟨k, -, rfl⟩ := Option.map_eq_some_iff.mp hstep
    exact ⟨numbered_of_same h rfl rfl, List.prefix_refl _⟩
  | sack i rtxDest =>
    rw [Association.step] at hstep
    split at hstep
    · obtain rfl := Option.some.inj hstep
      exact ⟨h, List.prefix_refl _⟩
    · obtain ⟨s, -, rfl⟩ := Option.map_eq_some_iff.mp hstep
      exact ⟨numbered_of_same h rfl rfl, List.prefix_refl _⟩
  | timeout spDest rtxDest =>
    obtain ⟨s, -, rfl⟩ := Option.map_eq_some_iff.mp hstep
    exact ⟨numbered_of_same h rfl rfl, List.prefix_refl _⟩
  | window d iCwnd iSsthresh iPartialBytesAcked eApplyMaxBurst =>
    obtain rfl := Option.some.inj hstep
    exact ⟨numbered_of_same h rfl rfl, List.prefix_refl _⟩

theorem Numbered.run (h : Numbered a) {es : List AssociationEvent} (hrun : a.run cfg es = some b) :
    Numbered b ∧ a.chunks <+: b.chunks := by
  induction es generalizing a with
  | nil =>
    obtain rfl := Option.some.inj hrun
    exact ⟨h, List.prefix_refl _⟩
  | cons e es ih =>
    rw [Association.run, List.foldlM_cons] at hrun
    obtain ⟨a', hstep, hrest⟩ := Option.bind_eq_some_iff.mp hrun
    obtain ⟨hnumbered, hfirst⟩ := h.step hstep
    obtain ⟨hnumbered', hfirst'⟩ := ih hnumbered hrest
    exact ⟨hnumbered', hfirst.trans hfirst'⟩

/-! ## The sender of the chunks -/

/-- The ordered chunks, by stream and place; where there is none, some chunk with the right number. -/
def senderOf (C : List DataChunk) (hC : SeqNumbered C) : Sender where
  chunk s k := (C.filter (onStream s))[k]?.getD ⟨0, 0, s, k % 2 ^ 16, false⟩
  streamId s k := by
    cases hc : (C.filter (onStream s))[k]? with
    | none => rfl
    | some c => exact (onStream_ordered (List.of_mem_filter (List.mem_of_getElem? hc))).2
  seqNum s k := by
    cases hc : (C.filter (onStream s))[k]? with
    | none => rfl
    | some c => exact hC s k c hc
  ordered s k := by
    cases hc : (C.filter (onStream s))[k]? with
    | none => rfl
    | some c => exact (onStream_ordered (List.of_mem_filter (List.mem_of_getElem? hc))).1

/-- The first chunks of a stream are those that were sent. -/
theorem map_senderOf (hC : SeqNumbered C) {N : ℕ} (hN : N ≤ (C.filter (onStream s)).length) :
    (List.range N).map ((senderOf C hC).chunk s) = (C.filter (onStream s)).take N := by
  refine List.ext_getElem (by simp [hN]) fun k h1 h2 => ?_
  have hk : k < (C.filter (onStream s)).length := by
    rw [List.length_take] at h2
    omega
  rw [List.getElem_map, List.getElem_range, List.getElem_take]
  show (C.filter (onStream s))[k]?.getD _ = _
  rw [List.getElem?_eq_getElem hk, Option.getD_some]

/-- Every chunk is on its way as an arrival. -/
theorem exists_arrival (hC : SeqNumbered C) (hc : c ∈ C) : ∃ x, (senderOf C hC).sent x = c ∧
    ∀ s k, x = .ordered s k → k < (C.filter (onStream s)).length ∧ c.unordered = false ∧
      c.usStreamId = s := by
  by_cases hunordered : c.unordered = true
  · exact ⟨.unordered ⟨c, hunordered⟩, rfl, fun s k hx => by cases hx⟩
  · have hordered : c.unordered = false := Bool.eq_false_of_not_eq_true hunordered
    have hmem : c ∈ C.filter (onStream c.usStreamId) := by
      rw [List.mem_filter]
      exact ⟨hc, by simp [onStream, hordered]⟩
    obtain ⟨k, hk⟩ := List.mem_iff_getElem?.mp hmem
    refine ⟨.ordered c.usStreamId k, ?_, fun s j hx => ?_⟩
    · show (C.filter (onStream c.usStreamId))[k]?.getD _ = c
      rw [hk, Option.getD_some]
    · cases hx
      exact ⟨(List.getElem?_eq_some_iff.mp hk).1, hordered, rfl⟩

/-! ## The streams of the receiver -/

/-- The streams when the chunks `xs` have been handed to them. -/
structure InOrder (C : List DataChunk) (hC : SeqNumbered C) (w n : ℕ) (xs : List Arrival) (r : Receiver) :
    Prop where
  streams : StreamsInv (senderOf C hC) w n xs r.streams
  sent : xs.map (senderOf C hC).sent = r.streamed
  placed : ∀ s k, .ordered s k ∈ xs → k < (C.filter (onStream s)).length

/-- Streams are in range, and their sequence numbers do not wrap. -/
structure FewChunks (C : List DataChunk) (n : ℕ) : Prop where
  streamId : ∀ c ∈ C, c.unordered = false → c.usStreamId < n
  length : ∀ s, (C.filter (onStream s)).length ≤ 2 ^ 15

theorem InOrder.congr {hC : SeqNumbered C} {r' : Receiver} (h : InOrder C hC w n xs r)
    (hstreams : r'.streams = r.streams) (hstreamed : r'.streamed = r.streamed) : InOrder C hC w n xs r' :=
  ⟨hstreams ▸ h.streams, hstreamed ▸ h.sent, h.placed⟩

/-- **A chunk that is handed to the streams keeps them in order.** -/
theorem InOrder.data {hC : SeqNumbered C} (h : InOrder C hC w n xs r) (hfew : FewChunks C n)
    (hreceived : r.Received) (hc : c ∈ C) (h1 : 1 ≤ c.uiTsn) (h2 : c.uiTsn < 2 ^ 32 - 1) :
    ∃ xs', InOrder C hC w n xs' (r.ProcessDataChunk c) := by
  obtain ⟨-, ⟨dups, needed, hover⟩ | ⟨hroom, hnew, hstreamed⟩⟩ := hreceived.data h1 h2
  · exact ⟨xs, h.congr (by rw [hover]; rfl) (by rw [hover])⟩
  · obtain ⟨x, hx, hplace⟩ := exists_arrival hC hc
    have harr : Arrives (senderOf C hC) xs r x := by
      refine ⟨hx ▸ ⟨hroom, h1, h2⟩, fun y hy heq => hnew ?_, fun s k hsk => ?_, fun s k hsk j hj => ?_⟩
      · rw [← hx, ← heq]
        exact mem_streamedTsns (h.sent ▸ List.mem_map_of_mem hy)
      · obtain ⟨-, hordered, rfl⟩ := hplace s k hsk
        have hnum : r.iNumInStreams = n := h.streams.num
        exact hnum ▸ hfew.streamId c hc hordered
      · have hlt := (hplace s k hsk).1
        have hle := hfew.length s
        omega
    have hnone : r.NoneBehind ((senderOf C hC).sent x) := by
      intro hordered hnext d hd
      cases x with
      | unordered c' => exact absurd (c'.2.symm.trans hordered) (by decide)
      | ordered s k =>
        have hk := (hplace s k rfl).1
        have hid := (senderOf C hC).streamId s k
        have hseq := (senderOf C hC).seqNum s k
        obtain ⟨N, hN⟩ := h.streams.stream s
        have hlen := hfew.length s
        have hsent : (senderOf C hC).sent (.ordered s k) = (senderOf C hC).chunk s k := rfl
        rw [hsent, hid] at hnext hd
        rw [hsent]
        have hNk : k % 2 ^ 16 = N % 2 ^ 16 := hseq.symm.trans (hnext.trans hN.next)
        have hNlt : N ≤ 2 ^ 15 := by
          cases N with
          | zero => omega
          | succ N =>
            have := h.placed s N (hN.arrived N (Nat.lt_succ_self N))
            omega
        obtain ⟨ks, hbuf, -, hks⟩ := hN.buffer
        have hbuf' : (r.spInStreams s).sBufferedChunkList = ks.map ((senderOf C hC).chunk s) := hbuf
        rw [hbuf'] at hd
        obtain ⟨j, hj, rfl⟩ := List.mem_map.mp hd
        obtain ⟨hNj, hjx⟩ := (hks j).mp hj
        have hjlt := h.placed s j hjx
        rw [hseq, (senderOf C hC).seqNum s j]
        omega
    have hstep := h.streams.step hreceived.inv harr (hx ▸ hnew) hnone
    rw [hx] at hstep
    refine ⟨xs ++ [x], hstep, ?_, fun s k hsk => ?_⟩
    · rw [List.map_append, h.sent, hstreamed, List.map_singleton, hx]
    · rcases List.mem_append.mp hsk with hsk | hsk
      · exact h.placed s k hsk
      · exact (hplace s k (List.mem_singleton.mp hsk).symm).1

/-- **One step of the association.** -/
theorem InOrder.step {hC : SeqNumbered C} {e : AssociationEvent} (h : InOrder C hC w n xs a.receiver)
    (hfew : FewChunks C n) (hsafe : Safe cfg a) (hcount : a.chunks.length < 2 ^ 32 - 1)
    (hfirst : a.chunks <+: C) (hstep : a.step cfg e = some a') :
    ∃ xs', InOrder C hC w n xs' a'.receiver := by
  cases e with
  | data i =>
    rw [Association.step] at hstep
    split at hstep
    · obtain rfl := Option.some.inj hstep
      exact ⟨xs, h⟩
    · rename_i c hc
      obtain rfl := Option.some.inj hstep
      have hmem := List.mem_of_getElem? hc
      obtain ⟨h1, h2⟩ := hsafe.tsn hmem
      exact h.data hfew hsafe.received (hfirst.subset hmem) h1 (by omega)
  | ack =>
    obtain ⟨k, -, rfl⟩ := Option.map_eq_some_iff.mp hstep
    exact ⟨xs, h.congr rfl rfl⟩
  | sack i rtxDest =>
    rw [Association.step] at hstep
    split at hstep
    · obtain rfl := Option.some.inj hstep
      exact ⟨xs, h⟩
    · obtain ⟨s, -, rfl⟩ := Option.map_eq_some_iff.mp hstep
      exact ⟨xs, h⟩
  | send usLength usStreamId iUnrelRtxLimit spNewTxDest eUnordered =>
    obtain rfl := Option.some.inj hstep
    exact ⟨xs, h⟩
  | timeout spDest rtxDest =>
    obtain ⟨s, -, rfl⟩ := Option.map_eq_some_iff.mp hstep
    exact ⟨xs, h⟩
  | window d iCwnd iSsthresh iPartialBytesAcked eApplyMaxBurst =>
    obtain rfl := Option.some.inj hstep
    exact ⟨xs, h⟩

/-- A run. -/
theorem InOrder.run (hcfg : cfg.eUseNonRenegSacks = false) (hrel : ∀ i, cfg.unreliable i = false)
    {hC : SeqNumbered C} (hfew : FewChunks C n) (es : List AssociationEvent) (hsafe : Safe cfg a)
    (hnumbered : Numbered a) (h : InOrder C hC w n xs a.receiver) (hfits : ∀ e ∈ es, e.Fits cfg)
    (hcount : a.chunks.length + (es.map AssociationEvent.sends).sum < 2 ^ 32 - 1)
    (hroom : a.Roomy cfg es) (hrun : a.run cfg es = some b) (hfirst : b.chunks <+: C) :
    ∃ xs', InOrder C hC w n xs' b.receiver := by
  induction es generalizing a xs with
  | nil =>
    obtain rfl := Option.some.inj hrun
    exact ⟨xs, h⟩
  | cons e es ih =>
    rw [List.map_cons, List.sum_cons] at hcount
    rw [Association.run, List.foldlM_cons] at hrun
    obtain ⟨a₁, hstep, hrest⟩ := Option.bind_eq_some_iff.mp hrun
    obtain ⟨he, hes⟩ := List.forall_mem_cons.mp hfits
    obtain ⟨a₂, hstep₂, hsafe₁, hlen⟩ := hsafe.step hcfg hrel he hroom.1 (by omega)
    obtain rfl := Option.some.inj (hstep₂.symm.trans hstep)
    obtain ⟨hnumbered₁, hchunks⟩ := hnumbered.step hstep
    have hchunks' := (hnumbered₁.run hrest).2
    obtain ⟨xs', h'⟩ := h.step hfew hsafe (by omega) ((hchunks.trans hchunks').trans hfirst) hstep
    exact ih hsafe₁ hnumbered₁ h' hes (by omega) (hroom.2 _ hstep) hrest

/-- What has been passed on of one stream. -/
theorem InOrder.passed {hC : SeqNumbered C} (h : InOrder C hC w n xs r) (s : ℕ) :
    r.passed.filter (onStream s) <+: C.filter (onStream s) ∧
      ((∀ c ∈ C, c ∈ r.streamed) → C.Nodup → r.passed.filter (onStream s) = C.filter (onStream s)) := by
  obtain ⟨N, hN⟩ := h.streams.stream s
  have hle : N ≤ (C.filter (onStream s)).length := by
    cases N with
    | zero => exact Nat.zero_le _
    | succ N => exact h.placed s N (hN.arrived N (Nat.lt_succ_self N))
  have hpassed : r.passed.filter (onStream s) = (C.filter (onStream s)).take N :=
    hN.passed.trans (map_senderOf hC hle)
  refine ⟨hpassed ▸ List.take_prefix N _, fun hall hnodup => ?_⟩
  rw [hpassed, List.take_of_length_le]
  by_contra hlt
  -- the chunk that is missing has arrived
  have hk : N < (C.filter (onStream s)).length := not_le.mp hlt
  have hmem : (C.filter (onStream s))[N] ∈ C := (List.mem_filter.mp (List.getElem_mem hk)).1
  have hsent := hall _ hmem
  rw [← h.sent] at hsent
  obtain ⟨x, hx, heq⟩ := List.mem_map.mp hsent
  obtain ⟨hordered, hid⟩ := onStream_ordered (List.of_mem_filter (List.getElem_mem hk))
  cases x with
  | unordered c' =>
    have hc' : c'.1 = (C.filter (onStream s))[N] := heq
    exact absurd (c'.2.symm.trans (hc' ▸ hordered)) (by decide)
  | ordered s' k =>
    have hs' : s' = s := ((senderOf C hC).streamId s' k).symm.trans
      ((congrArg DataChunk.usStreamId heq).trans hid)
    subst hs'
    have hk' := h.placed s' k hx
    have hget : (C.filter (onStream s'))[k] = (C.filter (onStream s'))[N] := by
      have hchunk : (C.filter (onStream s'))[k]?.getD ⟨0, 0, s', k % 2 ^ 16, false⟩ =
          (C.filter (onStream s'))[N] := heq
      rwa [List.getElem?_eq_getElem hk', Option.getD_some] at hchunk
    obtain rfl : k = N := (List.Nodup.getElem_inj_iff (hnodup.filter _)).mp hget
    exact hN.missing hx

/-- **Ordered delivery over a network that loses, duplicates and reorders packets**, on reliable streams
with at most 2^15 ordered chunks each: the chunks of a stream that have been passed to the upper layer
are the first ones that were sent on it, in that order, and all of them once everything is received;
unordered chunks are passed on as they are received, each of them once. -/
theorem association_in_order (cfg : SendConfig) (hcfg : cfg.eUseNonRenegSacks = false)
    (hrel : ∀ i, cfg.unreliable i = false) (a : Association) (ha : a.Opened)
    (es : List AssociationEvent) (hfits : ∀ e ∈ es, e.Fits cfg)
    (hcount : (es.map AssociationEvent.sends).sum < 2 ^ 32 - 1) (hroom : a.Roomy cfg es) :
    ∃ b, a.run cfg es = some b ∧ (FewChunks b.chunks a.receiver.iNumInStreams →
      (∀ s, b.receiver.passed.filter (onStream s) <+: b.chunks.filter (onStream s)) ∧
      b.receiver.passed.filter DataChunk.unordered = b.receiver.streamed.filter DataChunk.unordered ∧
      ((∀ c ∈ b.chunks, c ∈ b.receiver.streamed) →
        ∀ s, b.receiver.passed.filter (onStream s) = b.chunks.filter (onStream s))) := by
  have hcount' : a.chunks.length + (es.map AssociationEvent.sends).sum < 2 ^ 32 - 1 := by
    rwa [ha.chunks, List.length_nil, Nat.zero_add]
  obtain ⟨b, hb, hsafe⟩ := Association.run_safe hcfg hrel ha.safe es hfits hcount' hroom
  refine ⟨b, hb, fun hfew => ?_⟩
  have hnumbered : Numbered a := by
    refine ⟨fun s k c hc => ?_, fun s => ?_⟩
    · rw [ha.chunks] at hc
      exact absurd hc.symm (by simp)
    · simp [ha.seqNums, ha.chunks]
  have hC := (hnumbered.run hb).1.seqNums
  obtain ⟨w, n, nr, hr⟩ := ha.receiver
  have hnum : a.receiver.iNumInStreams = n := by rw [hr]; rfl
  have hstart : InOrder b.chunks hC w n [] a.receiver := by
    rw [hr]
    exact ⟨StreamsInv.init, rfl, fun s k hsk => absurd hsk List.not_mem_nil⟩
  obtain ⟨xs, h⟩ := InOrder.run hcfg hrel (hnum ▸ hfew) es ha.safe hnumbered hstart hfits hcount' hroom hb
    (List.prefix_refl _)
  have hnodup : b.chunks.Nodup := by
    refine List.nodup_iff_injective_get.mpr fun i j hij => Fin.ext ?_
    have hi := hsafe.numbered i _ (List.getElem?_eq_getElem i.2)
    have hj := hsafe.numbered j _ (List.getElem?_eq_getElem j.2)
    have hget : b.chunks[i.1] = b.chunks[j.1] := hij
    rw [hget] at hi
    omega
  refine ⟨fun s => (h.passed s).1, ?_, fun hall s => (h.passed s).2 hall hnodup⟩
  have hunordered : b.receiver.passed.filter DataChunk.unordered = xs.filterMap Arrival.unordered? :=
    h.streams.unordered
  rw [hunordered, ← h.sent]
  clear h hunordered
  induction xs with
  | nil => rfl
  | cons x xs ih =>
    rw [List.map_cons, List.filter_cons, List.filterMap_cons, ih]
    cases x with
    | ordered s k =>
      have hfalse : ((senderOf b.chunks hC).sent (.ordered s k)).unordered = false :=
        (senderOf b.chunks hC).ordered s k
      rw [hfalse]
      rfl
    | unordered c =>
      have htrue : ((senderOf b.chunks hC).sent (.unordered c)).unordered = true := c.2
      rw [htrue]
      rfl

/-- The second chunk arrives first and waits for the first one. -/
theorem association_in_order_reordered : ∃ b, opened.run reliableDest reordered = some b ∧
    b.receiver.passed.filter (onStream 0) = b.chunks.filter (onStream 0) := by
  obtain ⟨b, hb, hin⟩ := association_in_order reliableDest rfl (fun _ => rfl)
    opened opened_opened reordered (by simp [reordered, AssociationEvent.Fits, reliableDest, oneDest])
    (by decide) reordered_roomy
  obtain rfl := Option.some.inj hb
  have hall := (hin ⟨by decide, fun s => ?_⟩).2.2 (by decide)
  · exact ⟨_, rfl, hall 0⟩
  · exact (List.length_filter_le _ _).trans (by decide)

end Ns2.Sctp
