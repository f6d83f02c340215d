import Ns2.Aodv.LoopFree
import Ns2.Lib.Run

/-!
# The assertions of AODV

The code asserts here and there that a route is up exactly when it has a hop count, and that the
sequence number of a route that is up is even.

* `RtEntry.Sound`, `AllSound` — these hold of an entry, of a table.
* `Agent.Fit`, `Message.Fit` — the invariant of the agents, and of the messages in flight.
* `sendRequest_fit`, `recvRequest_fit`, … — one lemma for each function.
* `takeReply_iff`, `local_rt_repair_iff` — the two writes that can go wrong.
* `recvErrorAsserts`, … — the assertions of each function, where the code has them.
* `Event.Spares` — no local repair of a route that is up, no route of 255 hops is taken.
* `sound_iff_spares` — entries are sound and no assertion fails exactly in the runs that meet it.
-/

namespace Ns2.Aodv

/-! ## Entries -/

/-- A route is up exactly when it has a hop count, and then its sequence number is even. -/
structure RtEntry.Sound (e : RtEntry) : Prop where
  up_iff : e.rt_flags = .up ↔ e.rt_hops ≠ INFINITY2
  even : e.rt_flags = .up → e.rt_seqno % 2 = 0

/-- The fields that matter. -/
def RtEntry.status (e : RtEntry) : RtFlags × ℕ × ℕ := (e.rt_flags, e.rt_hops, e.rt_seqno)

/-- All entries are sound. -/
def AllSound (t : Rtable) : Prop := ∀ e ∈ t, e.Sound

section Entries

variable {t : Rtable} {k : ℤ} {e e' : RtEntry} {f : RtEntry → RtEntry}

theorem sound_new (id : ℤ) : (RtEntry.new id).Sound :=
  ⟨by simp [RtEntry.new], fun h => absurd h (by simp [RtEntry.new])⟩

theorem sound_congr (h : e'.status = e.status) : e'.Sound ↔ e.Sound := by
  obtain ⟨h1, h2⟩ := Prod.mk.inj h
  obtain ⟨h2, h3⟩ := Prod.mk.inj h2
  constructor
  · exact fun hs => ⟨h1 ▸ h2 ▸ hs.up_iff, h1 ▸ h3 ▸ hs.even⟩
  · exact fun hs => ⟨h1.symm ▸ h2.symm ▸ hs.up_iff, h1.symm ▸ h3.symm ▸ hs.even⟩

/-- A route that is taken down, with any sequence number. -/
theorem RtEntry.Sound.rt_down (h : e.Sound) (s : ℕ) : { e with rt_seqno := s }.rt_down.Sound := by
  unfold RtEntry.rt_down
  split_ifs with hdown
  · have hhops : e.rt_hops = INFINITY2 := by
      by_contra hne
      exact absurd ((h.up_iff.mpr hne).symm.trans hdown) (by decide)
    refine ⟨iff_of_false ?_ (not_not.mpr hhops), fun hup => ?_⟩
    · exact fun hup => absurd (hup.symm.trans hdown) (by decide)
    · exact absurd (hup.symm.trans hdown) (by decide)
  · exact ⟨by simp, fun hup => absurd hup (by simp)⟩

/-- A route that is taken up is sound exactly when it has a hop count. -/
theorem sound_of_up (hup : e.rt_flags = .up) (heven : e.rt_seqno % 2 = 0) :
    e.Sound ↔ e.rt_hops ≠ INFINITY2 :=
  ⟨fun h => h.up_iff.mp hup, fun h => ⟨iff_of_true hup h, fun _ => heven⟩⟩

theorem AllSound.lookup (h : AllSound t) (he : t.rt_lookup k = some e) : e.Sound :=
  h e (List.mem_of_find?_eq_some he)

theorem AllSound.ensure (h : AllSound t) : AllSound (t.ensure k) := by
  unfold Rtable.ensure
  cases t.rt_lookup k with
  | some e => exact h
  | none =>
    intro e he
    rcases List.mem_cons.mp he with rfl | he
    · exact sound_new k
    · exact h e he

theorem AllSound.setAt (h : AllSound t) (hf : ∀ e ∈ t, e.rt_dst = k → e.Sound → (f e).Sound) :
    AllSound (t.setAt k f) := by
  intro e he
  obtain ⟨e, hmem, rfl⟩ := List.mem_map.mp he
  split_ifs with hk
  · exact hf e hmem hk (h e hmem)
  · exact h e hmem

/-- Other fields do not matter. -/
theorem allSound_setAt (hf : ∀ e, (f e).status = e.status) : AllSound (t.setAt k f) ↔ AllSound t := by
  constructor
  · intro h e he
    have hmem := h _ (List.mem_map_of_mem he)
    split_ifs at hmem
    · exact (sound_congr (hf e)).mp hmem
    · exact hmem
  · exact fun h => h.setAt fun e _ _ he => (sound_congr (hf e)).mpr he

theorem nodup_ensure (h : (t.map RtEntry.rt_dst).Nodup) : ((t.ensure k).map RtEntry.rt_dst).Nodup := by
  unfold Rtable.ensure
  cases hk : t.rt_lookup k with
  | some e => exact h
  | none =>
    rw [List.map_cons, List.nodup_cons]
    refine ⟨fun hmem => ?_, h⟩
    obtain ⟨e, he, hdst⟩ := List.mem_map.mp hmem
    exact List.find?_eq_none.mp hk e he (decide_eq_true hdst)

theorem nodup_setAt (h : (t.map RtEntry.rt_dst).Nodup) (hf : ∀ e, (f e).rt_dst = e.rt_dst) :
    ((t.setAt k f).map RtEntry.rt_dst).Nodup := by
  unfold Rtable.setAt
  rw [map_rt_dst fun e => by split_ifs; exacts [hf e, rfl]]
  exact h

/-- The entry of a destination is the one that is found. -/
theorem eq_of_lookup (h : (t.map RtEntry.rt_dst).Nodup) (he : t.rt_lookup k = some e) (hmem : e' ∈ t)
    (hk : e'.rt_dst = k) : e' = e :=
  List.inj_on_of_nodup_map h hmem (List.mem_of_find?_eq_some he) (hk.trans (rt_dst_of_lookup he).symm)

end Entries

/-! ## Agents and messages -/

/-- What holds of the messages in flight: even sequence numbers, and a request has no more hops than
the diameter of the network. -/
def Message.Fit : Message → Prop
  | .rreq rq => rq.rq_src_seqno % 2 = 0 ∧ 1 ≤ rq.ttl_ ∧ rq.rq_hop_count + rq.ttl_ ≤ NETWORK_DIAMETER + 1
  | .rrep rp => rp.rp_dst_seqno % 2 = 0
  | .rerr _ => True

namespace Agent

/-- The invariant of an agent. -/
structure Fit (a : Agent) : Prop where
  even : a.seqno % 2 = 0
  nodup : (a.rtable.map RtEntry.rt_dst).Nodup
  sound : AllSound a.rtable

/-- The agent keeps the invariant, and so do the messages it sends. -/
def Fits (r : Agent × List Message) : Prop := r.1.Fit ∧ ∀ m ∈ r.2, m.Fit

variable {IP_BROADCAST : ℤ} {a : Agent} {dst k : ℤ} {p : Packet} {now : ℚ} {f : RtEntry → RtEntry}

theorem Fit.fits (h : a.Fit) : Fits (a, []) := ⟨h, fun _ hm => absurd hm List.not_mem_nil⟩

theorem Fit.ensure (h : a.Fit) (k : ℤ) : Fit { a with rtable := a.rtable.ensure k } :=
  ⟨h.even, nodup_ensure h.nodup, h.sound.ensure⟩

theorem Fit.setRt (h : a.Fit) (hdst : ∀ e, (f e).rt_dst = e.rt_dst)
    (hf : ∀ e ∈ a.rtable, e.rt_dst = k → e.Sound → (f e).Sound) : (a.setRt k f).Fit :=
  ⟨h.even, nodup_setAt h.nodup hdst, h.sound.setAt hf⟩

/-- A change that does not matter. -/
theorem Fit.setRt_status (h : a.Fit) (hdst : ∀ e, (f e).rt_dst = e.rt_dst)
    (hf : ∀ e, (f e).status = e.status) : (a.setRt k f).Fit :=
  h.setRt hdst fun e _ _ he => (sound_congr (hf e)).mpr he

/-! ## Packets -/

/-- Forwarding does not change what matters. -/
theorem forward_allSound : AllSound (a.forward dst p now).rtable ↔ AllSound a.rtable := by
  unfold forward
  split_ifs
  · rfl
  · exact allSound_setAt fun _ => rfl

theorem Fit.forward (h : a.Fit) : (a.forward dst p now).Fit := by
  unfold Agent.forward
  split_ifs
  · exact h
  · exact h.setRt_status (fun _ => rfl) fun _ => rfl

theorem Fit.sendBuffered (h : a.Fit) : (a.sendBuffered dst now).Fit := by
  have hqueue : Fit { a with rqueue := (a.rqueue.dequeAll dst now).2 } := ⟨h.even, h.nodup, h.sound⟩
  exact List.foldlRecOn (motive := Fit) _ _ hqueue fun a ha p _ => ha.forward

theorem Fit.dropBuffered (h : a.Fit) : (a.dropBuffered dst now).Fit := ⟨h.even, h.nodup, h.sound⟩

/-- Sending packets from the buffer does not change what matters. -/
theorem sendBuffered_allSound : AllSound (a.sendBuffered dst now).rtable ↔ AllSound a.rtable := by
  unfold sendBuffered
  exact List.foldlRecOn
    (motive := fun b : Agent => AllSound b.rtable ↔ AllSound a.rtable) _ _ Iff.rfl
    fun b hb p _ => forward_allSound.trans hb

/-- Nor does a request. -/
theorem sendRequest_allSound : AllSound (a.sendRequest dst now).1.rtable ↔ AllSound a.rtable := by
  unfold sendRequest
  cases a.rt_lookup dst with
  | none => rfl
  | some rt =>
    dsimp only
    split_ifs
    · rfl
    · exact allSound_setAt fun _ => rfl
    · exact allSound_setAt fun _ => rfl

variable (dst now) in
theorem sendRequest_fit (h : a.Fit) : Fits (a.sendRequest dst now) := by
  unfold sendRequest
  cases he : a.rt_lookup dst with
  | none => exact h.fits
  | some rt =>
    dsimp only
    split_ifs
    · exact h.fits
    · refine Fit.fits (Fit.dropBuffered (h.setRt_status ?_ ?_))
      · exact fun _ => rfl
      · exact fun _ => rfl
    · have hset : (a.setRt dst (requested now)).Fit := h.setRt_status (fun _ => rfl) fun _ => rfl
      have heven := h.even
      refine ⟨⟨?_, hset.nodup, hset.sound⟩, fun m hm => ?_⟩
      · dsimp only
        omega
      · obtain rfl := List.mem_singleton.mp hm
        obtain ⟨hlow, hhigh⟩ := requestTtl_bounds
          (max rt.rt_req_last_ttl rt.rt_last_hop_count) (le_max_of_le_right (Int.natCast_nonneg _))
        refine ⟨?_, hlow, ?_⟩
        · dsimp only
          omega
        · dsimp only
          push_cast
          omega

theorem rt_resolve_fit (h : a.Fit) : Fits (a.rt_resolve p now) := by
  have hensure := h.ensure p.daddr
  unfold rt_resolve
  dsimp only
  cases rt_lookup { a with rtable := a.rtable.ensure p.daddr } p.daddr with
  | none => exact hensure.fits
  | some rt =>
    dsimp only
    split_ifs
    · exact hensure.forward.fits
    · exact sendRequest_fit _ _ ⟨hensure.even, hensure.nodup, hensure.sound⟩
    · exact Fit.fits ⟨hensure.even, hensure.nodup, hensure.sound⟩
    · refine ⟨hensure, fun m hm => ?_⟩
      obtain rfl := List.mem_singleton.mp hm
      trivial

theorem recv_fit (h : a.Fit) : Fits (a.recv IP_BROADCAST p now) := by
  unfold recv
  split_ifs
  · exact h.fits
  · exact rt_resolve_fit h
  · exact h.fits
  · exact h.fits
  · exact h.fits
  · exact rt_resolve_fit h

/-! ## Links and timers -/

theorem linkFailed_sound {id : ℤ} {e : RtEntry} (h : e.Sound) : (linkFailed id e).Sound := by
  unfold linkFailed
  split_ifs
  · refine (sound_congr ?_).mpr (h.rt_down (e.rt_seqno + 1))
    rfl
  · refine (sound_congr ?_).mpr h
    rfl

theorem handle_link_failure_fit {id : ℤ} {r : Agent × List Message} (h : a.Fit)
    (hr : a.handle_link_failure id = some r) : Fits r := by
  have hmap : Fit { a with rtable := a.rtable.map (linkFailed id) } := by
    refine ⟨h.even, ?_, fun e he => ?_⟩
    · rw [map_rt_dst rt_dst_linkFailed]
      exact h.nodup
    · obtain ⟨e, hmem, rfl⟩ := List.mem_map.mp he
      exact linkFailed_sound (h.sound e hmem)
  unfold handle_link_failure at hr
  dsimp only at hr
  split_ifs at hr with hlen hlost
  · obtain rfl := Option.some.inj hr
    exact hmap.fits
  · obtain rfl := Option.some.inj hr
    refine ⟨hmap, fun m hm => ?_⟩
    obtain rfl := List.mem_singleton.mp hm
    trivial

/-- **A local repair** leaves the entries sound exactly when the route is not up. -/
theorem local_rt_repair_iff {rt : RtEntry} (h : a.Fit) (he : a.rt_lookup dst = some rt) :
    AllSound (a.local_rt_repair dst p now).1.rtable ↔ rt.rt_flags ≠ .up := by
  have hstatus : AllSound (a.local_rt_repair dst p now).1.rtable ↔
      AllSound (a.rtable.setAt dst fun rt => { rt with rt_flags := .inRepair }) :=
    sendRequest_allSound
  rw [hstatus]
  have hmem := List.mem_of_find?_eq_some he
  constructor
  · intro hall hup
    have hrep := hall _ (List.mem_map_of_mem hmem)
    rw [if_pos (rt_dst_of_lookup he)] at hrep
    have hhops := (h.sound rt hmem).up_iff.mp hup
    exact absurd (hrep.up_iff.mpr hhops) (by simp)
  · intro hup
    refine h.sound.setAt fun e hein hdst hsound => ?_
    obtain rfl := eq_of_lookup h.nodup he hein hdst
    exact ⟨iff_of_false (by simp) fun hhops => hup (hsound.up_iff.mpr hhops),
      fun hrep => absurd hrep (by simp)⟩

theorem local_rt_repair_fit {rt : RtEntry} (h : a.Fit) (he : a.rt_lookup dst = some rt)
    (hup : rt.rt_flags ≠ .up) : Fits (a.local_rt_repair dst p now) := by
  have hset : Fit ({ a with rqueue := a.rqueue.enque p now }.setRt dst
      fun rt => { rt with rt_flags := .inRepair }) := by
    refine ⟨h.even, nodup_setAt h.nodup fun _ => rfl, h.sound.setAt fun e hein hdst hsound => ?_⟩
    obtain rfl := eq_of_lookup h.nodup he hein hdst
    exact ⟨iff_of_false (by simp) fun hhops => hup (hsound.up_iff.mpr hhops),
      fun hrep => absurd hrep (by simp)⟩
  obtain ⟨h1, h2⟩ := sendRequest_fit dst now hset
  exact ⟨⟨h1.even, h1.nodup, h1.sound⟩, h2⟩

theorem localRepairTimer_fit (h : a.Fit) : (a.localRepairTimer dst).Fit := by
  have hset : Fit (a.setRt dst fun rt => if rt.rt_flags ≠ .up then rt.rt_down else rt) := by
    refine h.setRt (fun e => ?_) fun e _ _ he => ?_
    · split_ifs
      · exact RtEntry.rt_dst_rt_down
      · rfl
    · split_ifs
      · exact he.rt_down e.rt_seqno
      · exact he
  exact ⟨hset.even, hset.nodup, hset.sound⟩

theorem purgeEntry_fit {r : Agent × List Message} (h : Fits r) (dst : ℤ) :
    Fits (purgeEntry now r dst) := by
  obtain ⟨h1, h2⟩ := h
  unfold purgeEntry
  cases r.1.rt_lookup dst with
  | none => exact ⟨h1, h2⟩
  | some rt =>
    dsimp only
    split_ifs
    · refine ⟨Fit.setRt h1.dropBuffered (fun e => ?_) fun e _ _ he => he.rt_down _, h2⟩
      exact RtEntry.rt_dst_rt_down
    · exact ⟨h1.sendBuffered, h2⟩
    · obtain ⟨h3, h4⟩ := sendRequest_fit dst now h1
      exact ⟨h3, fun m hm => (List.mem_append.mp hm).elim (h2 m) (h4 m)⟩
    · exact ⟨h1, h2⟩

theorem rt_purge_fit (h : a.Fit) : Fits (a.rt_purge now) :=
  List.foldlRecOn (motive := Fits) _ _ h.fits fun _ hr dst _ => purgeEntry_fit hr dst

/-! ## Messages received -/

variable {rq : Request} {rp : Reply}

/-- The reverse route is taken with an even sequence number and a hop count. -/
theorem reverseRoute_fit (h : a.Fit) (heven : rq.rq_src_seqno % 2 = 0)
    (hhops : rq.rq_hop_count ≠ INFINITY2) : (a.reverseRoute rq now).Fit := by
  have hensure : Fit { a with
      bihead := (rq.rq_src, rq.rq_bcast_id, now + BCAST_ID_SAVE) :: a.bihead
      rtable := (a.rtable.ensure rq.rq_src).setAt rq.rq_src fun rt =>
        { rt with rt_expire := max rt.rt_expire (now + REV_ROUTE_LIFE) } } := by
    refine ⟨h.even, nodup_setAt (nodup_ensure h.nodup) fun _ => rfl, ?_⟩
    refine (allSound_setAt ?_).mpr h.sound.ensure
    exact fun _ => rfl
  unfold reverseRoute
  dsimp only
  split
  · exact hensure
  · split_ifs
    · refine (hensure.setRt (fun e => ?_) fun e _ _ _ => ?_).sendBuffered
      · split_ifs <;> rfl
      · split_ifs <;> exact (sound_of_up rfl heven).mpr hhops
    · exact hensure

theorem pc_insert_status (n : ℤ) (e : RtEntry) : (e.pc_insert n).status = e.status := by
  unfold RtEntry.pc_insert
  split_ifs <;> rfl

theorem forwardRequest_fit (rt : Option RtEntry) (heven : rq.rq_src_seqno % 2 = 0)
    (httl : 0 ≤ rq.ttl_) (hhops : rq.rq_hop_count + rq.ttl_ ≤ NETWORK_DIAMETER) :
    ∀ m ∈ a.forwardRequest rq rt, m.Fit := by
  unfold forwardRequest
  split_ifs with hzero
  · exact fun m hm => absurd hm List.not_mem_nil
  · intro m hm
    obtain rfl := List.mem_singleton.mp hm
    have hdiam : NETWORK_DIAMETER = 30 := rfl
    have hbyte : u8 (rq.rq_hop_count + 1) = rq.rq_hop_count + 1 := Nat.mod_eq_of_lt (by omega)
    refine ⟨heven, by dsimp only; omega, ?_⟩
    dsimp only
    rw [hbyte]
    push_cast
    omega

theorem answer_fit (h : a.Fit) (heven : rq.rq_src_seqno % 2 = 0) (httl : 0 ≤ rq.ttl_)
    (hhops : rq.rq_hop_count + rq.ttl_ ≤ NETWORK_DIAMETER) : Fits (a.answer rq now) := by
  unfold answer
  split_ifs
  · refine ⟨⟨(nextSeqno_even _ _).1, h.nodup, h.sound⟩, fun m hm => ?_⟩
    obtain rfl := List.mem_singleton.mp hm
    exact (nextSeqno_even _ _).1
  · cases he : a.rt_lookup rq.rq_dst with
    | none => exact ⟨h, forwardRequest_fit none heven httl hhops⟩
    | some rt =>
      dsimp only
      split_ifs with hfresh
      · refine ⟨?_, fun m hm => ?_⟩
        · refine Fit.setRt_status (h.setRt_status ?_ ?_) ?_ ?_
          · exact fun e => congrArg Prod.fst (pc_insert_key _ e)
          · exact pc_insert_status _
          · exact fun e => congrArg Prod.fst (pc_insert_key _ e)
          · exact pc_insert_status _
        · obtain rfl := List.mem_singleton.mp hm
          have hsound := h.sound.lookup he
          exact hsound.even (hsound.up_iff.mpr hfresh.1)
      · exact ⟨h, forwardRequest_fit (some rt) heven httl hhops⟩

theorem recvRequest_fit (h : a.Fit) (heven : rq.rq_src_seqno % 2 = 0) (httl : 0 ≤ rq.ttl_)
    (hhops : rq.rq_hop_count + rq.ttl_ ≤ NETWORK_DIAMETER) : Fits (a.recvRequest rq now) := by
  have hdiam : NETWORK_DIAMETER = 30 := rfl
  have hinf : INFINITY2 = 255 := rfl
  unfold recvRequest
  split_ifs
  · exact h.fits
  · exact h.fits
  · exact answer_fit (reverseRoute_fit h heven (by omega)) heven httl hhops

/-- The entry with the route of a reply. -/
theorem repliedEntry_sound {mine : Bool} {e : RtEntry} (heven : rp.rp_dst_seqno % 2 = 0) :
    (repliedEntry mine rp now e).Sound ↔ rp.rp_hop_count ≠ INFINITY2 := by
  have hkey : (repliedEntry mine rp now e).key = _ := repliedEntry_key mine e
  simp only [RtEntry.key, Prod.mk.injEq] at hkey
  obtain ⟨-, hs, hh, hf, -⟩ := hkey
  rw [sound_of_up hf (hs ▸ heven), hh]

/-- **The route of a reply** leaves the entries sound exactly when it has a hop count. -/
theorem takeReply_iff {rt : RtEntry} (h : a.Fit) (heven : rp.rp_dst_seqno % 2 = 0)
    (he : a.rt_lookup rp.rp_dst = some rt) :
    AllSound (a.takeReply rp now).rtable ↔ rp.rp_hop_count ≠ INFINITY2 := by
  have hstatus : AllSound (a.takeReply rp now).rtable ↔ AllSound
      (a.rtable.setAt rp.rp_dst (repliedEntry (decide (rp.daddr = a.index)) rp now)) := by
    unfold takeReply
    dsimp only
    split_ifs
    · exact sendBuffered_allSound
    · exact Iff.rfl
  rw [hstatus]
  constructor
  · intro hall
    have hrep := hall _ (List.mem_map_of_mem (List.mem_of_find?_eq_some he))
    rw [if_pos (rt_dst_of_lookup he)] at hrep
    exact (repliedEntry_sound heven).mp hrep
  · exact fun hhops => h.sound.setAt fun e _ _ _ => (repliedEntry_sound heven).mpr hhops

theorem takeReply_fit (h : a.Fit) (heven : rp.rp_dst_seqno % 2 = 0)
    (hhops : rp.rp_hop_count ≠ INFINITY2) : (a.takeReply rp now).Fit := by
  have hset : (a.setRt rp.rp_dst (repliedEntry (decide (rp.daddr = a.index)) rp now)).Fit :=
    h.setRt (fun e => congrArg Prod.fst (repliedEntry_key _ e))
      fun _ _ _ _ => (repliedEntry_sound heven).mpr hhops
  unfold takeReply
  dsimp only
  rw [if_pos hhops]
  exact hset.sendBuffered

/-- Forwarding a reply does not change what matters. -/
theorem forwardReply_allSound : AllSound (a.forwardReply rp now).1.rtable ↔ AllSound a.rtable := by
  unfold forwardReply
  cases a.rt_lookup rp.daddr with
  | none => rfl
  | some rt0 =>
    dsimp only
    split_ifs
    · rfl
    · exact allSound_setAt (pc_insert_status _)
    · refine (allSound_setAt ?_).trans (allSound_setAt (pc_insert_status _))
      exact fun _ => rfl

theorem forwardReply_fit (h : a.Fit) (heven : rp.rp_dst_seqno % 2 = 0) :
    Fits (a.forwardReply rp now) := by
  unfold forwardReply
  cases a.rt_lookup rp.daddr with
  | none => exact h.fits
  | some rt0 =>
    have hset : (a.setRt rp.rp_dst (RtEntry.pc_insert rt0.rt_nexthop)).Fit :=
      h.setRt_status (fun e => congrArg Prod.fst (pc_insert_key _ e)) (pc_insert_status _)
    dsimp only
    split_ifs
    · exact h.fits
    · exact hset.fits
    · refine ⟨hset.setRt_status (fun _ => rfl) fun _ => rfl, fun m hm => ?_⟩
      obtain rfl := List.mem_singleton.mp hm
      exact heven

/-- A reply whose route is taken has a hop count. -/
def ReplySpares (a : Agent) (rp : Reply) : Prop :=
  ∀ rt, (a.rtable.ensure rp.rp_dst).rt_lookup rp.rp_dst = some rt →
    rt.fresher rp.rp_dst_seqno rp.rp_hop_count = true → rp.rp_hop_count ≠ INFINITY2

theorem recvReply_iff (h : a.Fit) (heven : rp.rp_dst_seqno % 2 = 0) :
    AllSound (a.recvReply rp now).1.rtable ↔ a.ReplySpares rp := by
  have hensure := h.ensure rp.rp_dst
  unfold recvReply ReplySpares
  dsimp only
  cases he : rt_lookup { a with rtable := a.rtable.ensure rp.rp_dst } rp.rp_dst with
  | none =>
    have he' : (a.rtable.ensure rp.rp_dst).rt_lookup rp.rp_dst = none := he
    rw [he']
    exact iff_of_true hensure.sound fun rt hrt => absurd hrt (by simp)
  | some rt =>
    have he' : (a.rtable.ensure rp.rp_dst).rt_lookup rp.rp_dst = some rt := he
    rw [he']
    simp only [Option.some.injEq, forall_eq']
    split_ifs with hfresh hmine
    · rw [takeReply_iff hensure heven he]
      simp [hfresh]
    · rw [forwardReply_allSound, takeReply_iff hensure heven he]
      simp [hfresh]
    · exact iff_of_true hensure.sound fun hf => absurd hf hfresh

theorem recvReply_fit (h : a.Fit) (heven : rp.rp_dst_seqno % 2 = 0) (hspares : a.ReplySpares rp) :
    Fits (a.recvReply rp now) := by
  have hensure := h.ensure rp.rp_dst
  unfold recvReply
  dsimp only
  cases he : rt_lookup { a with rtable := a.rtable.ensure rp.rp_dst } rp.rp_dst with
  | none => exact hensure.fits
  | some rt =>
    dsimp only
    split_ifs with hfresh hmine
    · exact (takeReply_fit hensure heven (hspares rt he hfresh)).fits
    · exact forwardReply_fit (takeReply_fit hensure heven (hspares rt he hfresh)) heven
    · exact hensure.fits

theorem errorEntry_fit {saddr : ℤ} {r : Agent × List (ℤ × ℕ)} (h : r.1.Fit) (x : ℤ × ℕ) :
    (errorEntry saddr r x).1.Fit := by
  unfold errorEntry
  cases r.1.rt_lookup x.1 with
  | none => exact h
  | some rt =>
    dsimp only
    by_cases hmatch : rt.rt_hops ≠ INFINITY2 ∧ rt.rt_nexthop = saddr ∧ rt.rt_seqno ≤ x.2
    · rw [if_pos hmatch]
      refine h.setRt (fun e => ?_) fun e _ _ he => (sound_congr ?_).mpr (he.rt_down x.2)
      · exact RtEntry.rt_dst_rt_down
      · rfl
    · rw [if_neg hmatch]
      exact h

theorem recvError_fit {re : RouteError} (h : a.Fit) : Fits (a.recvError re) := by
  have hfold : ∀ (l : List (ℤ × ℕ)) (r : Agent × List (ℤ × ℕ)), r.1.Fit →
      (l.foldl (errorEntry re.saddr) r).1.Fit := fun l r hr =>
    List.foldlRecOn (motive := fun r : Agent × List (ℤ × ℕ) => r.1.Fit) l _ hr
      fun _ hr x _ => errorEntry_fit hr x
  refine ⟨hfold _ _ h, fun m hm => ?_⟩
  unfold recvError at hm
  dsimp only at hm
  split_ifs at hm
  · exact absurd hm List.not_mem_nil
  · obtain rfl := List.mem_singleton.mp hm
    trivial

/-! ## The assertions -/

/-- A packet from the buffer is forwarded along a route that is up and has a hop count. -/
def sendBufferedAsserts (a : Agent) (dst : ℤ) (now : ℚ) : Prop :=
  Run.AllSteps (fun a p => a.forward dst p now)
    (fun a _ => ∀ rt, a.rt_lookup dst = some rt → rt.rt_hops ≠ INFINITY2 ∧ rt.rt_flags = .up)
    { a with rqueue := (a.rqueue.dequeAll dst now).2 } (a.rqueue.dequeAll dst now).1

/-- `sendRequest`. -/
def sendRequestAsserts (a : Agent) (dst : ℤ) : Prop :=
  (∀ rt, a.rt_lookup dst = some rt → rt.rt_flags = .up → rt.rt_hops ≠ INFINITY2) ∧
    (a.seqno + 2) % 2 = 0

/-- `rt_resolve`, with `forward` and `sendRequest`. -/
def rt_resolveAsserts (a : Agent) (p : Packet) : Prop :=
  (∀ rt, (a.rtable.ensure p.daddr).rt_lookup p.daddr = some rt →
      (rt.rt_flags = .up → rt.rt_hops ≠ INFINITY2) ∧
      (rt.rt_flags ≠ .up → rt.rt_flags ≠ .inRepair → rt.rt_flags = .down)) ∧
    sendRequestAsserts { a with rtable := a.rtable.ensure p.daddr } p.daddr

/-- `handle_link_failure`. -/
def handle_link_failureAsserts (a : Agent) (id : ℤ) : Prop :=
  ∀ rt ∈ a.rtable, routesOver id rt = true → rt.rt_flags = .up ∧ rt.rt_seqno % 2 = 0

/-- `rt_ll_failed`, with `nb_delete`. -/
def rt_ll_failedAsserts (a : Agent) (p : Packet) (next_hop_ : ℤ) : Prop :=
  ∀ rt, a.rt_lookup p.daddr = some rt → ¬ rt.rt_hops < p.num_forwards →
    (a.seqno + 2) % 2 = 0 ∧ a.handle_link_failureAsserts next_hop_

/-- One entry of `rt_purge`. -/
def purgeAsserts (now : ℚ) (a : Agent) (dst : ℤ) : Prop :=
  (∀ rt, a.rt_lookup dst = some rt → rt.rt_flags = .up →
    rt.rt_hops ≠ INFINITY2 ∧ (rt.rt_seqno + 1) % 2 = 1 ∧ a.sendBufferedAsserts dst now) ∧
  a.sendRequestAsserts dst

/-- `rt_purge`. -/
def rt_purgeAsserts (a : Agent) (now : ℚ) : Prop :=
  Run.AllSteps (purgeEntry now) (fun r dst => r.1.purgeAsserts now dst) (a, [])
    (a.rtable.map RtEntry.rt_dst)

/-- The agent of `recvRequest` before it looks at the reverse route. -/
def heard (a : Agent) (rq : Request) (now : ℚ) : Agent :=
  { a with
    bihead := (rq.rq_src, rq.rq_bcast_id, now + BCAST_ID_SAVE) :: a.bihead
    rtable := (a.rtable.ensure rq.rq_src).setAt rq.rq_src fun rt =>
      { rt with rt_expire := max rt.rt_expire (now + REV_ROUTE_LIFE) } }

/-- The entry with the reverse route of a request. -/
def reverseEntry (rq : Request) (now : ℚ) (rt0 : RtEntry) : RtEntry :=
  let rt0 := rt0.rt_update rq.rq_src_seqno rq.rq_hop_count rq.saddr
    (max rt0.rt_expire (now + REV_ROUTE_LIFE))
  if 0 < rt0.rt_req_timeout then
    { rt0 with
      rt_req_cnt := 0, rt_req_timeout := 0, rt_req_last_ttl := rq.rq_hop_count
      rt_expire := now + ACTIVE_ROUTE_TIMEOUT }
  else rt0

/-- `recvRequest`: after the reverse route has been taken. -/
def recvRequestAsserts (a : Agent) (rq : Request) (now : ℚ) : Prop :=
  ∀ rt0, (a.heard rq now).rt_lookup rq.rq_src = some rt0 →
    rt0.fresher rq.rq_src_seqno rq.rq_hop_count = true →
    (reverseEntry rq now rt0).rt_flags = .up ∧
      ((a.heard rq now).setRt rq.rq_src (reverseEntry rq now)).sendBufferedAsserts rq.rq_src now

/-- `recvReply`: after the route has been taken, and for the route that the reply is forwarded along. -/
def recvReplyAsserts (a : Agent) (rp : Reply) (now : ℚ) : Prop :=
  let b : Agent := { a with rtable := a.rtable.ensure rp.rp_dst }
  ∀ rt, b.rt_lookup rp.rp_dst = some rt → rt.fresher rp.rp_dst_seqno rp.rp_hop_count = true →
    (rp.rp_hop_count ≠ INFINITY2 →
      (b.setRt rp.rp_dst
        (repliedEntry (decide (rp.daddr = b.index)) rp now)).sendBufferedAsserts rp.rp_dst now) ∧
    ∀ rt0, (b.takeReply rp now).rt_lookup rp.daddr = some rt0 →
      rt0.rt_hops ≠ INFINITY2 → rt0.rt_flags = .up

/-- `recvError`: for each destination. -/
def recvErrorAsserts (a : Agent) (re : RouteError) : Prop :=
  Run.AllSteps (errorEntry re.saddr)
    (fun r x => ∀ rt, r.1.rt_lookup x.1 = some rt →
      rt.rt_hops ≠ INFINITY2 ∧ rt.rt_nexthop = re.saddr ∧ rt.rt_seqno ≤ x.2 →
        rt.rt_flags = .up ∧ rt.rt_seqno % 2 = 0) (a, []) re.unreachable

/-- What is done with the reverse route. -/
theorem reverseRoute_eq (a : Agent) (rq : Request) (now : ℚ) :
    a.reverseRoute rq now =
      match (a.heard rq now).rt_lookup rq.rq_src with
      | none => a.heard rq now
      | some rt0 =>
        if rt0.fresher rq.rq_src_seqno rq.rq_hop_count then
          ((a.heard rq now).setRt rq.rq_src (reverseEntry rq now)).sendBuffered rq.rq_src now
        else a.heard rq now := rfl

/-! ## The assertions hold -/

/-- The entries found have hop counts exactly when they are up, and then even sequence numbers. -/
theorem Fit.lookup {rt : RtEntry} (h : a.Fit) (he : a.rt_lookup dst = some rt) : rt.Sound :=
  h.sound.lookup he

/-- The entry of a destination after an assignment. -/
theorem exists_of_lookup_setRt {rt : RtEntry} (hf : ∀ e, (f e).rt_dst = e.rt_dst)
    (h : (a.setRt dst f).rt_lookup dst = some rt) : ∃ e, a.rt_lookup dst = some e ∧ f e = rt := by
  have hmap : (a.rtable.setAt dst f).rt_lookup dst = some rt := h
  rw [rt_lookup_setAt hf, if_pos rfl] at hmap
  exact Option.map_eq_some_iff.mp hmap

theorem sendBufferedAsserts_of_up
    (h : ∀ rt, a.rt_lookup dst = some rt → rt.rt_hops ≠ INFINITY2 ∧ rt.rt_flags = .up) :
    a.sendBufferedAsserts dst now := by
  refine Run.allSteps_of_invariant
    (I := fun a : Agent => ∀ rt, a.rt_lookup dst = some rt →
      rt.rt_hops ≠ INFINITY2 ∧ rt.rt_flags = .up)
    (fun _ _ ha => ha) (fun b p hb rt hrt => ?_) _ _ h
  unfold Agent.forward at hrt
  split_ifs at hrt
  · exact hb rt hrt
  · obtain ⟨rt, he, rfl⟩ := exists_of_lookup_setRt (by exact fun _ => rfl) hrt
    exact hb rt he

theorem Fit.sendBufferedAsserts (h : a.Fit)
    (hup : ∀ rt, a.rt_lookup dst = some rt → rt.rt_flags = .up) : a.sendBufferedAsserts dst now :=
  sendBufferedAsserts_of_up fun rt hrt => ⟨(h.lookup hrt).up_iff.mp (hup rt hrt), hup rt hrt⟩

theorem Fit.sendRequestAsserts (h : a.Fit) : a.sendRequestAsserts dst :=
  ⟨fun _ hrt hup => (h.lookup hrt).up_iff.mp hup, by have := h.even; omega⟩

theorem Fit.rt_resolveAsserts (h : a.Fit) : a.rt_resolveAsserts p := by
  have hensure := h.ensure p.daddr
  refine ⟨fun rt hrt => ⟨(hensure.lookup hrt).up_iff.mp, fun h1 h2 => ?_⟩, hensure.sendRequestAsserts⟩
  cases hf : rt.rt_flags with
  | down => rfl
  | up => exact absurd hf h1
  | inRepair => exact absurd hf h2

theorem Fit.handle_link_failureAsserts (h : a.Fit) (id : ℤ) : a.handle_link_failureAsserts id := by
  intro rt hmem hover
  simp only [routesOver, decide_eq_true_eq] at hover
  have hsound := h.sound rt hmem
  exact ⟨hsound.up_iff.mpr hover.1, hsound.even (hsound.up_iff.mpr hover.1)⟩

theorem Fit.rt_ll_failedAsserts (h : a.Fit) (next_hop_ : ℤ) : a.rt_ll_failedAsserts p next_hop_ :=
  fun _ _ _ => ⟨by have := h.even; omega, h.handle_link_failureAsserts next_hop_⟩

theorem Fit.purgeAsserts (h : a.Fit) : a.purgeAsserts now dst := by
  refine ⟨fun rt hrt hup => ?_, h.sendRequestAsserts⟩
  have hsound := h.lookup hrt
  refine ⟨hsound.up_iff.mp hup, by have := hsound.even hup; omega, h.sendBufferedAsserts ?_⟩
  intro rt' hrt'
  obtain rfl := Option.some.inj (hrt.symm.trans hrt')
  exact hup

theorem Fit.rt_purgeAsserts (h : a.Fit) : a.rt_purgeAsserts now :=
  Run.allSteps_of_invariant (I := Fits) (fun _ _ hr => hr.1.purgeAsserts)
    (fun _ dst hr => purgeEntry_fit hr dst) _ _ h.fits

theorem Fit.heard (h : a.Fit) : (a.heard rq now).Fit := by
  refine ⟨h.even, nodup_setAt (nodup_ensure h.nodup) fun _ => rfl, ?_⟩
  refine (allSound_setAt ?_).mpr h.sound.ensure
  exact fun _ => rfl

variable (now rq) in
theorem reverseEntry_fields (e : RtEntry) :
    (reverseEntry rq now e).rt_dst = e.rt_dst ∧ (reverseEntry rq now e).rt_flags = .up ∧
      (reverseEntry rq now e).rt_hops = rq.rq_hop_count ∧
      (reverseEntry rq now e).rt_seqno = rq.rq_src_seqno := by
  unfold reverseEntry
  dsimp only
  split_ifs <;> exact ⟨rfl, rfl, rfl, rfl⟩

theorem Fit.recvRequestAsserts (hhops : rq.rq_hop_count ≠ INFINITY2) : a.recvRequestAsserts rq now := by
  intro rt0 _ _
  obtain ⟨-, hup, -, -⟩ := reverseEntry_fields now rq rt0
  refine ⟨hup, sendBufferedAsserts_of_up fun rt hrt => ?_⟩
  obtain ⟨e, -, rfl⟩ := exists_of_lookup_setRt (fun e => (reverseEntry_fields now rq e).1) hrt
  obtain ⟨-, hup, hh, -⟩ := reverseEntry_fields now rq e
  exact ⟨hh ▸ hhops, hup⟩

theorem Fit.recvReplyAsserts (h : a.Fit) (heven : rp.rp_dst_seqno % 2 = 0)
    (hspares : a.ReplySpares rp) : a.recvReplyAsserts rp now := by
  intro rt hrt hfresh
  have hhops := hspares rt hrt hfresh
  have hfit : (takeReply { a with rtable := a.rtable.ensure rp.rp_dst } rp now).Fit :=
    takeReply_fit (h.ensure rp.rp_dst) heven hhops
  refine ⟨fun _ => sendBufferedAsserts_of_up fun rt' hrt' => ?_, fun rt0 hrt0 => ?_⟩
  · obtain ⟨e, -, rfl⟩ :=
      exists_of_lookup_setRt (fun e => congrArg Prod.fst (repliedEntry_key _ e)) hrt'
    have hke : (repliedEntry (decide (rp.daddr = a.index)) rp now e).key = _ := repliedEntry_key _ e
    simp only [RtEntry.key, Prod.mk.injEq] at hke
    obtain ⟨-, -, hh, hf, -⟩ := hke
    exact ⟨hh ▸ hhops, hf⟩
  · exact (hfit.lookup hrt0).up_iff.mpr

theorem Fit.recvErrorAsserts {re : RouteError} (h : a.Fit) : a.recvErrorAsserts re := by
  refine Run.allSteps_of_invariant (I := fun r : Agent × List (ℤ × ℕ) => r.1.Fit)
    (fun r x hr rt hrt hmatch => ?_) (fun r x hr => errorEntry_fit hr x) _ _ h
  have hsound := hr.lookup hrt
  exact ⟨hsound.up_iff.mpr hmatch.1, hsound.even (hsound.up_iff.mpr hmatch.1)⟩

end Agent

/-! ## Networks -/

section Networks

variable {IP_BROADCAST : ℤ} {w w' : World} {u : ℤ} {now : ℚ} {ev : Event} {a : Agent}

/-- The assertions of the functions that run at an event. -/
def Event.Asserts (IP_BROADCAST : ℤ) (a : Agent) (now : ℚ) : Event → Prop
  | .message (.rreq rq) => a.recvRequestAsserts { rq with ttl_ := rq.ttl_ - 1 } now
  | .message (.rrep rp) => a.recvReplyAsserts { rp with ttl_ := rp.ttl_ - 1 } now
  | .message (.rerr re) => a.recvErrorAsserts re
  | .packet p => a.rt_resolveAsserts p
  | .linkFailure p next_hop_ => p.daddr ≠ IP_BROADCAST → a.rt_ll_failedAsserts p next_hop_
  | .purge => a.rt_purgeAsserts now
  | .localRepair _ | .purgeIds => True

/-- No local repair of a route that is up begins, and no route of 255 hops is taken from a reply. -/
def Event.Spares (IP_BROADCAST : ℤ) (a : Agent) : Event → Prop
  | .message (.rrep rp) => a.ReplySpares rp
  | .linkFailure p _ => p.daddr ≠ IP_BROADCAST → ∀ rt, a.rt_lookup p.daddr = some rt →
      rt.rt_hops < p.num_forwards → rt.rt_flags ≠ .up
  | _ => True

/-- The invariant of a network. -/
structure World.Fit (w : World) : Prop where
  agent : ∀ u, (w.agent u).Fit
  sent : ∀ m ∈ w.sent, m.Fit

theorem fit_init : World.init.Fit where
  agent u := ⟨(by decide : 2 % 2 = 0), List.nodup_nil, fun e he => absurd he List.not_mem_nil⟩
  sent m hm := absurd hm List.not_mem_nil

/-- What an agent does at an event that spares its routes. -/
theorem react_fits {r : Agent × List Message} (h : w.Fit) (hp : ev.Possible w u)
    (hs : ev.Spares IP_BROADCAST (w.agent u))
    (hr : (w.agent u).react IP_BROADCAST now ev = some r) : Agent.Fits r := by
  have ha := h.agent u
  cases ev with
  | message m =>
    have hm := h.sent m hp
    obtain rfl := Option.some.inj hr
    cases m with
    | rreq rq =>
      obtain ⟨h1, h2, h3⟩ := hm
      exact Agent.recvRequest_fit ha h1 (by dsimp only; omega) (by dsimp only; omega)
    | rrep rp => exact Agent.recvReply_fit ha hm hs
    | rerr re => exact Agent.recvError_fit ha
  | packet p =>
    obtain rfl := Option.some.inj hr
    exact Agent.recv_fit ha
  | linkFailure p next_hop_ =>
    rw [Agent.react, Agent.rt_ll_failed] at hr
    split_ifs at hr with hcast
    · obtain rfl := Option.some.inj hr
      exact ha.fits
    · cases he : (w.agent u).rt_lookup p.daddr with
      | none =>
        rw [he] at hr
        obtain rfl := Option.some.inj hr
        exact ha.fits
      | some rt =>
        rw [he] at hr
        dsimp only at hr
        split_ifs at hr with hlt
        · obtain rfl := Option.some.inj hr
          exact Agent.local_rt_repair_fit ha he (hs hcast rt he hlt)
        · have heven := ha.even
          have hseq : Agent.Fit { w.agent u with seqno := (w.agent u).seqno + 2 } :=
            ⟨by dsimp only; omega, ha.nodup, ha.sound⟩
          exact Agent.handle_link_failure_fit hseq hr
  | localRepair dst =>
    obtain rfl := Option.some.inj hr
    exact (Agent.localRepairTimer_fit ha).fits
  | purge =>
    obtain rfl := Option.some.inj hr
    exact Agent.rt_purge_fit ha
  | purgeIds =>
    obtain rfl := Option.some.inj hr
    exact Agent.Fit.fits ⟨ha.even, ha.nodup, ha.sound⟩

/-- Its assertions hold. -/
theorem asserts_of_spares (h : w.Fit) (hp : ev.Possible w u)
    (hs : ev.Spares IP_BROADCAST (w.agent u)) : ev.Asserts IP_BROADCAST (w.agent u) now := by
  have ha := h.agent u
  cases ev with
  | message m =>
    have hm := h.sent m hp
    cases m with
    | rreq rq =>
      obtain ⟨-, h2, h3⟩ := hm
      have hdiam : NETWORK_DIAMETER = 30 := rfl
      have hinf : INFINITY2 = 255 := rfl
      exact Agent.Fit.recvRequestAsserts (by dsimp only; omega)
    | rrep rp => exact ha.recvReplyAsserts hm hs
    | rerr re => exact ha.recvErrorAsserts
  | packet p => exact ha.rt_resolveAsserts
  | linkFailure p next_hop_ => exact fun _ => ha.rt_ll_failedAsserts next_hop_
  | localRepair dst => trivial
  | purge => exact ha.rt_purgeAsserts
  | purgeIds => trivial

/-- An event after which all entries are sound has spared the routes. -/
theorem spares_of_sound (h : w.Fit) (hp : ev.Possible w u)
    (hsound : ∀ r ∈ (w.agent u).react IP_BROADCAST now ev, AllSound r.1.rtable) :
    ev.Spares IP_BROADCAST (w.agent u) := by
  have ha := h.agent u
  cases ev with
  | message m =>
    have hm := h.sent m hp
    cases m with
    | rrep rp =>
      have hiff : AllSound ((w.agent u).recvReply { rp with ttl_ := rp.ttl_ - 1 } now).1.rtable ↔ _ :=
        Agent.recvReply_iff ha hm
      exact hiff.mp (hsound _ rfl)
    | rreq rq => trivial
    | rerr re => trivial
  | linkFailure p next_hop_ =>
    intro hcast rt he hlt
    refine (Agent.local_rt_repair_iff ha he).mp (hsound (Agent.local_rt_repair _ p.daddr p now) ?_)
    rw [Agent.react, Agent.rt_ll_failed, if_neg hcast, he]
    exact if_pos hlt
  | packet p => trivial
  | localRepair dst => trivial
  | purge => trivial
  | purgeIds => trivial

/-- One step keeps the invariant. -/
theorem World.Fit.step (h : w.Fit) (hp : ev.Possible w u) (hs : ev.Spares IP_BROADCAST (w.agent u))
    (hstep : w.step IP_BROADCAST u now ev = some w') : w'.Fit := by
  obtain ⟨r, hr, rfl⟩ := Option.map_eq_some_iff.mp hstep
  obtain ⟨h1, h2⟩ := react_fits h hp hs hr
  refine ⟨fun v => ?_, fun m hm => (List.mem_append.mp hm).elim (h2 m) (h.sent m)⟩
  dsimp only
  by_cases hv : v = u
  · rw [hv, Function.update_self]
    exact h1
  · rw [Function.update_of_ne hv]
    exact h.agent v

/-! ## Runs -/

/-- A network after an event: nothing is said once a route error has been written behind its end. -/
def World.next (IP_BROADCAST : ℤ) (w : Option World) (x : ℤ × ℚ × Event) : Option World :=
  w.bind fun w => w.step IP_BROADCAST x.1 x.2.1 x.2.2

/-- The event can happen. -/
def World.CanHappen (w : Option World) (x : ℤ × ℚ × Event) : Prop :=
  ∀ v ∈ w, x.2.2.Possible v x.1

/-- No assertion fails at the event, and all entries of all tables are sound afterwards. -/
def World.StaysSound (IP_BROADCAST : ℤ) (w : Option World) (x : ℤ × ℚ × Event) : Prop :=
  ∀ v ∈ w, x.2.2.Asserts IP_BROADCAST (v.agent x.1) x.2.1 ∧
    ∀ v' ∈ v.step IP_BROADCAST x.1 x.2.1 x.2.2, ∀ u, AllSound (v'.agent u).rtable

/-- The event spares the routes. -/
def World.Spares (IP_BROADCAST : ℤ) (w : Option World) (x : ℤ × ℚ × Event) : Prop :=
  ∀ v ∈ w, x.2.2.Spares IP_BROADCAST (v.agent x.1)

/-- **One event**: entries stay sound exactly when it spares the routes. -/
theorem staysSound_iff {w : Option World} {x : ℤ × ℚ × Event} (h : ∀ v ∈ w, v.Fit)
    (hp : World.CanHappen w x) : World.StaysSound IP_BROADCAST w x ↔ World.Spares IP_BROADCAST w x := by
  constructor
  · intro hsound v hv
    refine spares_of_sound (h v hv) (hp v hv) (fun r hr => ?_ : ∀ r ∈ (v.agent x.1).react _ x.2.1 _, _)
    have hnext := (hsound v hv).2 ⟨Function.update v.agent x.1 r.1, r.2 ++ v.sent⟩
      (Option.map_eq_some_iff.mpr ⟨r, hr, rfl⟩) x.1
    simp only [Function.update_self] at hnext
    exact hnext
  · intro hs v hv
    refine ⟨asserts_of_spares (h v hv) (hp v hv) (hs v hv), fun v' hv' u => ?_⟩
    exact (((h v hv).step (hp v hv) (hs v hv) hv').agent u).sound

/-- **Route entries stay well-formed** exactly in the runs in which no local repair of a route that is
up begins and no route of 255 hops is taken from a reply: then a route is up exactly when it has a
hop count, its sequence number is even, and no assertion fails. -/
theorem sound_iff_spares (IP_BROADCAST : ℤ) (l : List (ℤ × ℚ × Event))
    (hlegal : Run.AllSteps (World.next IP_BROADCAST) World.CanHappen (some World.init) l) :
    Run.AllSteps (World.next IP_BROADCAST) (World.StaysSound IP_BROADCAST) (some World.init) l ↔
      Run.AllSteps (World.next IP_BROADCAST) (World.Spares IP_BROADCAST) (some World.init) l := by
  refine Run.allSteps_congr_legal (I := fun w : Option World => ∀ v ∈ w, v.Fit)
    (fun w x h hp => staysSound_iff h hp) (fun w x h hp hs v' hv' => ?_) l _ ?_ hlegal
  · obtain ⟨v, hv, hstep⟩ := Option.bind_eq_some_iff.mp hv'
    exact (h v hv).step (hp v hv) (hs v hv) hstep
  · intro v hv
    obtain rfl := Option.some.inj hv
    exact fit_init

/-! ## Two runs -/

/-- The events of a run can happen. -/
theorem canHappen_of_run {l : List (ℤ × ℚ × Event)} {w w' : World}
    (h : World.run IP_BROADCAST l w = some w') :
    Run.AllSteps (World.next IP_BROADCAST) World.CanHappen (some w) l ∧
      l.foldl (World.next IP_BROADCAST) (some w) = some w' := by
  induction l generalizing w with
  | nil => exact ⟨trivial, h⟩
  | cons x l ih =>
    obtain ⟨u, now, ev⟩ := x
    rw [World.run] at h
    by_cases hp : ev.Possible w u
    · rw [if_pos hp] at h
      obtain ⟨w₁, hs, hrest⟩ := Option.bind_eq_some_iff.mp h
      have hnext : World.next IP_BROADCAST (some w) (u, now, ev) = some w₁ := hs
      obtain ⟨h1, h2⟩ := ih hrest
      rw [Run.allSteps_cons, List.foldl_cons, hnext]
      refine ⟨⟨fun v hv => ?_, h1⟩, h2⟩
      obtain rfl := Option.some.inj hv
      exact hp
    · rw [if_neg hp] at h
      exact absurd h (by simp)

/-- Node 1 asks node 0 for a route and gets it. -/
theorem sound_iff_spares_firstRoute :
    Run.AllSteps (World.next (-1)) (World.StaysSound (-1)) (some World.init) firstRoute := by
  have hrun : (World.run (-1) firstRoute World.init).isSome = true := by decide +kernel
  obtain ⟨w, hw⟩ := Option.isSome_iff_exists.mp hrun
  refine (sound_iff_spares (-1) firstRoute (canHappen_of_run hw).1).mpr
    ⟨fun _ _ => trivial, fun _ _ => trivial, fun _ _ => ?_, trivial⟩
  exact fun _ _ _ => (by decide : 1 ≠ INFINITY2)

/-- The run of `failedRepair` up to the local repair of node 1, when a packet of its own is on its way to
node 0 as well: the link fails for it, too. -/
def twoFailures : List (ℤ × ℚ × Event) :=
  failedRepair.take 12 ++ [(1, 2, .linkFailure ⟨1, 0, 30, 0, 0⟩ 0)]

/-- **A failed assertion.**  The route that is repaired keeps its hop count, and the second failure
finds it among the routes that are up. -/
theorem repair_asserts :
    Run.AllSteps (World.next (-1)) World.CanHappen (some World.init) twoFailures ∧
      ¬ Run.AllSteps (World.next (-1)) (World.StaysSound (-1)) (some World.init) twoFailures := by
  have hrun : (World.run (-1) twoFailures World.init).isSome = true := by decide +kernel
  have hrepair : (World.run (-1) (failedRepair.take 12) World.init).map (fun w =>
      ((w.agent 1).rt_lookup 0).map fun e => (e.rt_hops, e.rt_nexthop, e.rt_flags)) =
        some (some (1, 0, .inRepair)) := by decide +kernel
  obtain ⟨w, hw⟩ := Option.isSome_iff_exists.mp hrun
  obtain ⟨v, hv, hentry⟩ := Option.map_eq_some_iff.mp hrepair
  obtain ⟨e, he, hfields⟩ := Option.map_eq_some_iff.mp hentry
  obtain ⟨hhops, hfields⟩ := Prod.mk.inj hfields
  obtain ⟨hnext, hflags⟩ := Prod.mk.inj hfields
  refine ⟨(canHappen_of_run hw).1, fun hsound => ?_⟩
  obtain ⟨-, hlast⟩ := (Run.allSteps_append _ _ _).mp hsound
  rw [(canHappen_of_run hv).2] at hlast
  have hasserts : (v.agent 1).rt_ll_failedAsserts ⟨1, 0, 30, 0, 0⟩ 0 :=
    (hlast.1 v rfl).1 (by decide)
  obtain ⟨-, hlink⟩ := hasserts e he (Nat.not_lt_zero _)
  have hover : Agent.routesOver 0 e = true := by
    rw [Agent.routesOver, hhops, hnext]
    rfl
  have hup := (hlink e (List.mem_of_find?_eq_some he) hover).1
  exact absurd (hflags.symm.trans hup) (by decide)

end Networks

end Ns2.Aodv
