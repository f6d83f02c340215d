import Ns2.Aodv.LoopFree

/-!
# The flooding of requests

A request for a route is flooded: who has not heard it before passes it on.  What was heard is forgotten after
`BCAST_ID_SAVE`.

* `requests`, `World.copies` — the requests among the messages sent, and the copies of one that a node sent.
* `Asks` — what an agent does that takes no request up.
* `recvRequest_cases`, `react_cases` — what an agent does.
* `requests_traced` — every copy has come over as many nodes as it says from the one request that its source
  sent.
* `floods_bounded` — how many copies of a request a node sends.
-/

namespace Ns2.Aodv

/-- The request that a message is. -/
def Message.request? : Message → Option Request
  | .rreq rq => some rq
  | .rrep _ => none
  | .rerr _ => none

/-- The requests among messages. -/
def requests (ms : List Message) : List Request := ms.filterMap Message.request?

theorem requests_append (ms ms' : List Message) :
    requests (ms ++ ms') = requests ms ++ requests ms' := List.filterMap_append

/-- A request that the node `i` sends for itself. -/
structure Request.Original (rq : Request) (i : ℤ) (now : ℚ) : Prop where
  saddr : rq.saddr = i
  src : rq.rq_src = i
  hops : rq.rq_hop_count = 1
  ttl : 1 ≤ rq.ttl_ ∧ rq.ttl_ ≤ NETWORK_DIAMETER
  time : rq.rq_timestamp = now

/-- The second request is the first one, passed on. -/
structure Request.PassedOn (rq rq' : Request) : Prop where
  hops : rq'.rq_hop_count = rq.rq_hop_count + 1
  ttl : rq'.ttl_ = rq.ttl_ - 1
  fresher : rq.rq_dst_seqno ≤ rq'.rq_dst_seqno
  src : rq'.rq_src = rq.rq_src
  id : rq'.rq_bcast_id = rq.rq_bcast_id
  dst : rq'.rq_dst = rq.rq_dst
  src_seqno : rq'.rq_src_seqno = rq.rq_src_seqno
  timestamp : rq'.rq_timestamp = rq.rq_timestamp

namespace Agent

/-- What the flooding depends on. -/
def key (a : Agent) : ℤ × ℕ × List (ℤ × ℕ × ℚ) := (a.index, a.bid, a.bihead)

/-- What an agent does that takes no request up: it asks for routes with the next broadcast ids. -/
structure Asks (now : ℚ) (a a' : Agent) (ms : List Message) : Prop where
  index : a'.index = a.index
  bihead : a'.bihead = a.bihead
  bid : a'.bid = a.bid + (requests ms).length
  ids : (requests ms).map Request.rq_bcast_id = List.range' a.bid (requests ms).length
  original : ∀ rq ∈ requests ms, rq.Original a.index now

variable {a a' a'' : Agent} {ms ms' : List Message} {now : ℚ} {dst : ℤ} {p : Packet} {IP_BROADCAST : ℤ}

theorem Asks.of_key (h : a'.key = a.key) (hms : requests ms = []) : Asks now a a' ms := by
  obtain ⟨hindex, hrest⟩ := Prod.mk.inj h
  obtain ⟨hbid, hbihead⟩ := Prod.mk.inj hrest
  refine ⟨hindex, hbihead, ?_, ?_, ?_⟩
  · rw [hms]
    exact hbid
  · rw [hms]
    rfl
  · rw [hms]
    exact fun rq hrq => absurd hrq List.not_mem_nil

theorem Asks.trans (h : Asks now a a' ms) (h' : Asks now a' a'' ms') : Asks now a a'' (ms ++ ms') := by
  refine ⟨h'.index.trans h.index, h'.bihead.trans h.bihead, ?_, ?_, ?_⟩
  · rw [h'.bid, h.bid, requests_append, List.length_append, add_assoc]
  · rw [requests_append, List.map_append, h.ids, h'.ids, h.bid, List.length_append, List.range'_append_1]
  · intro rq hrq
    rw [requests_append, List.mem_append] at hrq
    rcases hrq with hrq | hrq
    · exact h.original rq hrq
    · exact h.index ▸ h'.original rq hrq

/-- The ids of the requests were not used before. -/
theorem Asks.id_mem (h : Asks now a a' ms) {rq : Request} (hrq : rq ∈ requests ms) :
    a.bid ≤ rq.rq_bcast_id ∧ rq.rq_bcast_id < a'.bid := by
  have hmem : rq.rq_bcast_id ∈ List.range' a.bid (requests ms).length := by
    rw [← h.ids]
    exact List.mem_map_of_mem hrq
  rw [h.bid]
  exact List.mem_range'_1.mp hmem

/-- Something is done before that the flooding does not depend on. -/
theorem Asks.of_eq (h : a'.key = a.key) (h' : Asks now a' a'' ms) : Asks now a a'' ms :=
  have hbefore : Asks now a a' [] := .of_key h rfl
  hbefore.trans h'

/-- Something is done after. -/
theorem Asks.then_eq (h : Asks now a a' ms) (h' : a''.key = a'.key) : Asks now a a'' ms := by
  have hafter : Asks now a' a'' [] := .of_key h' rfl
  have hall := h.trans hafter
  rwa [List.append_nil] at hall

/-! ## What asks for no route -/

theorem forward_key : (a.forward dst p now).key = a.key := by
  unfold forward
  split_ifs <;> rfl

theorem sendBuffered_key : (a.sendBuffered dst now).key = a.key := by
  have hfold : ∀ (ps : List Packet) (a : Agent),
      (ps.foldl (fun a p => a.forward dst p now) a).key = a.key := by
    intro ps
    induction ps with
    | nil => exact fun _ => rfl
    | cons p ps ih => exact fun a => (ih _).trans forward_key
  exact hfold _ _

theorem errorEntry_key (saddr : ℤ) (r : Agent × List (ℤ × ℕ)) (x : ℤ × ℕ) :
    (errorEntry saddr r x).1.key = r.1.key := by
  unfold errorEntry
  cases r.1.rt_lookup x.1 with
  | none => rfl
  | some rt =>
    dsimp only
    split_ifs <;> rfl

theorem recvError_asks (re : RouteError) : Asks now a (a.recvError re).1 (a.recvError re).2 := by
  have hfold : ∀ (l : List (ℤ × ℕ)) (r : Agent × List (ℤ × ℕ)),
      (l.foldl (errorEntry re.saddr) r).1.key = r.1.key := by
    intro l
    induction l with
    | nil => exact fun _ => rfl
    | cons x l ih => exact fun r => (ih _).trans (errorEntry_key _ r x)
  refine .of_key (hfold _ _) ?_
  unfold recvError
  dsimp only
  split_ifs <;> rfl

theorem takeReply_key (rp : Reply) : (a.takeReply rp now).key = a.key := by
  unfold takeReply
  dsimp only
  split_ifs
  · exact sendBuffered_key
  · rfl

theorem forwardReply_asks (rp : Reply) : Asks now a (a.forwardReply rp now).1 (a.forwardReply rp now).2 := by
  unfold forwardReply
  cases a.rt_lookup rp.daddr with
  | none => exact .of_key rfl rfl
  | some rt =>
    dsimp only
    split_ifs <;> exact .of_key rfl rfl

theorem recvReply_asks (rp : Reply) : Asks now a (a.recvReply rp now).1 (a.recvReply rp now).2 := by
  unfold recvReply
  dsimp only
  split
  · exact .of_key rfl rfl
  · split_ifs
    · exact .of_key (takeReply_key rp) rfl
    · exact .of_eq (takeReply_key (a := { a with rtable := a.rtable.ensure rp.rp_dst }) rp)
        (forwardReply_asks rp)
    · exact .of_key rfl rfl

theorem localRepairTimer_asks : Asks now a (a.localRepairTimer dst) [] := .of_key rfl rfl

theorem handle_link_failure_asks {id : ℤ} {r : Agent × List Message} (hr : a.handle_link_failure id = some r) :
    Asks now a r.1 r.2 := by
  unfold handle_link_failure at hr
  dsimp only at hr
  split_ifs at hr <;> obtain rfl := Option.some.inj hr
  · exact .of_key rfl rfl
  · exact .of_key rfl rfl

/-! ## What asks for routes -/

variable (now dst) in
theorem sendRequest_asks : Asks now a (a.sendRequest dst now).1 (a.sendRequest dst now).2 := by
  unfold sendRequest
  cases a.rt_lookup dst with
  | none => exact .of_key rfl rfl
  | some rt =>
    dsimp only
    split_ifs
    · exact .of_key rfl rfl
    · exact .of_key rfl rfl
    · refine ⟨rfl, rfl, rfl, rfl, fun rq hrq => ?_⟩
      obtain rfl := List.mem_singleton.mp hrq
      exact ⟨rfl, rfl, rfl, requestTtl_bounds _ (le_max_of_le_right (Int.natCast_nonneg _)), rfl⟩

theorem rt_resolve_asks : Asks now a (a.rt_resolve p now).1 (a.rt_resolve p now).2 := by
  unfold rt_resolve
  dsimp only
  split
  · exact .of_key rfl rfl
  · split_ifs
    · exact .of_key forward_key rfl
    · exact .of_eq (by rfl) (sendRequest_asks now p.daddr)
    · exact .of_key rfl rfl
    · exact .of_key rfl rfl

theorem recv_asks : Asks now a (a.recv IP_BROADCAST p now).1 (a.recv IP_BROADCAST p now).2 := by
  unfold recv
  split_ifs
  · exact .of_key rfl rfl
  · exact rt_resolve_asks
  · exact .of_key rfl rfl
  · exact .of_key rfl rfl
  · exact .of_key rfl rfl
  · exact rt_resolve_asks

theorem local_rt_repair_asks : Asks now a (a.local_rt_repair dst p now).1 (a.local_rt_repair dst p now).2 := by
  unfold local_rt_repair
  dsimp only
  exact (Asks.of_eq (by rfl) (sendRequest_asks now dst)).then_eq rfl

theorem rt_ll_failed_asks {next_hop_ : ℤ} {r : Agent × List Message}
    (hr : a.rt_ll_failed IP_BROADCAST p next_hop_ now = some r) : Asks now a r.1 r.2 := by
  unfold rt_ll_failed at hr
  split_ifs at hr
  · obtain rfl := Option.some.inj hr
    exact .of_key rfl rfl
  · cases he : a.rt_lookup p.daddr with
    | none =>
      rw [he] at hr
      obtain rfl := Option.some.inj hr
      exact .of_key rfl rfl
    | some rt =>
      rw [he] at hr
      dsimp only at hr
      split_ifs at hr
      · obtain rfl := Option.some.inj hr
        exact local_rt_repair_asks
      · exact .of_eq (by rfl) (handle_link_failure_asks hr)

theorem purgeEntry_asks {r : Agent × List Message} (h : Asks now a r.1 r.2) :
    Asks now a (purgeEntry now r dst).1 (purgeEntry now r dst).2 := by
  unfold purgeEntry
  cases r.1.rt_lookup dst with
  | none => exact h
  | some rt =>
    dsimp only
    split_ifs
    · exact h.then_eq rfl
    · exact h.then_eq sendBuffered_key
    · exact h.trans (sendRequest_asks now dst)
    · exact h

theorem rt_purge_asks : Asks now a (a.rt_purge now).1 (a.rt_purge now).2 := by
  have hfold : ∀ (ds : List ℤ) (r : Agent × List Message), Asks now a r.1 r.2 →
      Asks now a (ds.foldl (purgeEntry now) r).1 (ds.foldl (purgeEntry now) r).2 := by
    intro ds
    induction ds with
    | nil => exact fun r hr => hr
    | cons d ds ih => exact fun r hr => ih _ (purgeEntry_asks hr)
  exact hfold _ _ (.of_key rfl rfl)

/-! ## Requests received -/

/-- The request `rq`, which has just been received, as the node `i` passes it on. -/
def passOn (i : ℤ) (rq : Request) (dst_seqno : ℕ) : Request :=
  { rq with saddr := i, rq_hop_count := u8 (rq.rq_hop_count + 1), rq_dst_seqno := dst_seqno }

variable (a now) in
theorem reverseRoute_key (rq : Request) : (a.reverseRoute rq now).key =
    (a.index, a.bid, (rq.rq_src, rq.rq_bcast_id, now + BCAST_ID_SAVE) :: a.bihead) := by
  unfold reverseRoute
  dsimp only
  split
  · rfl
  · split_ifs
    · exact sendBuffered_key
    · rfl

theorem forwardRequest_cases (rq : Request) (rt : Option RtEntry) :
    requests (a.forwardRequest rq rt) = [] ∨ rq.ttl_ ≠ 0 ∧ ∃ n, rq.rq_dst_seqno ≤ n ∧
      requests (a.forwardRequest rq rt) = [passOn a.index rq n] := by
  unfold forwardRequest
  split_ifs with hzero
  · exact Or.inl rfl
  · refine Or.inr ⟨hzero, _, ?_, rfl⟩
    cases rt with
    | none => exact le_rfl
    | some rt => exact le_max_right _ _

variable (a now) in
/-- The answer is a reply, or the request is passed on. -/
theorem answer_cases (rq : Request) : (a.answer rq now).1.key = a.key ∧
    (requests (a.answer rq now).2 = [] ∨ rq.ttl_ ≠ 0 ∧ ∃ n, rq.rq_dst_seqno ≤ n ∧
      requests (a.answer rq now).2 = [passOn a.index rq n]) := by
  unfold answer
  split_ifs
  · exact ⟨rfl, Or.inl rfl⟩
  · cases a.rt_lookup rq.rq_dst with
    | none => exact ⟨rfl, forwardRequest_cases rq none⟩
    | some rt =>
      dsimp only
      split_ifs
      · exact ⟨rfl, Or.inl rfl⟩
      · exact ⟨rfl, forwardRequest_cases rq (some rt)⟩

variable (a now) in
/-- **A request is taken up** by a node that is not its source and has not heard it: its id is kept, and it is
answered or passed on.  Otherwise nothing happens. -/
theorem recvRequest_cases (rq : Request) :
    a.recvRequest rq now = (a, []) ∨
    rq.rq_src ≠ a.index ∧ a.id_lookup rq.rq_src rq.rq_bcast_id = false ∧
      (a.recvRequest rq now).1.key =
        (a.index, a.bid, (rq.rq_src, rq.rq_bcast_id, now + BCAST_ID_SAVE) :: a.bihead) ∧
      (requests (a.recvRequest rq now).2 = [] ∨ rq.ttl_ ≠ 0 ∧ ∃ n, rq.rq_dst_seqno ≤ n ∧
        requests (a.recvRequest rq now).2 = [passOn a.index rq n]) := by
  unfold recvRequest
  split_ifs with hsrc hheard
  · exact Or.inl rfl
  · exact Or.inl rfl
  · have hrev := reverseRoute_key a now rq
    have hindex : (a.reverseRoute rq now).index = a.index := congrArg Prod.fst hrev
    obtain ⟨hkeep, hsent⟩ := answer_cases (a.reverseRoute rq now) now rq
    rw [hindex] at hsent
    exact Or.inr ⟨hsrc, Bool.eq_false_iff.mpr hheard, hkeep.trans hrev, hsent⟩

/-- **What an agent does**: it asks for routes, or forgets what it heard long ago, or takes a request up. -/
theorem react_cases {ev : Event} (hr : a.react IP_BROADCAST now ev = some (a', ms)) :
    Asks now a a' ms ∨ (a' = a.id_purge now ∧ ms = []) ∨
      ∃ rq, ev = .message (.rreq rq) ∧ rq.rq_src ≠ a.index ∧ a.id_lookup rq.rq_src rq.rq_bcast_id = false ∧
        a'.key = (a.index, a.bid, (rq.rq_src, rq.rq_bcast_id, now + BCAST_ID_SAVE) :: a.bihead) ∧
        (requests ms = [] ∨ rq.ttl_ ≠ 1 ∧ ∃ n, rq.rq_dst_seqno ≤ n ∧
          requests ms = [passOn a.index { rq with ttl_ := rq.ttl_ - 1 } n]) := by
  cases ev with
  | message m =>
    obtain ⟨rfl, rfl⟩ := Prod.mk.inj (Option.some.inj hr)
    cases m with
    | rreq rq =>
      rcases recvRequest_cases a now { rq with ttl_ := rq.ttl_ - 1 } with hsame | htaken
      · refine Or.inl (.of_key ?_ ?_)
        · exact congrArg (fun r => r.1.key) hsame
        · exact congrArg (fun r => requests r.2) hsame
      · obtain ⟨hsrc, hnew, hkept, hsent⟩ := htaken
        refine Or.inr (Or.inr ⟨rq, rfl, hsrc, hnew, hkept, hsent.imp id ?_⟩)
        rintro ⟨hzero, n, hn, heq⟩
        exact ⟨fun hone => hzero (by dsimp only; omega), n, hn, heq⟩
    | rrep rp => exact Or.inl (recvReply_asks _)
    | rerr re => exact Or.inl (recvError_asks re)
  | packet p =>
    obtain ⟨rfl, rfl⟩ := Prod.mk.inj (Option.some.inj hr)
    exact Or.inl recv_asks
  | linkFailure p next_hop_ => exact Or.inl (rt_ll_failed_asks hr)
  | localRepair dst =>
    obtain ⟨rfl, rfl⟩ := Prod.mk.inj (Option.some.inj hr)
    exact Or.inl localRepairTimer_asks
  | purge =>
    obtain ⟨rfl, rfl⟩ := Prod.mk.inj (Option.some.inj hr)
    exact Or.inl rt_purge_asks
  | purgeIds =>
    obtain ⟨rfl, rfl⟩ := Prod.mk.inj (Option.some.inj hr)
    exact Or.inr (Or.inl ⟨rfl, rfl⟩)

end Agent

/-! ## Networks -/

namespace World

/-- The requests sent so far. -/
def requests (w : World) : List Request := Aodv.requests w.sent

/-- The node `u` has sent the request with the broadcast id `b` of the node `s`. -/
def IsCopy (u s : ℤ) (b : ℕ) (rq : Request) : Prop := rq.saddr = u ∧ rq.rq_src = s ∧ rq.rq_bcast_id = b

instance (u s : ℤ) (b : ℕ) (rq : Request) : Decidable (IsCopy u s b rq) := inferInstanceAs (Decidable (_ ∧ _))

/-- The copies that the node `u` has sent of the request with the broadcast id `b` of the node `s`. -/
def copies (w : World) (u s : ℤ) (b : ℕ) : List Request := w.requests.filter fun rq => IsCopy u s b rq

variable {IP_BROADCAST : ℤ} {w w' : World} {u : ℤ} {now t : ℚ} {ev : Event} {rq : Request}

theorem mem_requests : rq ∈ w.requests ↔ .rreq rq ∈ w.sent := by
  unfold requests Aodv.requests
  rw [List.mem_filterMap]
  constructor
  · rintro ⟨m, hm, heq⟩
    cases m with
    | rreq r =>
      obtain rfl := Option.some.inj heq
      exact hm
    | rrep rp => cases heq
    | rerr re => cases heq
  · exact fun h => ⟨.rreq rq, h, rfl⟩

/-- A step, seen from the agent that reacts. -/
structure Stepped (w w' : World) (u : ℤ) (a' : Agent) (ms : List Message) : Prop where
  self : w'.agent u = a'
  other : ∀ v, v ≠ u → w'.agent v = w.agent v
  requests : w'.requests = Aodv.requests ms ++ w.requests

theorem step_eq_some (h : w.step IP_BROADCAST u now ev = some w') :
    ∃ a' ms, (w.agent u).react IP_BROADCAST now ev = some (a', ms) ∧ Stepped w w' u a' ms := by
  obtain ⟨⟨a', ms⟩, hr, rfl⟩ := Option.map_eq_some_iff.mp h
  exact ⟨a', ms, hr, Function.update_self _ _ _, fun v hv => Function.update_of_ne hv _ _,
    requests_append ms w.sent⟩

/-- A step that leaves the index and the counter of its agent alone. -/
theorem Stepped.agent {a' : Agent} {ms : List Message} (h : Stepped w w' u a' ms)
    (hindex : a'.index = (w.agent u).index) (hbid : a'.bid = (w.agent u).bid) (v : ℤ) :
    (w'.agent v).index = (w.agent v).index ∧ (w'.agent v).bid = (w.agent v).bid := by
  by_cases hv : v = u
  · rw [hv, h.self]
    exact ⟨hindex, hbid⟩
  · rw [h.other v hv]
    exact ⟨rfl, rfl⟩

/-- The copies after a step. -/
theorem Stepped.copies {a' : Agent} {ms : List Message} (h : Stepped w w' u a' ms) (v s : ℤ) (b : ℕ) :
    w'.copies v s b = ((Aodv.requests ms).filter fun rq => IsCopy v s b rq) ++ w.copies v s b := by
  unfold World.copies
  rw [h.requests, List.filter_append]

/-- A step after which no copy was sent. -/
theorem Stepped.copies_eq {a' : Agent} {ms : List Message} (h : Stepped w w' u a' ms) {v s : ℤ} {b : ℕ}
    (hnot : ∀ rq ∈ Aodv.requests ms, ¬ IsCopy v s b rq) : w'.copies v s b = w.copies v s b := by
  rw [h.copies, List.filter_eq_nil_iff.mpr fun rq hrq => by simpa using hnot rq hrq, List.nil_append]

/-! ### Where requests come from -/

/-- The request has come, from node to node, from the one that its source sent. -/
def Traced (w : World) (rq : Request) : Prop :=
  ∃ o, w.copies rq.rq_src rq.rq_src rq.rq_bcast_id = [o] ∧ o.rq_hop_count = 1 ∧
    Relation.ReflTransGen (fun x y => y ∈ w.requests ∧ x.PassedOn y) o rq

/-- What holds of the requests of a network. -/
structure Authentic (w : World) : Prop where
  index : ∀ u, (w.agent u).index = u
  ids : ∀ rq ∈ w.requests, rq.rq_bcast_id < (w.agent rq.rq_src).bid
  bounds : ∀ rq ∈ w.requests,
    1 ≤ rq.rq_hop_count ∧ 1 ≤ rq.ttl_ ∧ rq.rq_hop_count + rq.ttl_ ≤ NETWORK_DIAMETER + 1
  traced : ∀ rq ∈ w.requests, w.Traced rq

/-- A trace does not change when requests are sent, none of them with the id of this one. -/
theorem Traced.mono (h : w.Traced rq) (hsub : w.requests ⊆ w'.requests)
    (hcopies : w'.copies rq.rq_src rq.rq_src rq.rq_bcast_id = w.copies rq.rq_src rq.rq_src rq.rq_bcast_id) :
    w'.Traced rq := by
  obtain ⟨o, ho, hone, hpath⟩ := h
  refine ⟨o, hcopies.trans ho, hone, ?_⟩
  exact Relation.ReflTransGen.mono (fun x y hxy => ⟨hsub hxy.1, hxy.2⟩) _ _ hpath

/-- One element of a list is told by its id. -/
theorem filter_ids {l : List Request} (hnodup : (l.map Request.rq_bcast_id).Nodup) (hrq : rq ∈ l) :
    l.filter (fun x => x.rq_bcast_id = rq.rq_bcast_id) = [rq] := by
  induction l with
  | nil => exact absurd hrq List.not_mem_nil
  | cons x l ih =>
    rw [List.map_cons, List.nodup_cons] at hnodup
    obtain ⟨hx, hl⟩ := hnodup
    rcases List.mem_cons.mp hrq with rfl | hmem
    · rw [List.filter_cons_of_pos (by simp), List.filter_eq_nil_iff.mpr]
      intro y hy heq
      exact hx (List.mem_map.mpr ⟨y, hy, of_decide_eq_true heq⟩)
    · rw [List.filter_cons_of_neg, ih hl hmem]
      intro heq
      exact hx (List.mem_map.mpr ⟨rq, hmem, (of_decide_eq_true heq).symm⟩)

/-- Requests of the agent's own have new ids. -/
theorem Authentic.asks {a' : Agent} {ms : List Message} (h : w.Authentic) (hs : Stepped w w' u a' ms)
    (hasks : Agent.Asks now (w.agent u) a' ms) : w'.Authentic := by
  have hindex : ∀ v, (w'.agent v).index = v := by
    intro v
    by_cases hv : v = u
    · rw [hv, hs.self, hasks.index, h.index]
    · rw [hs.other v hv, h.index]
  have hbid : ∀ v, (w.agent v).bid ≤ (w'.agent v).bid := by
    intro v
    by_cases hv : v = u
    · rw [hv, hs.self, hasks.bid]
      exact Nat.le_add_right _ _
    · rw [hs.other v hv]
  have hid : ∀ rq ∈ Aodv.requests ms,
      (w.agent u).bid ≤ rq.rq_bcast_id ∧ rq.rq_bcast_id < (w'.agent u).bid := by
    rw [hs.self]
    exact fun rq hrq => hasks.id_mem hrq
  have horiginal : ∀ rq ∈ Aodv.requests ms, rq.Original u now := by
    intro rq hrq
    exact h.index u ▸ hasks.original rq hrq
  have hsub : w.requests ⊆ w'.requests := by
    rw [hs.requests]
    exact List.subset_append_right _ _
  refine ⟨hindex, fun rq hrq => ?_, fun rq hrq => ?_, fun rq hrq => ?_⟩
  · rw [hs.requests, List.mem_append] at hrq
    rcases hrq with hrq | hrq
    · rw [(horiginal rq hrq).src]
      exact (hid rq hrq).2
    · exact (h.ids rq hrq).trans_le (hbid _)
  · rw [hs.requests, List.mem_append] at hrq
    rcases hrq with hrq | hrq
    · obtain ⟨-, -, hhops, httl, -⟩ := horiginal rq hrq
      rw [hhops]
      exact ⟨le_rfl, httl.1, by push_cast; linarith [httl.2]⟩
    · exact h.bounds rq hrq
  · rw [hs.requests, List.mem_append] at hrq
    rcases hrq with hrq | hrq
    · -- its source has sent no other request with its id
      obtain ⟨hsaddr, hsrc, hhops, -, -⟩ := horiginal rq hrq
      refine ⟨rq, ?_, hhops, Relation.ReflTransGen.refl⟩
      have hold : w.copies rq.rq_src rq.rq_src rq.rq_bcast_id = [] := by
        refine List.filter_eq_nil_iff.mpr fun x hx hcopy => ?_
        obtain ⟨-, hxsrc, hxid⟩ := of_decide_eq_true hcopy
        have hlt := h.ids x hx
        rw [hxsrc, hxid, hsrc] at hlt
        exact absurd (hid rq hrq).1 (by omega)
      rw [hs.copies, hold, List.append_nil, ← filter_ids (l := Aodv.requests ms) _ hrq]
      · refine List.filter_congr fun x hx => ?_
        obtain ⟨hxaddr, hxsrc, -, -, -⟩ := horiginal x hx
        rw [← hsrc] at hxaddr hxsrc
        exact decide_eq_decide.mpr ⟨fun hcopy => hcopy.2.2, fun heq => ⟨hxaddr, hxsrc, heq⟩⟩
      · rw [hasks.ids]
        exact List.nodup_range'
    · refine (h.traced rq hrq).mono hsub (hs.copies_eq fun x hx hcopy => ?_)
      obtain ⟨-, hxsrc, hxid⟩ := hcopy
      have hlt := h.ids rq hrq
      rw [← hxsrc, ← hxid, (horiginal x hx).src] at hlt
      exact absurd (hid x hx).1 (by omega)

/-- A step without requests. -/
theorem Authentic.quiet {a' : Agent} {ms : List Message} (h : w.Authentic) (hs : Stepped w w' u a' ms)
    (hindex : a'.index = (w.agent u).index) (hbid : a'.bid = (w.agent u).bid) (hms : Aodv.requests ms = []) :
    w'.Authentic := by
  have hreq : w'.requests = w.requests := by rw [hs.requests, hms, List.nil_append]
  have hsame := hs.agent hindex hbid
  refine ⟨fun v => (hsame v).1.trans (h.index v), fun rq hrq => ?_, fun rq hrq => ?_, fun rq hrq => ?_⟩
  · rw [(hsame _).2]
    exact h.ids rq (hreq ▸ hrq)
  · exact h.bounds rq (hreq ▸ hrq)
  · refine (h.traced rq (hreq ▸ hrq)).mono (hreq ▸ List.Subset.refl _) ?_
    unfold copies
    rw [hreq]

/-- A request that is passed on has come one node further. -/
theorem passOn_passedOn {n : ℕ} (u : ℤ) (hhops : rq.rq_hop_count ≤ 30) (hn : rq.rq_dst_seqno ≤ n) :
    rq.PassedOn (Agent.passOn u { rq with ttl_ := rq.ttl_ - 1 } n) where
  hops := Nat.mod_eq_of_lt (by dsimp only; omega)
  ttl := rfl
  fresher := hn
  src := rfl
  id := rfl
  dst := rfl
  src_seqno := rfl
  timestamp := rfl

/-- A request that is passed on keeps its id, which is not one of this agent's own. -/
theorem Authentic.passes {a' : Agent} {ms : List Message} {copy : Request} (h : w.Authentic)
    (hs : Stepped w w' u a' ms) (hindex : a'.index = (w.agent u).index) (hbid : a'.bid = (w.agent u).bid)
    (hrq : rq ∈ w.requests) (hsrc : rq.rq_src ≠ u) (httl : rq.ttl_ ≠ 1) (hpassed : rq.PassedOn copy)
    (haddr : copy.saddr = u) (hms : Aodv.requests ms = [copy]) : w'.Authentic := by
  have hreq : w'.requests = copy :: w.requests := by rw [hs.requests, hms, List.singleton_append]
  have hsub : w.requests ⊆ w'.requests := by
    rw [hreq]
    exact List.subset_cons_self _ _
  have hagent := hs.agent hindex hbid
  -- no source has sent anything
  have hown : ∀ s b, w'.copies s s b = w.copies s s b := by
    intro s b
    refine hs.copies_eq fun x hx hcopy => ?_
    rw [hms, List.mem_singleton] at hx
    obtain ⟨hxaddr, hxsrc, -⟩ := hcopy
    rw [hx] at hxaddr hxsrc
    exact hsrc (hpassed.src.symm.trans (hxsrc.trans (hxaddr.symm.trans haddr)))
  refine ⟨fun v => (hagent v).1.trans (h.index v), fun x hx => ?_, fun x hx => ?_, fun x hx => ?_⟩
  · rw [(hagent _).2]
    rw [hreq] at hx
    rcases List.mem_cons.mp hx with rfl | hx
    · rw [hpassed.src, hpassed.id]
      exact h.ids rq hrq
    · exact h.ids x hx
  · rw [hreq] at hx
    rcases List.mem_cons.mp hx with rfl | hx
    · obtain ⟨hhops, hlive, hsum⟩ := h.bounds rq hrq
      rw [hpassed.hops, hpassed.ttl]
      refine ⟨Nat.le_add_left _ _, by omega, ?_⟩
      push_cast
      linarith
    · exact h.bounds x hx
  · rw [hreq] at hx
    rcases List.mem_cons.mp hx with rfl | hx
    · obtain ⟨o, ho, hone, hpath⟩ := (h.traced rq hrq).mono hsub (hown _ _)
      refine ⟨o, ?_, hone, hpath.tail ⟨hreq ▸ List.mem_cons_self, hpassed⟩⟩
      rw [hpassed.src, hpassed.id]
      exact ho
    · exact (h.traced x hx).mono hsub (hown _ _)

/-- **Every step keeps what holds of the requests.** -/
theorem Authentic.step (h : w.Authentic) (hp : ev.Possible w u) (hs : w.step IP_BROADCAST u now ev = some w') :
    w'.Authentic := by
  obtain ⟨a', ms, hr, hstep⟩ := step_eq_some hs
  rcases Agent.react_cases hr with hasks | ⟨rfl, rfl⟩ | ⟨rq, rfl, hsrc, -, hheard, hsent⟩
  · exact h.asks hstep hasks
  · exact h.quiet hstep rfl rfl rfl
  · obtain ⟨hindex, hrest⟩ := Prod.mk.inj hheard
    obtain ⟨hbid, -⟩ := Prod.mk.inj hrest
    rcases hsent with hms | ⟨httl, n, hn, hms⟩
    · exact h.quiet hstep hindex hbid hms
    · have hrq : rq ∈ w.requests := mem_requests.mpr hp
      have hbounds := h.bounds rq hrq
      unfold NETWORK_DIAMETER at hbounds
      rw [h.index] at hsrc hms
      exact h.passes hstep hindex hbid hrq hsrc httl (passOn_passedOn u (by omega) hn) rfl hms

theorem authentic_init : World.init.Authentic where
  index _ := rfl
  ids _ hrq := absurd hrq List.not_mem_nil
  bounds _ hrq := absurd hrq List.not_mem_nil
  traced _ hrq := absurd hrq List.not_mem_nil

/-- A run of steps that keep an invariant of the network and the clock. -/
theorem run_keeps {I : World → ℚ → Prop} {t₁ : ℚ}
    (hstep : ∀ w w' t u now ev, I w t → t ≤ now → ev.Possible w u →
      w.step IP_BROADCAST u now ev = some w' → I w' now)
    {l : List (ℤ × ℚ × Event)} (hI : I w t) (hclock : (t :: l.map fun x => x.2.1).IsChain (· ≤ ·))
    (ht : t ≤ t₁) (hl : ∀ x ∈ l, x.2.1 ≤ t₁) (h : World.run IP_BROADCAST l w = some w') :
    ∃ t' ≤ t₁, I w' t' := by
  induction l generalizing w t with
  | nil =>
    obtain rfl := Option.some.inj h
    exact ⟨t, ht, hI⟩
  | cons x l ih =>
    obtain ⟨u, now, ev⟩ := x
    rw [World.run] at h
    split_ifs at h with hp
    obtain ⟨w₁, hs, hrest⟩ := Option.bind_eq_some_iff.mp h
    rw [List.map_cons, List.isChain_cons_cons] at hclock
    exact ih (hstep w w₁ t u now ev hI hclock.1 hp hs) hclock.2 (hl _ List.mem_cons_self)
      (fun x hx => hl x (List.mem_cons_of_mem _ hx)) hrest

/-! ### How often a request is passed on -/

/-- What the copies of a request and the ids heard say at the time `t`: the last of `n` copies was sent at least
`n - 1` times `BCAST_ID_SAVE` after the request, and its id is kept as long. -/
structure Spaced (w : World) (t : ℚ) : Prop where
  stamps : ∀ rq ∈ w.requests, rq.rq_timestamp ≤ t
  spaced : ∀ u, ∀ rq ∈ w.requests, rq.rq_src ≠ u → w.copies u rq.rq_src rq.rq_bcast_id ≠ [] →
    ∃ T ≤ t, rq.rq_timestamp + ((w.copies u rq.rq_src rq.rq_bcast_id).length - 1) * BCAST_ID_SAVE ≤ T ∧
      (T + BCAST_ID_SAVE ≤ t ∨ (rq.rq_src, rq.rq_bcast_id, T + BCAST_ID_SAVE) ∈ (w.agent u).bihead)

theorem Spaced.later (h : w.Spaced t) (ht : t ≤ now) : w.Spaced now where
  stamps rq hrq := (h.stamps rq hrq).trans ht
  spaced v rq hrq hsrc hne := by
    obtain ⟨T, hT, hle, hkept⟩ := h.spaced v rq hrq hsrc hne
    exact ⟨T, hT.trans ht, hle, hkept.imp_left fun hpast => hpast.trans ht⟩

/-- A step with requests of the agent's own, or none: what was heard is kept until it is too old. -/
theorem Spaced.asks {a' : Agent} {ms : List Message} (h : w.Spaced now) (hauth : w.Authentic)
    (hs : Stepped w w' u a' ms)
    (hnew : ∀ rq ∈ Aodv.requests ms,
      rq.Original u now ∧ (w.agent u).bid ≤ rq.rq_bcast_id)
    (hbihead : ∀ x ∈ (w.agent u).bihead, x.2.2 ≤ now ∨ x ∈ a'.bihead) : w'.Spaced now := by
  have hkept : ∀ v, ∀ x ∈ (w.agent v).bihead, x.2.2 ≤ now ∨ x ∈ (w'.agent v).bihead := by
    intro v x hx
    by_cases hv : v = u
    · rw [hv] at hx
      rw [hv, hs.self]
      exact hbihead x hx
    · rw [hs.other v hv]
      exact Or.inr hx
  have hcopies : ∀ v s b, s ≠ v → w'.copies v s b = w.copies v s b := by
    intro v s b hne
    refine hs.copies_eq fun x hx hcopy => ?_
    obtain ⟨⟨haddr, hsrc, -, -, -⟩, -⟩ := hnew x hx
    exact hne (hcopy.2.1.symm.trans (hsrc.trans (haddr.symm.trans hcopy.1)))
  refine ⟨fun rq hrq => ?_, fun v rq hrq hsrc hne => ?_⟩
  · rw [hs.requests, List.mem_append] at hrq
    rcases hrq with hrq | hrq
    · exact (hnew rq hrq).1.time.le
    · exact h.stamps rq hrq
  · rw [hcopies v _ _ hsrc] at hne ⊢
    rw [hs.requests, List.mem_append] at hrq
    rcases hrq with hrq | hrq
    · -- nobody can have a copy of a new request
      obtain ⟨x, hx⟩ := List.exists_mem_of_ne_nil _ hne
      obtain ⟨hmem, hcopy⟩ := List.mem_filter.mp hx
      obtain ⟨-, hxsrc, hxid⟩ := of_decide_eq_true hcopy
      have hlt := hauth.ids x hmem
      rw [hxsrc, hxid, (hnew rq hrq).1.src] at hlt
      exact absurd (hnew rq hrq).2 (by omega)
    · obtain ⟨T, hT, hle, hsaved⟩ := h.spaced v rq hrq hsrc hne
      refine ⟨T, hT, hle, ?_⟩
      rcases hsaved with hpast | hsaved
      · exact Or.inl hpast
      · exact hkept v _ hsaved

/-- A request is passed on by a node that has not heard it, or not for `BCAST_ID_SAVE`. -/
theorem Spaced.passes {a' : Agent} {ms : List Message} {copy : Request} (h : w.Spaced now)
    (hs : Stepped w w' u a' ms)
    (hbihead : a'.bihead = (rq.rq_src, rq.rq_bcast_id, now + BCAST_ID_SAVE) :: (w.agent u).bihead)
    (hunheard : (w.agent u).id_lookup rq.rq_src rq.rq_bcast_id = false) (hrq : rq ∈ w.requests)
    (hpassed : rq.PassedOn copy) (haddr : copy.saddr = u) (hms : Aodv.requests ms = [copy]) :
    w'.Spaced now := by
  have hreq : w'.requests = copy :: w.requests := by rw [hs.requests, hms, List.singleton_append]
  -- a request of the same source and id, that was sent before
  have hbefore : ∀ x ∈ w'.requests, ∃ y ∈ w.requests,
      x.rq_src = y.rq_src ∧ x.rq_bcast_id = y.rq_bcast_id ∧ x.rq_timestamp = y.rq_timestamp := by
    intro x hx
    rw [hreq] at hx
    rcases List.mem_cons.mp hx with rfl | hx
    · exact ⟨rq, hrq, hpassed.src, hpassed.id, hpassed.timestamp⟩
    · exact ⟨x, hx, rfl, rfl, rfl⟩
  refine ⟨fun x hx => ?_, fun v x hx hsrc hne => ?_⟩
  · obtain ⟨y, hy, -, -, htime⟩ := hbefore x hx
    exact htime ▸ h.stamps y hy
  · obtain ⟨y, hy, hysrc, hyid, htime⟩ := hbefore x hx
    rw [hysrc, hyid] at hne ⊢
    rw [hysrc] at hsrc
    rw [htime]
    by_cases hcopy : IsCopy v y.rq_src y.rq_bcast_id copy
    · -- this node's next copy: its id had been forgotten
      obtain ⟨hv, hsame, hid⟩ := hcopy
      obtain rfl : u = v := haddr.symm.trans hv
      have hcopies : w'.copies u y.rq_src y.rq_bcast_id = copy :: w.copies u y.rq_src y.rq_bcast_id := by
        have hpos : decide (IsCopy u y.rq_src y.rq_bcast_id copy) = true := decide_eq_true ⟨hv, hsame, hid⟩
        rw [hs.copies, hms, List.filter_cons, if_pos hpos]
        rfl
      refine ⟨now, le_rfl, ?_, Or.inr ?_⟩
      · rw [hcopies, List.length_cons]
        push_cast
        rw [add_sub_cancel_right]
        by_cases hnil : w.copies u y.rq_src y.rq_bcast_id = []
        · rw [hnil]
          simpa using h.stamps y hy
        · obtain ⟨T, -, hle, hsaved⟩ := h.spaced u y hy hsrc hnil
          rcases hsaved with hpast | hsaved
          · linarith
          · rw [← hysrc, ← hyid] at hsaved
            exfalso
            have hlook : (w.agent u).id_lookup rq.rq_src rq.rq_bcast_id = true := by
              refine List.any_eq_true.mpr ⟨_, hsaved, ?_⟩
              rw [hysrc, hyid, ← hsame, ← hid, hpassed.src, hpassed.id]
              simp
            rw [hunheard] at hlook
            exact Bool.false_ne_true hlook
      · rw [hs.self, hbihead, ← hsame, ← hid, hpassed.src, hpassed.id]
        exact List.mem_cons_self
    · have hcopies : w'.copies v y.rq_src y.rq_bcast_id = w.copies v y.rq_src y.rq_bcast_id := by
        refine hs.copies_eq fun z hz => ?_
        rw [hms, List.mem_singleton] at hz
        rwa [hz]
      rw [hcopies] at hne ⊢
      obtain ⟨T, hT, hle, hsaved⟩ := h.spaced v y hy hsrc hne
      refine ⟨T, hT, hle, hsaved.imp_right fun hmem => ?_⟩
      by_cases hv : v = u
      · rw [hv] at hmem
        rw [hv, hs.self, hbihead]
        exact List.mem_cons_of_mem _ hmem
      · rw [hs.other v hv]
        exact hmem

/-- **Every step keeps the copies of a request apart.** -/
theorem Spaced.step (h : w.Spaced t) (ht : t ≤ now) (hauth : w.Authentic) (hp : ev.Possible w u)
    (hs : w.step IP_BROADCAST u now ev = some w') : w'.Spaced now := by
  have hnow := h.later ht
  obtain ⟨a', ms, hr, hstep⟩ := step_eq_some hs
  have hnone : ∀ {ms : List Message}, Aodv.requests ms = [] → ∀ rq ∈ Aodv.requests ms,
      rq.Original u now ∧ (w.agent u).bid ≤ rq.rq_bcast_id := by
    intro ms hms rq hrq
    rw [hms] at hrq
    exact absurd hrq List.not_mem_nil
  rcases Agent.react_cases hr with hasks | ⟨rfl, rfl⟩ | ⟨rq, rfl, -, hunheard, hheard, hsent⟩
  · refine hnow.asks hauth hstep
      (fun rq hrq => ⟨hauth.index u ▸ hasks.original rq hrq, (hasks.id_mem hrq).1⟩) fun x hx => ?_
    rw [hasks.bihead]
    exact Or.inr hx
  · refine hnow.asks hauth hstep (hnone rfl) fun x hx => ?_
    by_cases hold : x.2.2 ≤ now
    · exact Or.inl hold
    · exact Or.inr (List.mem_filter.mpr ⟨hx, decide_eq_true (not_le.mp hold)⟩)
  · obtain ⟨-, hrest⟩ := Prod.mk.inj hheard
    obtain ⟨-, hbihead⟩ := Prod.mk.inj hrest
    rcases hsent with hms | ⟨-, n, hn, hms⟩
    · refine hnow.asks hauth hstep (hnone hms) fun x hx => ?_
      rw [show a'.bihead = _ from hbihead]
      exact Or.inr (List.mem_cons_of_mem _ hx)
    · have hrq : rq ∈ w.requests := mem_requests.mpr hp
      have hbounds := hauth.bounds rq hrq
      unfold NETWORK_DIAMETER at hbounds
      rw [hauth.index] at hms
      exact hnow.passes hstep hbihead hunheard hrq (passOn_passedOn u (by omega) hn) rfl hms

theorem spaced_init (t : ℚ) : World.init.Spaced t where
  stamps _ hrq := absurd hrq List.not_mem_nil
  spaced _ _ hrq := absurd hrq List.not_mem_nil

/-- **Every copy of a request is genuine**, in every run: it has come from node to node, with one more on its
hop count each time, from the one request that its source sent with this id, and it has not gone further than
the diameter of the network, so that no hop count wraps. -/
theorem requests_traced {l : List (ℤ × ℚ × Event)} (h : World.run IP_BROADCAST l World.init = some w) :
    ∀ rq ∈ w.requests, (1 ≤ rq.rq_hop_count ∧ 1 ≤ rq.ttl_ ∧ rq.rq_hop_count + rq.ttl_ ≤ NETWORK_DIAMETER + 1) ∧
      w.Traced rq := by
  have hreach : Relation.ReflTransGen (AnyStep IP_BROADCAST) World.init w :=
    run_reaches (fun w w' u now ev _ hp hs => ⟨u, now, ev, hp, hs⟩) h
  have hauth : w.Authentic := by
    clear h
    induction hreach with
    | refl => exact authentic_init
    | tail _ hstep ih =>
      obtain ⟨u, now, ev, hp, hs⟩ := hstep
      exact ih.step hp hs
  exact fun rq hrq => ⟨hauth.bounds rq hrq, hauth.traced rq hrq⟩

/-- **How often a node sends a request**, in every run in which the clock does not go back: the last of `n`
copies is sent at least `n - 1` times `BCAST_ID_SAVE` after the request.  Within that time of the request every
node has sent it at most once. -/
theorem floods_bounded {l : List (ℤ × ℚ × Event)} (h : World.run IP_BROADCAST l World.init = some w)
    (hclock : (l.map fun x => x.2.1).IsChain (· ≤ ·)) (hl : ∀ x ∈ l, x.2.1 ≤ t) :
    ∀ rq ∈ w.requests, ∀ u,
      ((w.copies u rq.rq_src rq.rq_bcast_id).length - 1) * BCAST_ID_SAVE ≤ t - rq.rq_timestamp ∧
        (t < rq.rq_timestamp + BCAST_ID_SAVE → (w.copies u rq.rq_src rq.rq_bcast_id).length ≤ 1) := by
  intro rq hrq u
  obtain ⟨t₀, ht₀, hchain⟩ : ∃ t₀ ≤ t, (t₀ :: l.map fun x => x.2.1).IsChain (· ≤ ·) := by
    cases l with
    | nil => exact ⟨t, le_rfl, List.isChain_singleton _⟩
    | cons x l =>
      refine ⟨x.2.1, hl x List.mem_cons_self, ?_⟩
      rw [List.map_cons, List.isChain_cons_cons]
      exact ⟨le_rfl, hclock⟩
  obtain ⟨t', ht', hauth, hspaced⟩ := run_keeps (I := fun w t => w.Authentic ∧ w.Spaced t)
    (fun w w' t u now ev hI ht hp hs => ⟨hI.1.step hp hs, hI.2.step ht hI.1 hp hs⟩)
    ⟨authentic_init, spaced_init t₀⟩ hchain ht₀ hl h
  have hstamp := hspaced.stamps rq hrq
  have hsave : (0 : ℚ) < BCAST_ID_SAVE := by decide
  have hbound : ((w.copies u rq.rq_src rq.rq_bcast_id).length - 1) * BCAST_ID_SAVE ≤ t - rq.rq_timestamp := by
    by_cases hsrc : rq.rq_src = u
    · obtain ⟨o, ho, -, -⟩ := hauth.traced rq hrq
      rw [← hsrc, ho, List.length_singleton]
      simp only [Nat.cast_one, sub_self, zero_mul]
      linarith
    · by_cases hnil : w.copies u rq.rq_src rq.rq_bcast_id = []
      · rw [hnil, List.length_nil]
        simp only [Nat.cast_zero]
        linarith
      · obtain ⟨T, hT, hle, -⟩ := hspaced.spaced u rq hrq hsrc hnil
        linarith
  refine ⟨hbound, fun hsoon => ?_⟩
  by_contra hmany
  have hlen : (2 : ℚ) ≤ (w.copies u rq.rq_src rq.rq_bcast_id).length := by exact_mod_cast (by omega)
  nlinarith

/-- Node 1 asks for a route to node 0.  Node 2 passes the request on, forgets it, and does so again. -/
def heardTwice : List (ℤ × ℚ × Event) :=
  [(1, 0, .packet ⟨1, 0, 0, 0, 0⟩), (2, 0, .message (.rreq ⟨1, 1, 0, 0, 1, 4, 0, 1, 30⟩)),
    (3, 0, .message (.rreq ⟨2, 1, 0, 0, 1, 4, 0, 2, 29⟩)), (2, 6, .purgeIds),
    (2, 6, .message (.rreq ⟨1, 1, 0, 0, 1, 4, 0, 1, 30⟩))]

/-- The copy of node 3 has come over node 2. -/
theorem requests_traced_heardTwice : ∃ w : World, ⟨3, 1, 0, 0, 1, 4, 0, 3, 28⟩ ∈ w.requests ∧
    w.Traced ⟨3, 1, 0, 0, 1, 4, 0, 3, 28⟩ := by
  have hrun : (World.run (-1) heardTwice World.init).map
      (fun w => decide ((⟨3, 1, 0, 0, 1, 4, 0, 3, 28⟩ : Request) ∈ w.requests)) = some true := by decide +kernel
  obtain ⟨w, hw, hmem⟩ := Option.map_eq_some_iff.mp hrun
  have hrq := of_decide_eq_true hmem
  exact ⟨w, hrq, (requests_traced hw _ hrq).2⟩

/-- After `BCAST_ID_SAVE` node 2 has sent two copies, which is what the bound allows. -/
theorem floods_bounded_heardTwice : ∃ w : World, (w.copies 2 1 1).length = 2 ∧
    ((w.copies 2 1 1).length - 1) * BCAST_ID_SAVE ≤ 6 := by
  have hrun : (World.run (-1) heardTwice World.init).map
      (fun w => (decide ((⟨1, 1, 0, 0, 1, 4, 0, 1, 30⟩ : Request) ∈ w.requests), (w.copies 2 1 1).length)) =
        some (true, 2) := by decide +kernel
  obtain ⟨w, hw, hmem⟩ := Option.map_eq_some_iff.mp hrun
  obtain ⟨hrq, hlen⟩ := Prod.mk.inj hmem
  have h := (floods_bounded (t := 6) hw (by decide) (by decide) _ (of_decide_eq_true hrq) 2).1
  exact ⟨w, hlen, h.trans (by norm_num)⟩

end World

end Ns2.Aodv
