import Ns2.LinkState.Routing
import Ns2.Lib.Run

/-!
# Newer announcements

The sequence numbers of a node's announcements grow and wrap around, and copies of them arrive in
any order.  Two places keep the number of the newest announcement of each node, and tell by it
whether a copy is of a newer one: the history of messages, and the database.

Here an announcement has a number that does not wrap around; the message carries it modulo 2^32.

* `moreUpToDate_ahead`, `moreUpToDate_behind` — the test for a newer, and for an older number.
* `Log` — what has been announced and what has arrived; `Log.Legal` — numbers grow by less than
  2^30, and copies are late by less than 2^30 numbers.
* `Keeper` — a place that keeps the newest number, with its test.
* `Log.OneSide` — no multiple of 2^32 lies between a copy and a newer one that has arrived.
* `Keeper.tells_iff` — the test is right throughout a run exactly when `Log.OneSide` is.
* `newer_iff_oneSide` — the history and the database.
-/

namespace Ns2.LinkState

/-! ## The test -/

/-- A number that is ahead by less than half of the range. -/
theorem moreUpToDate_ahead {m n : ℕ} (h : m < n) (hn : n < m + 2 ^ 31) :
    moreUpToDate (UInt32.ofNat m) (UInt32.ofNat n) = true := by
  rw [moreUpToDate, Bool.or_eq_true, decide_eq_true_eq, decide_eq_true_eq, UInt32.lt_iff_toNat_lt,
    UInt32.lt_iff_toNat_lt, UInt32.toNat_sub, UInt32.toNat_ofNat', UInt32.toNat_ofNat']
  have hthr : LS_WRAPAROUND_THRESHOLD.toNat = 1073741824 := rfl
  omega

/-- A number that is not ahead, and behind by less than the threshold: it is taken for a newer one
when the numbers wrap around in between. -/
theorem moreUpToDate_behind {m n : ℕ} (h : n ≤ m) (hm : m < n + 2 ^ 30) :
    moreUpToDate (UInt32.ofNat m) (UInt32.ofNat n) = true ↔ n / 2 ^ 32 ≠ m / 2 ^ 32 := by
  rw [moreUpToDate, Bool.or_eq_true, decide_eq_true_eq, decide_eq_true_eq, UInt32.lt_iff_toNat_lt,
    UInt32.lt_iff_toNat_lt, UInt32.toNat_sub, UInt32.toNat_ofNat', UInt32.toNat_ofNat']
  have hthr : LS_WRAPAROUND_THRESHOLD.toNat = 1073741824 := rfl
  omega

/-! ## Announcements and copies -/

/-- Something happens to the announcements of a node. -/
inductive Event where
  /-- The node makes an announcement with a number. -/
  | announce (origin : ℤ) (n : ℕ)
  /-- A copy of the announcement arrives. -/
  | arrive (origin : ℤ) (n : ℕ)

/-- The numbers announced by each node, and those that have arrived; the last ones first. -/
structure Log where
  announced : ℤ → List ℕ
  arrived : ℤ → List ℕ

namespace Log

/-- Nothing has been announced. -/
def empty : Log := ⟨fun _ => [], fun _ => []⟩

/-- The log after an event. -/
def step (s : Log) : Event → Log
  | .announce origin n =>
    { s with announced := Function.update s.announced origin (n :: s.announced origin) }
  | .arrive origin n =>
    { s with arrived := Function.update s.arrived origin (n :: s.arrived origin) }

/-- A number is ahead of the last one by less than 2^30, and by then copies of the announcements
2^30 or more before it have arrived; a copy is of an announcement less than 2^30 before the last
one. -/
def Legal (s : Log) : Event → Prop
  | .announce origin n =>
    (∀ last ∈ (s.announced origin).head?, last < n ∧ n < last + 2 ^ 30) ∧
      ∀ k ∈ s.announced origin, k + 2 ^ 30 ≤ n → k ∈ s.arrived origin
  | .arrive origin n =>
    n ∈ s.announced origin ∧ ∀ last ∈ (s.announced origin).head?, last < n + 2 ^ 30

/-- No multiple of 2^32 lies between a copy and a newer one that has arrived before it. -/
def OneSide (s : Log) : Event → Prop
  | .announce _ _ => True
  | .arrive origin n => ∀ m ∈ s.arrived origin, n < m → n / 2 ^ 32 = m / 2 ^ 32

instance decidableLegal (s : Log) : ∀ e, Decidable (s.Legal e)
  | .announce origin n => inferInstanceAs (Decidable
      ((∀ last ∈ (s.announced origin).head?, last < n ∧ n < last + 2 ^ 30) ∧
        ∀ k ∈ s.announced origin, k + 2 ^ 30 ≤ n → k ∈ s.arrived origin))
  | .arrive origin n => inferInstanceAs (Decidable
      (n ∈ s.announced origin ∧ ∀ last ∈ (s.announced origin).head?, last < n + 2 ^ 30))

instance decidableOneSide (s : Log) : ∀ e, Decidable (s.OneSide e)
  | .announce _ _ => isTrue trivial
  | .arrive origin n => inferInstanceAs (Decidable
      (∀ m ∈ s.arrived origin, n < m → n / 2 ^ 32 = m / 2 ^ 32))

end Log

/-! ## Keepers -/

/-- A place that keeps the sequence number of the newest announcement of each node. -/
structure Keeper (σ : Type) where
  /-- The number that is kept for a node. -/
  kept : σ → ℤ → Option UInt32
  /-- A copy arrives: what is kept afterwards, and whether it is accepted as newer. -/
  offer : σ → ℤ → ℕ → σ × Bool
  /-- The test. -/
  offer_snd : ∀ s origin n, (offer s origin n).2 =
    (kept s origin).elim true (moreUpToDate · (UInt32.ofNat n))
  /-- The number of an accepted copy is kept. -/
  kept_offer : ∀ s origin n a, kept (offer s origin n).1 a =
    if a = origin ∧ (offer s origin n).2 = true then some (UInt32.ofNat n) else kept s a

/-- A keeper, the events so far, and the numbers it has accepted. -/
structure KeeperState (σ : Type) where
  log : Log
  place : σ
  accepted : ℤ → List ℕ

namespace Keeper

variable {σ : Type} (K : Keeper σ)

/-- The state after an event. -/
def step (s : KeeperState σ) : Event → KeeperState σ
  | .announce origin n => { s with log := s.log.step (.announce origin n) }
  | .arrive origin n =>
    { log := s.log.step (.arrive origin n)
      place := (K.offer s.place origin n).1
      accepted := if (K.offer s.place origin n).2 then
        Function.update s.accepted origin (n :: s.accepted origin) else s.accepted }

/-- A copy is accepted exactly when its number is newer than every one accepted so far. -/
def Tells (s : KeeperState σ) : Event → Prop
  | .announce _ _ => True
  | .arrive origin n =>
    (K.offer s.place origin n).2 = true ↔ ∀ m ∈ s.accepted origin, m < n

/-- `m` is the newest number that has arrived from a node, and the one that is kept. -/
structure Newest (s : KeeperState σ) (origin : ℤ) (m : ℕ) : Prop where
  kept : K.kept s.place origin = some (UInt32.ofNat m)
  accepted : m ∈ s.accepted origin
  le : ∀ k ∈ s.log.arrived origin, k ≤ m
  /-- The last announcement is not too far ahead. -/
  near : ∀ last ∈ (s.log.announced origin).head?, last < m + 2 ^ 31

/-- **The invariant.** -/
structure Inv (s : KeeperState σ) : Prop where
  /-- Numbers grow by less than 2^30. -/
  chain : ∀ origin, (s.log.announced origin).IsChain fun later n => n < later ∧ later < n + 2 ^ 30
  /-- What is accepted has arrived. -/
  accepted : ∀ origin, s.accepted origin ⊆ s.log.arrived origin
  /-- What arrives has been announced. -/
  arrived : ∀ origin, s.log.arrived origin ⊆ s.log.announced origin
  /-- The newest number is kept. -/
  newest : ∀ origin, K.kept s.place origin = none ∧ s.log.arrived origin = [] ∨
    ∃ m, K.Newest s origin m

variable {K} {s : KeeperState σ} {origin : ℤ} {m n : ℕ}

/-! ## Numbers announced -/

/-- No announcement is ahead of the last one. -/
theorem Inv.le_last (h : K.Inv s) (hn : n ∈ s.log.announced origin) {last : ℕ}
    (hlast : last ∈ (s.log.announced origin).head?) : n ≤ last := by
  have hpair : (s.log.announced origin).Pairwise fun later n => n < later :=
    List.isChain_iff_pairwise.mp ((h.chain origin).imp fun _ _ hR => hR.1)
  obtain ⟨l, hl⟩ := List.head?_eq_some_iff.mp hlast
  rw [hl] at hn hpair
  rcases List.mem_cons.mp hn with rfl | hn
  · exact le_rfl
  · exact (List.rel_of_pairwise_cons hpair hn).le

/-- A copy that has been announced is not ahead of the last announcement. -/
theorem Inv.exists_last (h : K.Inv s) (hn : n ∈ s.log.announced origin) :
    ∃ last ∈ (s.log.announced origin).head?, n ≤ last := by
  cases hl : s.log.announced origin with
  | nil =>
    rw [hl] at hn
    exact absurd hn List.not_mem_nil
  | cons last l =>
    refine ⟨last, rfl, h.le_last hn ?_⟩
    rw [hl]
    rfl

/-- If the announcements far behind a new number have arrived, then the newest arrived is not too
far behind it: the first one that is far behind is close to one that is not. -/
theorem lt_of_chain {l : List ℕ} {x : ℕ}
    (hchain : (x :: l).IsChain fun later n => n < later ∧ later < n + 2 ^ 30) (hx : n < x + 2 ^ 30)
    (hm : ∃ k ∈ x :: l, k ≤ m) (harr : ∀ k ∈ x :: l, k + 2 ^ 30 ≤ n → k ≤ m) :
    n < m + 2 ^ 31 := by
  induction l generalizing x with
  | nil =>
    obtain ⟨k, hk, hkm⟩ := hm
    rw [List.mem_singleton] at hk
    omega
  | cons y l ih =>
    obtain ⟨⟨hyx, hxy⟩, hchain⟩ := List.isChain_cons_cons.mp hchain
    by_cases hy : n < y + 2 ^ 30
    · refine ih hchain hy ?_ fun k hk => harr k (List.mem_cons_of_mem x hk)
      obtain ⟨k, hk, hkm⟩ := hm
      rcases List.mem_cons.mp hk with rfl | hk
      · exact ⟨y, List.mem_cons_self, by omega⟩
      · exact ⟨k, hk, hkm⟩
    · have hym := harr y (List.mem_cons_of_mem x List.mem_cons_self) (by omega)
      omega

/-! ## One event -/

/-- An announcement. -/
theorem Inv.announce (h : K.Inv s) (hlegal : s.log.Legal (.announce origin n)) :
    K.Inv (K.step s (.announce origin n)) := by
  obtain ⟨hgap, hdue⟩ := hlegal
  have hother : ∀ a, a ≠ origin → (K.step s (.announce origin n)).log.announced a =
      s.log.announced a := fun a ha => Function.update_of_ne ha _ _
  have hself : (K.step s (.announce origin n)).log.announced origin =
      n :: s.log.announced origin := Function.update_self _ _ _
  refine ⟨fun a => ?_, h.accepted, fun a => ?_, fun a => ?_⟩
  · by_cases ha : a = origin
    · subst ha
      rw [hself]
      exact List.isChain_cons.mpr ⟨hgap, h.chain a⟩
    · rw [hother a ha]
      exact h.chain a
  · by_cases ha : a = origin
    · subst ha
      rw [hself]
      exact fun k hk => List.mem_cons_of_mem n (h.arrived a hk)
    · rw [hother a ha]
      exact h.arrived a
  · rcases h.newest a with hnone | ⟨m, hm⟩
    · exact Or.inl hnone
    · refine Or.inr ⟨m, hm.kept, hm.accepted, hm.le, ?_⟩
      by_cases ha : a = origin
      · subst ha
        rw [hself]
        intro last hlast
        obtain rfl := Option.some.inj hlast
        have hmem := h.arrived a (h.accepted a hm.accepted)
        cases hl : s.log.announced a with
        | nil =>
          rw [hl] at hmem
          exact absurd hmem List.not_mem_nil
        | cons x l =>
          have hchain := h.chain a
          rw [hl] at hchain hmem hgap hdue
          exact lt_of_chain hchain (hgap x rfl).2 ⟨m, hmem, le_rfl⟩
            fun k hk hkn => hm.le k (hdue k hk hkn)
      · rw [hother a ha]
        exact hm.near

/-- The test, when there is a newest number: it is right exactly when the numbers do not wrap around
between an old copy and that number. -/
theorem Newest.offer_snd (h : K.Inv s) (hm : K.Newest s origin m)
    (hlegal : s.log.Legal (.arrive origin n)) :
    (m < n → (K.offer s.place origin n).2 = true) ∧
      (n ≤ m → ((K.offer s.place origin n).2 = true ↔ n / 2 ^ 32 ≠ m / 2 ^ 32)) := by
  obtain ⟨last, hlast, hle⟩ := h.exists_last hlegal.1
  have hlate := hlegal.2 last hlast
  have hnear := hm.near last hlast
  have hmlast := h.le_last (h.arrived origin (h.accepted origin hm.accepted)) hlast
  rw [K.offer_snd, hm.kept, Option.elim_some]
  exact ⟨fun hlt => moreUpToDate_ahead hlt (by omega), fun hge => moreUpToDate_behind hge (by omega)⟩

/-- Only the newest number matters for the side. -/
theorem Newest.oneSide_iff (h : K.Inv s) (hm : K.Newest s origin m) :
    s.log.OneSide (.arrive origin n) ↔ (n < m → n / 2 ^ 32 = m / 2 ^ 32) := by
  constructor
  · exact fun hside => hside m (h.accepted origin hm.accepted)
  · intro hside k hk hnk
    have hkm := hm.le k hk
    have heq := hside (by omega)
    omega

/-- **One copy**: the test is right exactly when there is no wrap in between. -/
theorem Inv.tells_iff (h : K.Inv s) (e : Event) (hlegal : s.log.Legal e) :
    K.Tells s e ↔ s.log.OneSide e := by
  cases e with
  | announce origin n => exact Iff.rfl
  | arrive origin n =>
    rcases h.newest origin with ⟨hnone, hempty⟩ | ⟨m, hm⟩
    · have hacc : s.accepted origin = [] := List.eq_nil_of_subset_nil (hempty ▸ h.accepted origin)
      refine iff_of_true ?_ ?_
      · rw [Tells, K.offer_snd, hnone, hacc]
        simp
      · intro k hk
        rw [hempty] at hk
        exact absurd hk List.not_mem_nil
    · obtain ⟨h1, h2⟩ := hm.offer_snd h hlegal
      rw [hm.oneSide_iff h, Tells]
      rcases lt_or_ge m n with hlt | hge
      · refine iff_of_true ?_ fun hnm => absurd hlt (by omega)
        exact iff_of_true (h1 hlt) fun k hk => (hm.le k (h.accepted origin hk)).trans_lt hlt
      · have hnot : ¬ ∀ k ∈ s.accepted origin, k < n := fun hall =>
          absurd (hall m hm.accepted) (by omega)
        rw [iff_false_right hnot, h2 hge, not_not]
        constructor
        · exact fun heq _ => heq
        · intro hside
          rcases hge.lt_or_eq with hlt | rfl
          · exact hside hlt
          · rfl

/-- A copy of a node's announcement leaves the other nodes alone. -/
theorem Newest.other {a : ℤ} (hm : K.Newest s a m) (ha : a ≠ origin) (n : ℕ) :
    K.Newest (K.step s (.arrive origin n)) a m := by
  have harr : (K.step s (.arrive origin n)).log.arrived a = s.log.arrived a :=
    Function.update_of_ne ha _ _
  refine ⟨?_, ?_, ?_, hm.near⟩
  · exact (K.kept_offer _ _ _ _).trans ((if_neg fun h => ha h.1).trans hm.kept)
  · show m ∈ (if (K.offer s.place origin n).2 then
        Function.update s.accepted origin (n :: s.accepted origin) else s.accepted) a
    split_ifs
    · rw [Function.update_of_ne ha]
      exact hm.accepted
    · exact hm.accepted
  · rw [harr]
    exact hm.le

/-- An accepted copy is the newest one. -/
theorem newest_of_accepted (hlegal : s.log.Legal (.arrive origin n))
    (hacc : (K.offer s.place origin n).2 = true) (hle : ∀ k ∈ s.log.arrived origin, k ≤ n) :
    K.Newest (K.step s (.arrive origin n)) origin n := by
  have harr : (K.step s (.arrive origin n)).log.arrived origin = n :: s.log.arrived origin :=
    Function.update_self _ _ _
  refine ⟨?_, ?_, ?_, fun last hlast => ?_⟩
  · exact (K.kept_offer _ _ _ _).trans (if_pos ⟨rfl, hacc⟩)
  · show n ∈ (if (K.offer s.place origin n).2 then
        Function.update s.accepted origin (n :: s.accepted origin) else s.accepted) origin
    rw [if_pos hacc, Function.update_self]
    exact List.mem_cons_self
  · rw [harr]
    intro k hk
    rcases List.mem_cons.mp hk with rfl | hk
    · exact le_rfl
    · exact hle k hk
  · have hlate := hlegal.2 last hlast
    omega

/-- A copy that is not accepted changes nothing. -/
theorem Newest.refused (hm : K.Newest s origin m) (hle : n ≤ m)
    (hacc : (K.offer s.place origin n).2 ≠ true) :
    K.Newest (K.step s (.arrive origin n)) origin m := by
  have harr : (K.step s (.arrive origin n)).log.arrived origin = n :: s.log.arrived origin :=
    Function.update_self _ _ _
  refine ⟨?_, ?_, ?_, hm.near⟩
  · exact (K.kept_offer _ _ _ _).trans ((if_neg fun h => hacc h.2).trans hm.kept)
  · show m ∈ (if (K.offer s.place origin n).2 then
        Function.update s.accepted origin (n :: s.accepted origin) else s.accepted) origin
    rw [if_neg hacc]
    exact hm.accepted
  · rw [harr]
    intro k hk
    rcases List.mem_cons.mp hk with rfl | hk
    · exact hle
    · exact hm.le k hk

/-- A copy on the right side keeps the invariant. -/
theorem Inv.arrive (h : K.Inv s) (hlegal : s.log.Legal (.arrive origin n))
    (hside : s.log.OneSide (.arrive origin n)) : K.Inv (K.step s (.arrive origin n)) := by
  have hother : ∀ a, a ≠ origin → (K.step s (.arrive origin n)).log.arrived a =
      s.log.arrived a := fun a ha => Function.update_of_ne ha _ _
  have hself : (K.step s (.arrive origin n)).log.arrived origin = n :: s.log.arrived origin :=
    Function.update_self _ _ _
  refine ⟨h.chain, fun a => ?_, fun a => ?_, fun a => ?_⟩
  · show (if (K.offer s.place origin n).2 then
        Function.update s.accepted origin (n :: s.accepted origin) else s.accepted) a ⊆ _
    by_cases ha : a = origin
    · subst ha
      rw [hself]
      split_ifs
      · rw [Function.update_self]
        exact List.cons_subset_cons n (h.accepted a)
      · exact fun k hk => List.mem_cons_of_mem n (h.accepted a hk)
    · rw [hother a ha]
      split_ifs
      · rw [Function.update_of_ne ha]
        exact h.accepted a
      · exact h.accepted a
  · by_cases ha : a = origin
    · subst ha
      rw [hself]
      exact List.cons_subset.mpr ⟨hlegal.1, h.arrived a⟩
    · rw [hother a ha]
      exact h.arrived a
  · by_cases ha : a = origin
    · subst ha
      right
      rcases h.newest a with ⟨hnone, hempty⟩ | ⟨m, hm⟩
      · refine ⟨n, newest_of_accepted hlegal ?_ fun k hk => ?_⟩
        · rw [K.offer_snd, hnone]
          rfl
        · rw [hempty] at hk
          exact absurd hk List.not_mem_nil
      · obtain ⟨h1, h2⟩ := hm.offer_snd h hlegal
        rcases lt_or_ge m n with hlt | hge
        · exact ⟨n, newest_of_accepted hlegal (h1 hlt) fun k hk => (hm.le k hk).trans hlt.le⟩
        · refine ⟨m, hm.refused hge fun hacc => (h2 hge).mp hacc ?_⟩
          rcases hge.lt_or_eq with hlt | rfl
          · exact (hm.oneSide_iff h).mp hside hlt
          · rfl
    · rcases h.newest a with ⟨hnone, hempty⟩ | ⟨m, hm⟩
      · left
        rw [hother a ha]
        exact ⟨(K.kept_offer _ _ _ _).trans ((if_neg fun h => ha h.1).trans hnone), hempty⟩
      · exact Or.inr ⟨m, hm.other ha n⟩

/-! ## Runs -/

/-- The start, with a place that keeps nothing. -/
def start (place : σ) : KeeperState σ := ⟨Log.empty, place, fun _ => []⟩

theorem inv_start {place : σ} (hplace : ∀ a, K.kept place a = none) : K.Inv (start place) :=
  ⟨fun _ => List.isChain_nil, fun _ => List.nil_subset _, fun _ => List.nil_subset _,
    fun a => Or.inl ⟨hplace a, rfl⟩⟩

theorem log_step (s : KeeperState σ) (e : Event) : (K.step s e).log = s.log.step e := by
  cases e with
  | announce origin n => rfl
  | arrive origin n => rfl

/-- The runs of legal events from a state of the invariant. -/
theorem tells_iff_of_inv (l : List Event) (s : KeeperState σ) (h : K.Inv s)
    (hlegal : Run.AllSteps Log.step Log.Legal s.log l) :
    Run.AllSteps K.step K.Tells s l ↔ Run.AllSteps Log.step Log.OneSide s.log l := by
  induction l generalizing s with
  | nil => exact Iff.rfl
  | cons e l ih =>
    obtain ⟨he, hl⟩ := hlegal
    rw [Run.allSteps_cons, Run.allSteps_cons, h.tells_iff e he]
    refine and_congr_right fun hside => ?_
    rw [← log_step (K := K)] at hl ⊢
    refine ih _ ?_ hl
    cases e with
    | announce origin n => exact h.announce he
    | arrive origin n => exact h.arrive he hside

/-- **The test is right throughout a run** exactly when no multiple of 2^32 ever lies between a copy
and a newer one that has arrived before it. -/
theorem tells_iff {place : σ} (hplace : ∀ a, K.kept place a = none) (l : List Event)
    (hlegal : Run.AllSteps Log.step Log.Legal Log.empty l) :
    Run.AllSteps K.step K.Tells (start place) l ↔
      Run.AllSteps Log.step Log.OneSide Log.empty l :=
  tells_iff_of_inv l _ (inv_start hplace) hlegal

end Keeper

/-! ## The history and the database -/

/-- The history of messages, with `isNewMessage`. -/
def historyKeeper : Keeper LsMessageHistory where
  kept h origin := h[origin]?
  offer h origin n := h.isNewMessage origin (UInt32.ofNat n)
  offer_snd h origin n := by
    rw [isNewMessage_snd, LsMessageHistory.isNew]
    cases h[origin]? with
    | none => rfl
    | some old => rfl
  kept_offer h origin n a := by
    rw [LsMessageHistory.isNewMessage]
    cases h[origin]? with
    | none => simp [getElem?_lsInsert]
    | some old =>
      cases hnew : moreUpToDate old (UInt32.ofNat n) with
      | true => simp [getElem?_lsInsert, hnew]
      | false => simp [hnew]

/-- What `receiveTopo` does to the database with a record of another node. -/
def replaceRecord (map : LsMap ℤ (List LsLinkState)) (origin : ℤ) (lsl : List LsLinkState) :
    LsMap ℤ (List LsLinkState) × Bool :=
  if LsContext.recordNewer map[origin]? lsl = some true then (map.insert origin lsl, true)
  else (map, false)

/-- The links that a node announces with a number: there is one, and all carry the number. -/
structure Announces (record : ℤ → ℕ → List LsLinkState) : Prop where
  ne_nil : ∀ origin n, record origin n ≠ []
  number : ∀ origin n, ∀ link ∈ record origin n, link.sequenceNumber_ = UInt32.ofNat n

/-- The first link of a record has its number. -/
theorem Announces.eq_cons {record : ℤ → ℕ → List LsLinkState} (h : Announces record) (origin : ℤ)
    (n : ℕ) : ∃ link rest, record origin n = link :: rest ∧ link.sequenceNumber_ = UInt32.ofNat n := by
  obtain ⟨link, rest, hrec⟩ := List.exists_cons_of_ne_nil (h.ne_nil origin n)
  exact ⟨link, rest, hrec, h.number origin n link (hrec ▸ List.mem_cons_self)⟩

/-- The number of a record: that of its first link. -/
def recordNumber (record : Option (List LsLinkState)) : Option UInt32 :=
  (record.bind List.head?).map LsLinkState.sequenceNumber_

/-- The database, with the test of `receiveTopo`. -/
def recordKeeper (record : ℤ → ℕ → List LsLinkState) (h : Announces record) :
    Keeper (LsMap ℤ (List LsLinkState)) where
  kept map origin := recordNumber map[origin]?
  offer map origin n := replaceRecord map origin (record origin n)
  offer_snd map origin n := by
    obtain ⟨link, rest, hrec, hnum⟩ := h.eq_cons origin n
    rw [replaceRecord, hrec]
    rcases map[origin]? with _ | _ | ⟨mine, old⟩
    · simp [LsContext.recordNewer, recordNumber]
    · simp [LsContext.recordNewer, recordNumber]
    · cases hnew : moreUpToDate mine.sequenceNumber_ (UInt32.ofNat n) with
      | true => simp [LsContext.recordNewer, recordNumber, hnum, hnew]
      | false => simp [LsContext.recordNewer, recordNumber, hnum, hnew]
  kept_offer map origin n a := by
    obtain ⟨link, rest, hrec, hnum⟩ := h.eq_cons origin n
    rw [replaceRecord]
    by_cases hnew : LsContext.recordNewer map[origin]? (record origin n) = some true
    · rw [if_pos hnew]
      by_cases ha : a = origin
      · simp [ha, recordNumber, hrec, hnum]
      · simp [ha, getElem?_lsInsert]
    · simp [hnew]

/-- Regenerating an announcement leaves the database alone. -/
theorem database_regenAndSend {c d : LsContext} {exception origin : ℤ} {lsl : List LsLinkState}
    (h : c.regenAndSend exception origin lsl = some d) :
    d.routing.linkStateDatabase_ = c.routing.linkStateDatabase_ := by
  have hpeers : ∀ (msg : LsMessage) (peers : List ℤ) (c : LsContext),
      (peers.foldl (LsContext.regenTo exception origin msg) c).routing.linkStateDatabase_ =
        c.routing.linkStateDatabase_ := by
    intro msg peers
    induction peers with
    | nil => exact fun c => rfl
    | cons peerId peers ih =>
      intro c
      rw [List.foldl_cons, ih, LsContext.regenTo]
      split_ifs
      · rfl
      · rfl
  cases lsl with
  | nil => cases h
  | cons first rest =>
    obtain ⟨⟨ctr, msg⟩, -, h⟩ := Option.bind_eq_some_iff.mp h
    obtain rfl := Option.some.inj h
    exact hpeers _ _ _

/-- **The database of `receiveTopo`** changes as `replaceRecord` says, and so does `changed`. -/
theorem receiveRecord_database {neighborId : ℤ} {r r' : LsContext × Bool}
    {record : ℤ × List LsLinkState} (h : LsContext.receiveRecord neighborId r record = some r')
    (hother : record.1 ≠ r.1.routing.myNodeId_) :
    r'.1.routing.linkStateDatabase_.map =
        (replaceRecord r.1.routing.linkStateDatabase_.map record.1 record.2).1 ∧
      r'.2 = (r.2 || (replaceRecord r.1.routing.linkStateDatabase_.map record.1 record.2).2) := by
  rw [LsContext.receiveRecord, if_neg hother] at h
  obtain ⟨newer, hnewer, h⟩ := Option.bind_eq_some_iff.mp h
  rw [replaceRecord, hnewer]
  cases newer with
  | true =>
    obtain ⟨d, hd, h⟩ := Option.bind_eq_some_iff.mp h
    obtain rfl := Option.some.inj h
    rw [database_regenAndSend hd, if_pos rfl, Bool.or_true]
    exact ⟨rfl, rfl⟩
  | false =>
    obtain rfl := Option.some.inj h
    rw [if_neg (by simp), Bool.or_false]
    exact ⟨rfl, rfl⟩

/-- A database without records. -/
theorem recordKeeper_kept_empty {record : ℤ → ℕ → List LsLinkState} (h : Announces record) (a : ℤ) :
    (recordKeeper record h).kept ∅ a = none := by
  show recordNumber (∅ : LsMap ℤ (List LsLinkState))[a]? = none
  rw [Std.TreeMap.getElem?_emptyc]
  rfl

/-- **Sequence numbers do not survive the wrap.**  For announcements that grow by less than 2^30 each
and copies that are late by less than 2^30 numbers, `isNewMessage` and the test in `receiveTopo` tell
throughout a run whether a copy is newer than all accepted before it, exactly when no multiple of
2^32 ever lies between a copy and a newer one that has arrived before it. -/
theorem newer_iff_oneSide (record : ℤ → ℕ → List LsLinkState) (hrecord : Announces record)
    (l : List Event) (hlegal : Run.AllSteps Log.step Log.Legal Log.empty l) :
    (Run.AllSteps historyKeeper.step historyKeeper.Tells (Keeper.start ∅) l ↔
      Run.AllSteps Log.step Log.OneSide Log.empty l) ∧
    (Run.AllSteps (recordKeeper record hrecord).step (recordKeeper record hrecord).Tells
        (Keeper.start ∅) l ↔
      Run.AllSteps Log.step Log.OneSide Log.empty l) := by
  constructor
  · exact Keeper.tells_iff (fun _ => Std.TreeMap.getElem?_emptyc) l hlegal
  · exact Keeper.tells_iff (recordKeeper_kept_empty hrecord) l hlegal

/-- A node has one link. -/
def oneLinkRecord (_ : ℤ) (n : ℕ) : List LsLinkState := [⟨1, .up, 1, UInt32.ofNat n⟩]

theorem announces_oneLinkRecord : Announces oneLinkRecord :=
  ⟨fun _ _ => List.cons_ne_nil _ _, fun _ _ _ hlink => by rw [List.mem_singleton.mp hlink]⟩

/-- Two announcements, before and after the wrap, and their copies in the same order. -/
def inOrder : List Event :=
  [.announce 0 4294967293, .announce 0 4294967301, .arrive 0 4294967293, .arrive 0 4294967301]

theorem newer_iff_oneSide_inOrder :
    (Run.AllSteps historyKeeper.step historyKeeper.Tells (Keeper.start ∅) inOrder ↔
      Run.AllSteps Log.step Log.OneSide Log.empty inOrder) ∧
    (Run.AllSteps (recordKeeper oneLinkRecord announces_oneLinkRecord).step
        (recordKeeper oneLinkRecord announces_oneLinkRecord).Tells (Keeper.start ∅) inOrder ↔
      Run.AllSteps Log.step Log.OneSide Log.empty inOrder) :=
  newer_iff_oneSide oneLinkRecord announces_oneLinkRecord inOrder (by decide)

/-- The copies arrive in the other order. -/
def overtaken : List Event :=
  [.announce 0 4294967293, .announce 0 4294967301, .arrive 0 4294967301, .arrive 0 4294967293]

/-- The older announcement is accepted after the newer one. -/
theorem older_accepted :
    Run.AllSteps Log.step Log.Legal Log.empty overtaken ∧
      ¬ Run.AllSteps historyKeeper.step historyKeeper.Tells (Keeper.start ∅) overtaken ∧
      ¬ Run.AllSteps (recordKeeper oneLinkRecord announces_oneLinkRecord).step
        (recordKeeper oneLinkRecord announces_oneLinkRecord).Tells (Keeper.start ∅) overtaken := by
  have hlegal : Run.AllSteps Log.step Log.Legal Log.empty overtaken := by decide
  have hside : ¬ Run.AllSteps Log.step Log.OneSide Log.empty overtaken := by decide
  refine ⟨hlegal, fun h => hside ?_, fun h => hside ?_⟩
  · exact (Keeper.tells_iff (fun _ => Std.TreeMap.getElem?_emptyc) overtaken hlegal).mp h
  · exact (Keeper.tells_iff (recordKeeper_kept_empty announces_oneLinkRecord) overtaken hlegal).mp h

end Ns2.LinkState
