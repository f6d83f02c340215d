import Ns2.Lib.Run

/-!
# The token bucket filter

The model of `adc/tbf.cc`.  A packet is forwarded when there are tokens for all of its bits; else it waits
in a queue of limited length, and a timer is set for the time its tokens will be there.

* `recv`, `getupdatedtokens`, `timeout` — the functions of the source; `none` is a call of `abort()`.
* `Event`, `Legal` — arrivals and the timer, at times that do not go back and not after the timer is due.
* `Sound` — the invariant: the timer of the first packet waiting, and the bounds of the tokens.
* `level` — the tokens there are at the time.
* `tbf_conforms` — the bits forwarded between any two points of a run are bounded.
* `tbf_exact` — with packets not larger than the bucket no tokens are lost while packets wait.
* `tbf_accounts` — no packet is lost, repeated or overtaken, and the queue is bounded.
-/

namespace Ns2.Adc

/-- A packet; `size` is in bytes. -/
structure Packet where
  uid : ℕ
  size : ℤ
  deriving DecidableEq

/-- `ch->size() << 3`. -/
def Packet.bits (p : Packet) : ℤ := p.size * 8

/-- What is bound to Tcl variables. -/
structure Config where
  /-- Token bucket rate. -/
  rate_ : ℚ
  /-- Bucket depth. -/
  bucket_ : ℤ
  qlen_ : ℤ

structure Tbf where
  /-- Accumulated tokens. -/
  tokens_ : ℚ
  lastupdatetime_ : ℚ
  q_ : List Packet
  /-- The time `tbf_timer_` is due. -/
  due : Option ℚ
  init_ : Bool
  /-- History: the packets handed to `target_`. -/
  sent : List Packet
  /-- History: the packets handed to `drop`. -/
  dropped : List Packet

namespace Tbf

def new : Tbf := ⟨0, 0, [], none, true, [], []⟩

variable (c : Config)

/-- `getupdatedtokens`. -/
def getupdatedtokens (t : Tbf) (now : ℚ) : Tbf :=
  let tokens := t.tokens_ + (now - t.lastupdatetime_) * c.rate_
  { t with tokens_ := if tokens > c.bucket_ then c.bucket_ else tokens, lastupdatetime_ := now }

/-- A packet is handed to `target_`, and its tokens are taken. -/
def forward (t : Tbf) (p : Packet) : Tbf := { t with sent := t.sent ++ [p], tokens_ := t.tokens_ - p.bits }

/-- `tbf_timer_.resched((pktsize-tokens_)/rate_)`. -/
def resched (t : Tbf) (p : Packet) (now : ℚ) : Tbf :=
  { t with due := some (now + (p.bits - t.tokens_) / c.rate_) }

/-- The first packet finds a full bucket. -/
def fill (t : Tbf) (now : ℚ) : Tbf :=
  if t.init_ then { t with tokens_ := c.bucket_, lastupdatetime_ := now, init_ := false } else t

/-- `recv`. -/
def recv (t : Tbf) (p : Packet) (now : ℚ) : Tbf :=
  let t := t.fill c now
  if t.q_.length ≠ 0 then
    if t.q_.length < c.qlen_ then { t with q_ := t.q_ ++ [p] } else { t with dropped := t.dropped ++ [p] }
  else
    let t := t.getupdatedtokens c now
    if t.tokens_ ≥ p.bits then t.forward p
    else if c.qlen_ ≠ 0 then { t with q_ := t.q_ ++ [p] }.resched c p now
    else { t with dropped := t.dropped ++ [p] }

/-- `timeout`. -/
def timeout (t : Tbf) (now : ℚ) : Option Tbf :=
  match t.q_ with
  | [] => none
  | p :: q =>
    let t := ({ t with q_ := q, due := none }.getupdatedtokens c now).forward p
    some (q.head?.elim t fun p => t.resched c p now)

end Tbf

/-! ## Runs -/

structure World where
  tbf : Tbf
  /-- The time of the last event. -/
  clock : ℚ
  /-- The packets that have arrived. -/
  arrived : List Packet

inductive Event where
  | recv (p : Packet) (now : ℚ)
  /-- The timer goes off. -/
  | expire (now : ℚ)

def Event.now : Event → ℚ
  | .recv _ now => now
  | .expire now => now

namespace World

def new : World := ⟨.new, 0, []⟩

variable (c : Config)

def step (w : World) : Event → Option World
  | .recv p now => some ⟨w.tbf.recv c p now, now, w.arrived ++ [p]⟩
  | .expire now => (w.tbf.timeout c now).map fun t => ⟨t, now, w.arrived⟩

/-- A step of a run; nothing happens after a call of `abort()`. -/
def exec (w? : Option World) (e : Event) : Option World := w?.bind (step c · e)

/-- The time does not go back, nor past the time the timer is due, which then goes off.  A packet has no
negative size and no more than `M` bits. -/
def EventLegal (M : ℤ) (w : World) : Event → Prop
  | .recv p now => w.clock ≤ now ∧ (∀ t ∈ w.tbf.due, now ≤ t) ∧ 0 ≤ p.bits ∧ p.bits ≤ M
  | .expire now => w.clock ≤ now ∧ w.tbf.due = some now

instance (M : ℤ) (w : World) : ∀ e, Decidable (w.EventLegal M e)
  | .recv p now =>
    inferInstanceAs (Decidable (w.clock ≤ now ∧ (∀ t ∈ w.tbf.due, now ≤ t) ∧ 0 ≤ p.bits ∧ p.bits ≤ M))
  | .expire now => inferInstanceAs (Decidable (w.clock ≤ now ∧ w.tbf.due = some now))

def Legal (M : ℤ) (w? : Option World) (e : Event) : Prop := ∀ w ∈ w?, w.EventLegal M e

instance (M : ℤ) (w? : Option World) (e : Event) : Decidable (Legal M w? e) :=
  inferInstanceAs (Decidable (∀ w ∈ w?, _))

/-- All bits of some packets. -/
def bits (l : List Packet) : ℤ := (l.map Packet.bits).sum

/-- The tokens there are at the time of the last event. -/
def level (w : World) : ℚ :=
  if w.tbf.init_ then c.bucket_
  else min (c.bucket_ : ℚ) (w.tbf.tokens_ + (w.clock - w.tbf.lastupdatetime_) * c.rate_)

/-- The tokens there will be at a later time, if nothing is forwarded. -/
def elapsed (w : World) (now : ℚ) : ℚ := level c { w with clock := now }

/-! ### The invariant -/

/-- The tokens and the timer. -/
structure Sound (M : ℤ) (w : World) : Prop where
  /-- Nothing waits before the first packet has come. -/
  fresh : w.tbf.init_ = true → w.tbf.q_ = []
  /-- Without packets waiting there is no timer. -/
  idle : w.tbf.q_ = [] → w.tbf.due = none
  /-- The timer goes off when the tokens of the first packet are there. -/
  busy : ∀ p q, w.tbf.q_ = p :: q → w.tbf.tokens_ ≤ p.bits ∧
    w.tbf.due = some (w.tbf.lastupdatetime_ + (p.bits - w.tbf.tokens_) / c.rate_)
  past : w.tbf.init_ = false → w.tbf.lastupdatetime_ ≤ w.clock
  full : w.tbf.init_ = false → w.tbf.tokens_ ≤ c.bucket_
  low : w.tbf.init_ = false → min 0 ((c.bucket_ : ℚ) - M) ≤ w.tbf.tokens_
  sizes : ∀ p ∈ w.tbf.q_, 0 ≤ p.bits ∧ p.bits ≤ M

variable {c} {M : ℤ} {w w' : World} {e : Event} {p : Packet} {now : ℚ}

theorem EventLegal.clock_le (h : w.EventLegal M e) : w.clock ≤ e.now := by
  cases e with
  | recv p now => exact h.1
  | expire now => exact h.1

theorem EventLegal.le_due (h : w.EventLegal M e) : ∀ t ∈ w.tbf.due, e.now ≤ t := by
  cases e with
  | recv p now => exact h.2.1
  | expire now =>
    intro t ht
    obtain rfl : now = t := Option.some.inj (h.2.symm.trans ht)
    exact le_rfl

theorem sound_new (c : Config) (M : ℤ) : Sound c M new where
  fresh _ := rfl
  idle _ := rfl
  busy _ _ h := by cases h
  past h := by cases h
  full h := by cases h
  low h := by cases h
  sizes _ hp := absurd hp List.not_mem_nil

theorem bits_append (l l' : List Packet) : bits (l ++ l') = bits l + bits l' := by
  rw [bits, List.map_append, List.sum_append]
  rfl

theorem bits_singleton (p : Packet) : bits [p] = p.bits := List.sum_singleton

/-- What `getupdatedtokens` does, after the bucket was filled for the first packet. -/
theorem tokens_updated (w : World) (now : ℚ) (c : Config) :
    ((w.tbf.fill c now).getupdatedtokens c now).tokens_ = elapsed c w now ∧
      ((w.tbf.fill c now).getupdatedtokens c now).lastupdatetime_ = now ∧
      ((w.tbf.fill c now).getupdatedtokens c now).init_ = false := by
  have hmin : ∀ x : ℚ, (if x > c.bucket_ then (c.bucket_ : ℚ) else x) = min (c.bucket_ : ℚ) x := by
    intro x
    split
    · rename_i hgt
      exact (min_eq_left hgt.le).symm
    · rename_i hle
      exact (min_eq_right (not_lt.mp hle)).symm
  unfold elapsed level Tbf.getupdatedtokens Tbf.fill
  split
  · refine ⟨(hmin _).trans ?_, rfl, rfl⟩
    simp
  · rename_i hinit
    exact ⟨hmin _, rfl, Bool.eq_false_of_not_eq_true hinit⟩

theorem fill_same (t : Tbf) (now : ℚ) (c : Config) :
    (t.fill c now).q_ = t.q_ ∧ (t.fill c now).due = t.due ∧ (t.fill c now).sent = t.sent ∧
      (t.fill c now).dropped = t.dropped := by
  unfold Tbf.fill
  split <;> exact ⟨rfl, rfl, rfl, rfl⟩

/-- The tokens right after an update. -/
theorem level_now {t : Tbf} {arrived : List Packet} (hinit : t.init_ = false) (hlast : t.lastupdatetime_ = now)
    (hfull : t.tokens_ ≤ c.bucket_) : level c ⟨t, now, arrived⟩ = t.tokens_ := by
  unfold level
  simp only [hinit, hlast, sub_self, zero_mul, add_zero, Bool.false_eq_true, if_false]
  exact min_eq_right hfull

theorem elapsed_le_bucket (c : Config) (w : World) (now : ℚ) : elapsed c w now ≤ c.bucket_ := by
  unfold elapsed level
  split
  · exact le_rfl
  · exact min_le_left _ _

theorem level_le_bucket (c : Config) (w : World) : level c w ≤ c.bucket_ := elapsed_le_bucket c w w.clock

/-- The tokens do not grow faster than the rate. -/
theorem elapsed_le (hrate : 0 < c.rate_) (w : World) (hnow : w.clock ≤ now) :
    elapsed c w now ≤ level c w + (now - w.clock) * c.rate_ := by
  have hgrow : 0 ≤ (now - w.clock) * c.rate_ := mul_nonneg (sub_nonneg.mpr hnow) hrate.le
  unfold elapsed level
  split
  · linarith
  · rw [min_add]
    refine min_le_min (by linarith) (le_of_eq ?_)
    ring

/-- There are never less tokens than the invariant says. -/
theorem Sound.low_elapsed (h : Sound c M w) (hrate : 0 < c.rate_) (hbucket : 0 ≤ c.bucket_)
    (hnow : w.clock ≤ now) : min 0 ((c.bucket_ : ℚ) - M) ≤ elapsed c w now := by
  have hb : (0 : ℚ) ≤ c.bucket_ := by exact_mod_cast hbucket
  unfold elapsed level
  split
  · exact (min_le_left _ _).trans hb
  · rename_i hinit
    have hinit := Bool.eq_false_of_not_eq_true hinit
    have hgrow : 0 ≤ (now - w.tbf.lastupdatetime_) * c.rate_ :=
      mul_nonneg (sub_nonneg.mpr ((h.past hinit).trans hnow)) hrate.le
    have := h.low hinit
    exact le_min ((min_le_left _ _).trans hb) (by simp only; linarith)

/-! ### One step -/

/-- What `recv` does: behind other packets a packet waits or is dropped; else it is forwarded when there are
tokens. -/
theorem recv_cases (c : Config) (t : Tbf) (p : Packet) (now : ℚ) :
    (t.q_ ≠ [] ∧ ((t.q_.length < c.qlen_ ∧ t.recv c p now = { t.fill c now with q_ := t.q_ ++ [p] }) ∨
      (¬ (t.q_.length : ℤ) < c.qlen_ ∧ t.recv c p now = { t.fill c now with dropped := t.dropped ++ [p] }))) ∨
    (t.q_ = [] ∧ ((p.bits ≤ ((t.fill c now).getupdatedtokens c now).tokens_ ∧
        t.recv c p now = ((t.fill c now).getupdatedtokens c now).forward p) ∨
      (((t.fill c now).getupdatedtokens c now).tokens_ < p.bits ∧ c.qlen_ ≠ 0 ∧
        t.recv c p now = { (t.fill c now).getupdatedtokens c now with q_ := [p] }.resched c p now) ∨
      (c.qlen_ = 0 ∧ t.recv c p now =
        { (t.fill c now).getupdatedtokens c now with dropped := t.dropped ++ [p] }))) := by
  obtain ⟨hq, -, -, hdropped⟩ := fill_same t now c
  unfold Tbf.recv
  simp only [hq, hdropped]
  by_cases hempty : t.q_ = []
  · right
    have hq' : ((t.fill c now).getupdatedtokens c now).q_ = [] := hq.trans hempty
    have hd' : ((t.fill c now).getupdatedtokens c now).dropped = t.dropped := hdropped
    refine ⟨hempty, ?_⟩
    rw [if_neg (by simp [hempty]), hq', hd', List.nil_append]
    by_cases htokens : (p.bits : ℚ) ≤ ((t.fill c now).getupdatedtokens c now).tokens_
    · exact Or.inl ⟨htokens, if_pos htokens⟩
    · rw [if_neg htokens]
      by_cases hqlen : c.qlen_ ≠ 0
      · exact Or.inr (Or.inl ⟨not_le.mp htokens, hqlen, if_pos hqlen⟩)
      · exact Or.inr (Or.inr ⟨not_not.mp hqlen, if_neg hqlen⟩)
  · left
    refine ⟨hempty, ?_⟩
    rw [if_pos (by simp [hempty])]
    by_cases hlen : (t.q_.length : ℤ) < c.qlen_
    · exact Or.inl ⟨hlen, if_pos hlen⟩
    · exact Or.inr ⟨hlen, if_neg hlen⟩

/-- Nothing changes in the tokens when the packet waits behind others or is dropped there. -/
theorem Sound.behind (h : Sound c M w) (now : ℚ) (hq : w.tbf.q_ ≠ []) :
    w.tbf.init_ = false ∧ w.tbf.fill c now = w.tbf := by
  have hinit : w.tbf.init_ = false := by
    by_contra hne
    exact hq (h.fresh (Bool.eq_true_of_not_eq_false hne))
  refine ⟨hinit, ?_⟩
  unfold Tbf.fill
  rw [hinit]
  rfl

/-- A state right after an update of the tokens, with nothing waiting. -/
theorem Sound.settled {t : Tbf} {arrived : List Packet} (hq : t.q_ = []) (hdue : t.due = none)
    (hlast : t.lastupdatetime_ = now) (hfull : t.tokens_ ≤ c.bucket_)
    (hlow : min 0 ((c.bucket_ : ℚ) - M) ≤ t.tokens_) : Sound c M ⟨t, now, arrived⟩ where
  fresh _ := hq
  idle _ := hdue
  busy p q h := absurd (hq.symm.trans h) (List.cons_ne_nil p q).symm
  past _ := hlast.le
  full _ := hfull
  low _ := hlow
  sizes p hp := absurd (show p ∈ t.q_ from hp) (hq ▸ List.not_mem_nil)

/-- An arrival keeps the invariant; what is forwarded is taken from the tokens. -/
theorem Sound.recv (h : Sound c M w) (hrate : 0 < c.rate_) (hbucket : 0 ≤ c.bucket_) (hnow : w.clock ≤ now)
    (hp : 0 ≤ p.bits ∧ p.bits ≤ M) (arrived : List Packet) :
    Sound c M ⟨w.tbf.recv c p now, now, arrived⟩ ∧
      (bits (w.tbf.recv c p now).sent : ℚ) + level c ⟨w.tbf.recv c p now, now, arrived⟩ =
        bits w.tbf.sent + elapsed c w now := by
  obtain ⟨htokens, hlast, hinit⟩ := tokens_updated w now c
  obtain ⟨hfq, hfdue, hfsent, -⟩ := fill_same w.tbf now c
  have hfull : ((w.tbf.fill c now).getupdatedtokens c now).tokens_ ≤ c.bucket_ :=
    htokens ▸ elapsed_le_bucket c w now
  have hlow : min 0 ((c.bucket_ : ℚ) - M) ≤ ((w.tbf.fill c now).getupdatedtokens c now).tokens_ :=
    htokens ▸ h.low_elapsed hrate hbucket hnow
  have hbits : (0 : ℚ) ≤ p.bits := by exact_mod_cast hp.1
  rcases recv_cases c w.tbf p now with ⟨hq, hwait⟩ | ⟨hq, hfirst⟩
  · -- the tokens are not looked at
    obtain ⟨hfalse, hsame⟩ := h.behind now hq
    obtain ⟨p₀, q₀, hcons⟩ := List.exists_cons_of_ne_nil hq
    rcases hwait with ⟨-, heq⟩ | ⟨-, heq⟩
    · rw [heq, hsame]
      refine ⟨⟨fun hi => absurd (hi.symm.trans hfalse) (by decide), fun hnil => ?_, ?_,
        fun hi => (h.past hi).trans hnow, h.full, h.low, ?_⟩, rfl⟩
      · exact absurd hnil (by simp)
      · intro p' q' hcons'
        rw [hcons, List.cons_append] at hcons'
        obtain ⟨rfl, -⟩ := List.cons.inj hcons'
        exact h.busy p₀ q₀ hcons
      · intro p' hp'
        rcases List.mem_append.mp hp' with hp' | hp'
        · exact h.sizes p' hp'
        · exact List.mem_singleton.mp hp' ▸ hp
    · rw [heq, hsame]
      exact ⟨⟨h.fresh, h.idle, h.busy, fun hi => (h.past hi).trans hnow, h.full, h.low, h.sizes⟩, rfl⟩
  · have hq' : ((w.tbf.fill c now).getupdatedtokens c now).q_ = [] := hfq.trans hq
    have hdue' : ((w.tbf.fill c now).getupdatedtokens c now).due = none := hfdue.trans (h.idle hq)
    have hsent' : ((w.tbf.fill c now).getupdatedtokens c now).sent = w.tbf.sent := hfsent
    rw [← htokens]
    generalize (w.tbf.fill c now).getupdatedtokens c now = u at *
    rcases hfirst with ⟨hle, heq⟩ | ⟨hlt, -, heq⟩ | ⟨-, heq⟩
    · rw [heq]
      have hfull' : u.tokens_ - p.bits ≤ c.bucket_ := by linarith
      refine ⟨Sound.settled (t := u.forward p) hq' hdue' hlast hfull'
        ((min_le_left _ _).trans (sub_nonneg.mpr hle)), ?_⟩
      rw [level_now (t := u.forward p) hinit hlast hfull']
      show (bits (u.sent ++ [p]) : ℚ) + (u.tokens_ - p.bits) = _
      rw [hsent', bits_append, bits_singleton]
      push_cast
      ring
    · rw [heq]
      refine ⟨⟨fun hi => absurd (hi.symm.trans hinit) (by decide),
        fun hnil => absurd hnil (by simp [Tbf.resched]), ?_, fun _ => hlast.le, fun _ => hfull, fun _ => hlow, ?_⟩, ?_⟩
      · intro p' q' hcons
        obtain ⟨rfl, -⟩ := List.cons.inj (show [p] = p' :: q' from hcons)
        exact ⟨hlt.le, by simp [Tbf.resched, hlast]⟩
      · intro p' hp'
        exact List.mem_singleton.mp hp' ▸ hp
      · rw [level_now (t := Tbf.resched c { u with q_ := [p] } p now) hinit hlast hfull]
        show (bits u.sent : ℚ) + u.tokens_ = _
        rw [hsent']
    · rw [heq]
      refine ⟨Sound.settled (t := { u with dropped := w.tbf.dropped ++ [p] }) hq' hdue' hlast hfull hlow, ?_⟩
      rw [level_now (t := { u with dropped := w.tbf.dropped ++ [p] }) hinit hlast hfull]
      show (bits u.sent : ℚ) + u.tokens_ = _
      rw [hsent']

/-- When the timer goes off, the tokens of the first packet are there, or the bucket is full. -/
theorem Sound.elapsed_due {q : List Packet} (h : Sound c M w) (hrate : 0 < c.rate_) (hq : w.tbf.q_ = p :: q)
    (hdue : w.tbf.due = some now) : elapsed c w now = min (c.bucket_ : ℚ) p.bits := by
  obtain ⟨-, hbusy⟩ := h.busy p q hq
  have hinit := (h.behind now (hq ▸ List.cons_ne_nil p q)).1
  have hnow := Option.some.inj (hdue.symm.trans hbusy)
  unfold elapsed level
  simp only [hinit, Bool.false_eq_true, if_false]
  congr 1
  rw [hnow, add_sub_cancel_left, div_mul_cancel₀ _ hrate.ne']
  ring

/-- **The timer** finds a packet, and keeps the invariant; the packet is taken from the tokens. -/
theorem Sound.timeout (h : Sound c M w) (hrate : 0 < c.rate_) (hdue : w.tbf.due = some now)
    (arrived : List Packet) : ∃ p q t, w.tbf.q_ = p :: q ∧ w.tbf.timeout c now = some t ∧ t.q_ = q ∧
      t.sent = w.tbf.sent ++ [p] ∧ t.dropped = w.tbf.dropped ∧ Sound c M ⟨t, now, arrived⟩ ∧
      (bits t.sent : ℚ) + level c ⟨t, now, arrived⟩ = bits w.tbf.sent + elapsed c w now := by
  cases hq : w.tbf.q_ with
  | nil => exact absurd (hdue.symm.trans (h.idle hq)) (Option.some_ne_none _)
  | cons p q =>
    obtain ⟨hinit, hsame⟩ := h.behind now (hq ▸ List.cons_ne_nil p q)
    obtain ⟨htokens, -, -⟩ := tokens_updated w now c
    rw [hsame] at htokens
    obtain ⟨hp0, hpM⟩ := h.sizes p (hq ▸ List.mem_cons_self)
    have hbits : (0 : ℚ) ≤ p.bits := by exact_mod_cast hp0
    have hbitsM : (p.bits : ℚ) ≤ M := by exact_mod_cast hpM
    have helapsed := h.elapsed_due hrate hq hdue
    -- the filter after the packet has gone
    obtain ⟨u, hu, hutokens⟩ : ∃ u : Tbf,
        u = ({ w.tbf with q_ := q, due := none }.getupdatedtokens c now).forward p ∧
          u.tokens_ = elapsed c w now - p.bits := by
      refine ⟨_, rfl, ?_⟩
      rw [← htokens]
      rfl
    have huinit : u.init_ = false := by
      rw [hu]
      exact hinit
    have hulast : u.lastupdatetime_ = now := by
      rw [hu]
      rfl
    have huq : u.q_ = q := by
      rw [hu]
      rfl
    have husent : u.sent = w.tbf.sent ++ [p] := by
      rw [hu]
      rfl
    have hudropped : u.dropped = w.tbf.dropped := by
      rw [hu]
      rfl
    have hudue : u.due = none := by
      rw [hu]
      rfl
    have hle : u.tokens_ ≤ 0 := by
      rw [hutokens, helapsed]
      linarith [min_le_right (c.bucket_ : ℚ) p.bits]
    have hfull : u.tokens_ ≤ c.bucket_ := by
      rw [hutokens]
      linarith [elapsed_le_bucket c w now]
    have hlow : min 0 ((c.bucket_ : ℚ) - M) ≤ u.tokens_ := by
      rw [hutokens, helapsed]
      rcases min_choice (c.bucket_ : ℚ) p.bits with heq | heq
      · rw [heq]
        exact (min_le_right _ _).trans (by linarith)
      · rw [heq]
        exact (min_le_left _ _).trans (by linarith)
    have hlevel : (bits u.sent : ℚ) + u.tokens_ = bits w.tbf.sent + elapsed c w now := by
      rw [husent, hutokens, bits_append, bits_singleton]
      push_cast
      ring
    have htimeout : w.tbf.timeout c now = some (q.head?.elim u fun p => u.resched c p now) := by
      unfold Tbf.timeout
      rw [hq, hu]
    cases q with
    | nil =>
      refine ⟨p, [], u, rfl, htimeout, huq, husent, hudropped,
        Sound.settled huq hudue hulast hfull hlow, ?_⟩
      rw [level_now huinit hulast hfull]
      exact hlevel
    | cons p' q' =>
      have hsizes : ∀ x ∈ p' :: q', 0 ≤ x.bits ∧ x.bits ≤ M := fun x hx =>
        h.sizes x (hq ▸ List.mem_cons_of_mem p hx)
      have hp' : (0 : ℚ) ≤ p'.bits := by exact_mod_cast (hsizes p' List.mem_cons_self).1
      refine ⟨p, p' :: q', u.resched c p' now, rfl, htimeout, huq, husent, hudropped,
        ⟨fun hi => absurd (hi.symm.trans huinit) (by decide), fun hnil => ?_, fun x y hcons => ?_,
          fun _ => hulast.le, fun _ => hfull, fun _ => hlow, ?_⟩, ?_⟩
      · exact absurd (huq.symm.trans hnil) (List.cons_ne_nil p' q')
      · obtain ⟨rfl, -⟩ := List.cons.inj (huq.symm.trans hcons)
        exact ⟨hle.trans hp', by rw [← hulast]; rfl⟩
      · show ∀ x ∈ u.q_, _
        rw [huq]
        exact hsizes
      · rw [level_now (t := u.resched c p' now) huinit hulast hfull]
        exact hlevel

/-- **A step** does not abort, keeps the invariant, and takes from the tokens what it forwards. -/
theorem Sound.step (h : Sound c M w) (hrate : 0 < c.rate_) (hbucket : 0 ≤ c.bucket_)
    (hlegal : w.EventLegal M e) :
    ∃ w', w.step c e = some w' ∧ Sound c M w' ∧ w'.clock = e.now ∧
      (bits w'.tbf.sent : ℚ) + level c w' = bits w.tbf.sent + elapsed c w e.now := by
  cases e with
  | recv p now =>
    obtain ⟨hnow, -, hsize⟩ := hlegal
    obtain ⟨hsound, hlevel⟩ := h.recv hrate hbucket hnow hsize (w.arrived ++ [p])
    exact ⟨_, rfl, hsound, rfl, hlevel⟩
  | expire now =>
    obtain ⟨p, q, t, -, ht, -, -, -, hsound, hlevel⟩ := h.timeout hrate hlegal.2 w.arrived
    exact ⟨⟨t, now, w.arrived⟩, by rw [World.step, ht]; rfl, hsound, rfl, hlevel⟩

/-! ### Runs -/

/-- What a run forwards is paid by the tokens at its start and those that come in its time. -/
theorem Sound.run (hrate : 0 < c.rate_) (hbucket : 0 ≤ c.bucket_) (l : List Event) (w : World) (h : Sound c M w)
    (hl : Run.AllSteps (exec c) (Legal M) (some w) l) :
    ∃ w', l.foldl (exec c) (some w) = some w' ∧ Sound c M w' ∧
      (bits w'.tbf.sent : ℚ) + level c w' ≤ bits w.tbf.sent + level c w + (w'.clock - w.clock) * c.rate_ := by
  induction l generalizing w with
  | nil => exact ⟨w, rfl, h, by simp⟩
  | cons e l ih =>
    obtain ⟨hlegal, hrest⟩ := hl
    obtain ⟨w₁, hstep, h₁, hclock, hspent⟩ := h.step hrate hbucket (hlegal w rfl)
    have hexec : exec c (some w) e = some w₁ := hstep
    rw [hexec] at hrest
    obtain ⟨w', hrun, h', hle⟩ := ih w₁ h₁ hrest
    refine ⟨w', by rw [List.foldl_cons, hexec, hrun], h', ?_⟩
    have hgrow := elapsed_le hrate w (hlegal w rfl).clock_le
    rw [← hclock] at hgrow hspent
    linarith

/-- **Conformance.**  The bits forwarded between two points of a run are at most what comes at the rate in the
time between them, and a bucket, or one packet if it is larger than the bucket. -/
theorem tbf_conforms (c : Config) (M : ℤ) (hrate : 0 < c.rate_) (hbucket : 0 ≤ c.bucket_) (l₁ l₂ : List Event)
    (hl : Run.AllSteps (exec c) (Legal M) (some new) (l₁ ++ l₂)) :
    ∃ w w', l₁.foldl (exec c) (some new) = some w ∧ (l₁ ++ l₂).foldl (exec c) (some new) = some w' ∧
      (bits w'.tbf.sent : ℚ) - bits w.tbf.sent ≤ (w'.clock - w.clock) * c.rate_ + max c.bucket_ M := by
  obtain ⟨hl₁, hl₂⟩ := (Run.allSteps_append _ _ _).mp hl
  obtain ⟨w, hw, hsound, -⟩ := (sound_new c M).run hrate hbucket l₁ _ hl₁
  rw [hw] at hl₂
  obtain ⟨w', hw', hsound', hle⟩ := hsound.run hrate hbucket l₂ w hl₂
  refine ⟨w, w', hw, by rw [List.foldl_append, hw, hw'], ?_⟩
  have hhigh := level_le_bucket c w
  have hlow : min 0 ((c.bucket_ : ℚ) - M) ≤ level c w' := hsound'.low_elapsed hrate hbucket le_rfl
  have hmax : (c.bucket_ : ℚ) - min 0 ((c.bucket_ : ℚ) - M) = max (c.bucket_ : ℚ) M := by
    rcases le_total (c.bucket_ : ℚ) M with hle | hle
    · rw [min_eq_right (by linarith), max_eq_right hle]
      ring
    · rw [min_eq_left (by linarith), max_eq_left hle, sub_zero]
  push_cast
  linarith

/-- A bucket of one packet of 1000 bytes, filled once a second; one packet may wait. -/
def oneASecond : Config := ⟨8000, 8000, 1⟩

/-- Three packets in a second: the first is forwarded, the second waits for the timer, the third is dropped. -/
def threePackets : List Event := [.recv ⟨1, 1000⟩ 0, .recv ⟨2, 1000⟩ (1 / 2), .recv ⟨3, 1000⟩ (3 / 5), .expire 1]

theorem tbf_conforms_three : ∃ w w', [].foldl (exec oneASecond) (some new) = some w ∧
    threePackets.foldl (exec oneASecond) (some new) = some w' ∧
      (bits w'.tbf.sent : ℚ) - bits w.tbf.sent ≤ (w'.clock - w.clock) * 8000 + max 8000 8000 := by
  have h := tbf_conforms oneASecond 8000 (by decide) (by decide) [] threePackets (by decide +kernel)
  obtain ⟨w, w', hw, hw', hle⟩ := h
  exact ⟨w, w', hw, hw', by simpa [oneASecond] using hle⟩

/-- Packets wait when the step is taken. -/
def Backlogged (w? : Option World) (_ : Event) : Prop := ∀ w ∈ w?, w.tbf.q_ ≠ []

instance (w? : Option World) (e : Event) : Decidable (Backlogged w? e) :=
  inferInstanceAs (Decidable (∀ w ∈ w?, _))

/-- While packets wait that are not larger than the bucket, no tokens are lost. -/
theorem Sound.elapsed_eq (h : Sound c M w) (hrate : 0 < c.rate_) (hM : M ≤ c.bucket_) (hq : w.tbf.q_ ≠ [])
    (hnow : w.clock ≤ now) (hdue : ∀ t ∈ w.tbf.due, now ≤ t) :
    elapsed c w now = level c w + (now - w.clock) * c.rate_ := by
  obtain ⟨p, q, hcons⟩ := List.exists_cons_of_ne_nil hq
  obtain ⟨-, hbusy⟩ := h.busy p q hcons
  have hinit := (h.behind now hq).1
  have hpM : (p.bits : ℚ) ≤ c.bucket_ := by
    exact_mod_cast (h.sizes p (hcons ▸ List.mem_cons_self)).2.trans hM
  have hroom : ∀ x, x ≤ now → w.tbf.tokens_ + (x - w.tbf.lastupdatetime_) * c.rate_ ≤ c.bucket_ := by
    intro x hx
    have hlate : x - w.tbf.lastupdatetime_ ≤ (p.bits - w.tbf.tokens_) / c.rate_ := by
      linarith [hdue _ hbusy]
    rw [le_div_iff₀ hrate] at hlate
    linarith
  unfold elapsed level
  simp only [hinit, Bool.false_eq_true, if_false]
  rw [min_eq_right (hroom now le_rfl), min_eq_right (hroom w.clock hnow)]
  ring

theorem Sound.exact_of_run (hrate : 0 < c.rate_) (hbucket : 0 ≤ c.bucket_) (hM : M ≤ c.bucket_) (l : List Event)
    (w : World) (h : Sound c M w) (hl : Run.AllSteps (exec c) (Legal M) (some w) l)
    (hb : Run.AllSteps (exec c) Backlogged (some w) l) :
    ∃ w', l.foldl (exec c) (some w) = some w' ∧ Sound c M w' ∧
      (bits w'.tbf.sent : ℚ) + level c w' = bits w.tbf.sent + level c w + (w'.clock - w.clock) * c.rate_ := by
  induction l generalizing w with
  | nil => exact ⟨w, rfl, h, by simp⟩
  | cons e l ih =>
    obtain ⟨hlegal, hrest⟩ := hl
    obtain ⟨w₁, hstep, h₁, hclock, hspent⟩ := h.step hrate hbucket (hlegal w rfl)
    have hexec : exec c (some w) e = some w₁ := hstep
    rw [hexec] at hrest
    have hbrest := hb.2
    rw [hexec] at hbrest
    obtain ⟨w', hrun, h', heq⟩ := ih w₁ h₁ hrest hbrest
    refine ⟨w', by rw [List.foldl_cons, hexec, hrun], h', ?_⟩
    have hgrow := h.elapsed_eq hrate hM (hb.1 w rfl) (hlegal w rfl).clock_le (hlegal w rfl).le_due
    rw [← hclock] at hgrow hspent
    linarith

/-- **The rate is used up.**  If packets wait all the time between two points of a run, and none is larger than
the bucket, the bits forwarded differ from what comes at the rate by a bucket at most. -/
theorem tbf_exact (c : Config) (M : ℤ) (hrate : 0 < c.rate_) (hbucket : 0 ≤ c.bucket_) (hM : M ≤ c.bucket_)
    (l₁ l₂ : List Event) (hl : Run.AllSteps (exec c) (Legal M) (some new) (l₁ ++ l₂))
    (hb : Run.AllSteps (exec c) Backlogged (l₁.foldl (exec c) (some new)) l₂) :
    ∃ w w', l₁.foldl (exec c) (some new) = some w ∧ (l₁ ++ l₂).foldl (exec c) (some new) = some w' ∧
      |(bits w'.tbf.sent : ℚ) - bits w.tbf.sent - (w'.clock - w.clock) * c.rate_| ≤ c.bucket_ := by
  obtain ⟨hl₁, hl₂⟩ := (Run.allSteps_append _ _ _).mp hl
  obtain ⟨w, hw, hsound, -⟩ := (sound_new c M).run hrate hbucket l₁ _ hl₁
  rw [hw] at hl₂ hb
  obtain ⟨w', hw', hsound', heq⟩ := hsound.exact_of_run hrate hbucket hM l₂ w hl₂ hb
  refine ⟨w, w', hw, by rw [List.foldl_append, hw, hw'], ?_⟩
  have hM' : (M : ℚ) ≤ c.bucket_ := by exact_mod_cast hM
  have hmin : min 0 ((c.bucket_ : ℚ) - M) = 0 := min_eq_left (by linarith)
  have hlow : min 0 ((c.bucket_ : ℚ) - M) ≤ level c w := hsound.low_elapsed hrate hbucket le_rfl
  have hlow' : min 0 ((c.bucket_ : ℚ) - M) ≤ level c w' := hsound'.low_elapsed hrate hbucket le_rfl
  have hhigh := level_le_bucket c w
  have hhigh' := level_le_bucket c w'
  rw [hmin] at hlow hlow'
  rw [abs_le]
  constructor <;> linarith

theorem tbf_exact_three : ∃ w w', (threePackets.take 2).foldl (exec oneASecond) (some new) = some w ∧
    threePackets.foldl (exec oneASecond) (some new) = some w' ∧
      |(bits w'.tbf.sent : ℚ) - bits w.tbf.sent - (w'.clock - w.clock) * 8000| ≤ 8000 := by
  have h := tbf_exact oneASecond 8000 (by decide) (by decide) (by decide) (threePackets.take 2) (threePackets.drop 2)
    (by decide +kernel) (by decide +kernel)
  obtain ⟨w, w', hw, hw', hle⟩ := h
  exact ⟨w, w', hw, hw', by simpa [oneASecond] using hle⟩

/-- No packet is lost or repeated, none overtakes another, and few wait. -/
structure Ledger (c : Config) (w : World) : Prop where
  once : w.arrived.Perm (w.tbf.sent ++ w.tbf.q_ ++ w.tbf.dropped)
  order : (w.tbf.sent ++ w.tbf.q_).Sublist w.arrived
  length : (w.tbf.q_.length : ℤ) ≤ max c.qlen_ 1

/-- An arrival is entered: it is forwarded or waits, behind all others, or it is dropped. -/
theorem Ledger.enter {t : Tbf} (h : Ledger c w) (p : Packet) (now : ℚ)
    (hlen : (t.q_.length : ℤ) ≤ max c.qlen_ 1)
    (hcase : t.sent ++ t.q_ = w.tbf.sent ++ w.tbf.q_ ++ [p] ∧ t.dropped = w.tbf.dropped ∨
      t.sent ++ t.q_ = w.tbf.sent ++ w.tbf.q_ ∧ t.dropped = w.tbf.dropped ++ [p]) :
    Ledger c ⟨t, now, w.arrived ++ [p]⟩ := by
  rcases hcase with ⟨hkept, hdropped⟩ | ⟨hkept, hdropped⟩
  · refine ⟨?_, ?_, hlen⟩
    · show (w.arrived ++ [p]).Perm (t.sent ++ t.q_ ++ t.dropped)
      rw [hkept, hdropped]
      refine (h.once.append_right [p]).trans ?_
      rw [List.append_assoc (w.tbf.sent ++ w.tbf.q_), List.append_assoc (w.tbf.sent ++ w.tbf.q_)]
      exact List.perm_append_comm.append_left _
    · show (t.sent ++ t.q_).Sublist (w.arrived ++ [p])
      rw [hkept]
      exact h.order.append (List.Sublist.refl [p])
  · refine ⟨?_, ?_, hlen⟩
    · show (w.arrived ++ [p]).Perm (t.sent ++ t.q_ ++ t.dropped)
      rw [hkept, hdropped, ← List.append_assoc]
      exact h.once.append_right [p]
    · show (t.sent ++ t.q_).Sublist (w.arrived ++ [p])
      rw [hkept]
      exact h.order.trans (List.sublist_append_left _ _)

theorem Ledger.recv (h : Ledger c w) (p : Packet) (now : ℚ) :
    Ledger c ⟨w.tbf.recv c p now, now, w.arrived ++ [p]⟩ := by
  obtain ⟨hfq, -, hfsent, hfdropped⟩ := fill_same w.tbf now c
  rcases recv_cases c w.tbf p now with ⟨-, ⟨hlt, heq⟩ | ⟨-, heq⟩⟩ | ⟨hq, ⟨-, heq⟩ | ⟨-, -, heq⟩ | ⟨-, heq⟩⟩
  · rw [heq]
    refine h.enter p now ?_ (Or.inl ⟨?_, hfdropped⟩)
    · simp only [List.length_append, List.length_singleton]
      push_cast
      omega
    · rw [List.append_assoc, ← hfsent]
  · rw [heq]
    refine h.enter p now ?_ (Or.inr ⟨?_, rfl⟩)
    · exact hfq.symm ▸ h.length
    · rw [← hfsent, ← hfq]
  · rw [heq]
    refine h.enter p now ?_ (Or.inl ⟨?_, hfdropped⟩)
    · exact (congrArg (fun q => ((List.length q : ℕ) : ℤ)) hfq).le.trans h.length
    · show (w.tbf.fill c now).sent ++ [p] ++ (w.tbf.fill c now).q_ = _
      rw [hfsent, hfq, hq, List.append_nil, List.append_nil]
  · rw [heq]
    refine h.enter p now ?_ (Or.inl ⟨?_, hfdropped⟩)
    · exact le_max_right _ _
    · show (w.tbf.fill c now).sent ++ [p] = _
      rw [hfsent, hq, List.append_nil]
  · rw [heq]
    refine h.enter p now ?_ (Or.inr ⟨?_, rfl⟩)
    · exact (congrArg (fun q => ((List.length q : ℕ) : ℤ)) hfq).le.trans h.length
    · show (w.tbf.fill c now).sent ++ (w.tbf.fill c now).q_ = _
      rw [hfsent, hfq]

/-- **Accounting.**  In every run, which does not abort, each packet that has arrived was forwarded, waits or
was dropped, exactly once; those forwarded and those that wait are in the order of their arrival; no more than
`qlen_` packets wait, or one; and the timer is set exactly while packets wait. -/
theorem tbf_accounts (c : Config) (M : ℤ) (hrate : 0 < c.rate_) (hbucket : 0 ≤ c.bucket_) (l : List Event)
    (hl : Run.AllSteps (exec c) (Legal M) (some new) l) :
    ∃ w, l.foldl (exec c) (some new) = some w ∧ w.arrived.Perm (w.tbf.sent ++ w.tbf.q_ ++ w.tbf.dropped) ∧
      (w.tbf.sent ++ w.tbf.q_).Sublist w.arrived ∧ (w.tbf.q_.length : ℤ) ≤ max c.qlen_ 1 ∧
      (w.tbf.due = none ↔ w.tbf.q_ = []) := by
  have hrun : ∀ (l : List Event) (w : World), Sound c M w → Ledger c w →
      Run.AllSteps (exec c) (Legal M) (some w) l →
        ∃ w', l.foldl (exec c) (some w) = some w' ∧ Sound c M w' ∧ Ledger c w' := by
    intro l
    induction l with
    | nil => exact fun w h hledger _ => ⟨w, rfl, h, hledger⟩
    | cons e l ih =>
      intro w h hledger hl
      obtain ⟨hlegal, hrest⟩ := hl
      obtain ⟨w₁, hstep, h₁, -⟩ := h.step hrate hbucket (hlegal w rfl)
      have hledger₁ : Ledger c w₁ := by
        cases e with
        | recv p now =>
          obtain rfl := Option.some.inj hstep
          exact hledger.recv p now
        | expire now =>
          obtain ⟨p, q, t, hq, ht, htq, hsent, hdropped, -⟩ :=
            h.timeout hrate (hlegal w rfl).2 w.arrived
          obtain rfl : (⟨t, now, w.arrived⟩ : World) = w₁ := by
            rw [World.step, ht] at hstep
            exact Option.some.inj hstep
          have hmoved : t.sent ++ t.q_ = w.tbf.sent ++ w.tbf.q_ := by
            rw [hsent, htq, hq, List.append_assoc]
            rfl
          refine ⟨?_, ?_, ?_⟩
          · show w.arrived.Perm (t.sent ++ t.q_ ++ t.dropped)
            rw [hmoved, hdropped]
            exact hledger.once
          · show (t.sent ++ t.q_).Sublist w.arrived
            rw [hmoved]
            exact hledger.order
          · have hlen := hledger.length
            rw [hq, List.length_cons] at hlen
            show (t.q_.length : ℤ) ≤ _
            rw [htq]
            push_cast at hlen
            omega
      have hexec : exec c (some w) e = some w₁ := hstep
      rw [hexec] at hrest
      obtain ⟨w', hw', hrest'⟩ := ih w₁ h₁ hledger₁ hrest
      exact ⟨w', by rw [List.foldl_cons, hexec, hw'], hrest'⟩
  obtain ⟨w, hw, hsound, hledger⟩ := hrun l new (sound_new c M)
    ⟨List.Perm.refl _, List.Sublist.refl _, by simp [new, Tbf.new]⟩ hl
  refine ⟨w, hw, hledger.once, hledger.order, hledger.length, fun hdue => ?_, hsound.idle⟩
  by_contra hne
  obtain ⟨p, q, hcons⟩ := List.exists_cons_of_ne_nil hne
  exact Option.some_ne_none _ ((hsound.busy p q hcons).2.symm.trans hdue)

theorem tbf_accounts_three : ∃ w, threePackets.foldl (exec oneASecond) (some new) = some w ∧
    w.arrived.Perm (w.tbf.sent ++ w.tbf.q_ ++ w.tbf.dropped) := by
  have h := tbf_accounts oneASecond 8000 (by decide) (by decide) threePackets (by decide +kernel)
  obtain ⟨w, hw, hperm, -⟩ := h
  exact ⟨w, hw, hperm⟩

end World

end Ns2.Adc
