import Ns2.Lib.JumpAhead
import Ns2.Tools.Rng

/-!
# Streams and substreams

All streams go through the states of one sequence: they start `2 ^ 127` steps apart, and their substreams
`2 ^ 76` steps.

* `toZ`, `matZ` — states and matrices modulo the number.
* `units1`, `units2` — the steps of the two recurrences, which can be taken back.
* `Valid` — the states `CheckSeed` lets through.
* `Cursor`, `Plan` — where the streams are: the abstract model.
* `streams_track` — the streams are where the plan says, in every run.
* `streams_draw` — what they return.
-/

namespace Ns2.Tools

open Jump

/-! ## Arithmetic modulo `n` -/

section Modulo

variable {n : ℕ}

/-- A vector, modulo `n`. -/
def toZ (n : ℕ) (s : Vec) : Fin 3 → ZMod n := fun i => s i

/-- A matrix, modulo `n`. -/
def matZ (n : ℕ) (A : Mat) : Matrix (Fin 3) (Fin 3) (ZMod n) := A.map fun x => (x : ZMod n)

/-- The numbers of a vector are reduced. -/
def InRange (n : ℕ) (s : Vec) : Prop := ∀ i, 0 ≤ s i ∧ s i < n

theorem multModM_cast (a s c : ℤ) (hn : 0 < (n : ℤ)) : (multModM a s c n : ZMod n) = a * s + c := by
  rw [multModM_eq a s c hn, ZMod.intCast_mod]
  push_cast
  rfl

theorem matVecModM_cast (A : Mat) (s : Vec) (hn : 0 < (n : ℤ)) :
    toZ n (matVecModM A s n) = (matZ n A).mulVec (toZ n s) := by
  funext i
  simp only [toZ, matZ, matVecModM, multModM_cast _ _ _ hn, Matrix.mulVec, dotProduct, Fin.sum_univ_three,
    Matrix.map_apply]
  push_cast
  ring

theorem matVecModM_inRange (A : Mat) (s : Vec) (hn : 0 < (n : ℤ)) : InRange n (matVecModM A s n) := by
  intro i
  unfold matVecModM
  simp only [multModM_eq _ _ _ hn]
  exact ⟨Int.emod_nonneg _ hn.ne', Int.emod_lt_of_pos _ hn⟩

theorem matMatModM_cast (A B : Mat) (hn : 0 < (n : ℤ)) : matZ n (matMatModM A B n) = matZ n A * matZ n B := by
  ext j i
  exact congrFun (matVecModM_cast A (fun k => B k i) hn) j

theorem matTwoPowModM_cast (A : Mat) (e : ℕ) (hn : 0 < (n : ℤ)) :
    matZ n (matTwoPowModM A n e) = matZ n A ^ 2 ^ e := by
  unfold matTwoPowModM
  induction e with
  | zero => rw [Function.iterate_zero_apply, pow_zero, pow_one]
  | succ e ih =>
    rw [Function.iterate_succ_apply', matMatModM_cast _ _ hn, ih, ← pow_add, pow_succ, mul_two]

/-- The loop multiplies by the power that is left. -/
theorem matPowLoop_cast (k : ℕ) (W B : Mat) (hn : 0 < (n : ℤ)) :
    matZ n (matPowLoop n k W B) = matZ n W ^ k * matZ n B := by
  induction k using Nat.strong_induction_on generalizing W B with
  | _ k ih =>
    unfold matPowLoop
    split
    · rename_i hk
      rw [hk, pow_zero, one_mul]
    · rename_i hk
      rw [ih (k / 2) (Nat.div_lt_self (Nat.pos_of_ne_zero hk) one_lt_two), matMatModM_cast _ _ hn, ← pow_two,
        ← pow_mul]
      split
      · rename_i hodd
        rw [matMatModM_cast _ _ hn, ← mul_assoc, ← pow_succ]
        congr 2
        omega
      · rename_i heven
        congr 2
        omega

theorem matZ_one (n : ℕ) : matZ n 1 = 1 := by
  unfold matZ
  rw [Matrix.map_one _ Int.cast_zero Int.cast_one]

theorem matPowModM_cast (A : Mat) (k : ℕ) (hn : 0 < (n : ℤ)) : matZ n (matPowModM A n k) = matZ n A ^ k := by
  unfold matPowModM
  rw [matPowLoop_cast k A 1 hn, matZ_one, mul_one]

/-- Reduced vectors that are the same modulo `n` are the same. -/
theorem InRange.eq {s s' : Vec} (h : InRange n s) (h' : InRange n s') (heq : toZ n s = toZ n s') : s = s' := by
  funext i
  have hi := (ZMod.intCast_eq_intCast_iff' (s i) (s' i) n).mp (congrFun heq i)
  rwa [Int.emod_eq_of_lt (h i).1 (h i).2, Int.emod_eq_of_lt (h' i).1 (h' i).2] at hi

theorem InRange.toZ_eq_zero {s : Vec} (h : InRange n s) (hn : 0 < (n : ℤ)) : toZ n s = 0 ↔ ∀ i, s i = 0 := by
  constructor
  · intro heq
    have hzero : InRange n fun _ => 0 := fun _ => ⟨le_rfl, hn⟩
    have hs : s = fun _ => 0 := h.eq hzero (heq.trans (funext fun _ => Int.cast_zero.symm))
    exact fun i => congrFun hs i
  · intro hs
    funext i
    show ((s i : ℤ) : ZMod n) = 0
    rw [hs i, Int.cast_zero]

/-- The matrix of a jump: `2 ^ e + c` steps, or `-2 ^ (-e) + c`. -/
def jumpLength (e c : ℤ) : ℤ :=
  (if e > 0 then 2 ^ e.toNat else if e < 0 then -2 ^ (-e).toNat else 0) + c

theorem advanceMat_cast {U : (Matrix (Fin 3) (Fin 3) (ZMod n))ˣ} {A Inv : Mat} (hn : 0 < (n : ℤ))
    (hA : matZ n A = U) (hInv : matZ n Inv = ↑U⁻¹) (e c : ℤ) :
    matZ n (Rng.advanceMat A Inv n e c) = ↑(U ^ jumpLength e c) := by
  have hback : ∀ k : ℕ, (↑U⁻¹ : Matrix (Fin 3) (Fin 3) (ZMod n)) ^ k = ↑(U ^ (-(k : ℤ))) := by
    intro k
    rw [zpow_neg, zpow_natCast, ← inv_pow, Units.val_pow_eq_pow_val]
  have hforth : ∀ k : ℕ, (↑U : Matrix (Fin 3) (Fin 3) (ZMod n)) ^ k = ↑(U ^ (k : ℤ)) := by
    intro k
    rw [zpow_natCast, Units.val_pow_eq_pow_val]
  have hC : matZ n (if c ≥ 0 then matPowModM A n c.toNat else matPowModM Inv n (-c).toNat) = ↑(U ^ c) := by
    split
    · rename_i hc
      rw [matPowModM_cast _ _ hn, hA, hforth, Int.toNat_of_nonneg hc]
    · rename_i hc
      rw [matPowModM_cast _ _ hn, hInv, hback, Int.toNat_of_nonneg (by omega), neg_neg]
  unfold Rng.advanceMat jumpLength
  simp only
  split
  · rw [matMatModM_cast _ _ hn, hC, matTwoPowModM_cast _ _ hn, hA, hforth, zpow_add, Units.val_mul]
    push_cast
    rfl
  · split
    · rw [matMatModM_cast _ _ hn, hC, matTwoPowModM_cast _ _ hn, hInv, hback, zpow_add, Units.val_mul]
      push_cast
      rfl
    · rw [hC, zero_add]

end Modulo

/-! ## The two recurrences -/

/-- `m1`, as a natural number. -/
def mod1 : ℕ := 4294967087

/-- `m2`, as a natural number. -/
def mod2 : ℕ := 4294944443

theorem m1_eq : m1 = (mod1 : ℤ) := rfl

theorem m2_eq : m2 = (mod2 : ℤ) := rfl

theorem mod1_pos : 0 < (mod1 : ℤ) := by decide

theorem mod2_pos : 0 < (mod2 : ℤ) := by decide

theorem InvA1_mul : matMatModM InvA1 A1p0 m1 = 1 ∧ matMatModM A1p0 InvA1 m1 = 1 := by decide +kernel

theorem InvA2_mul : matMatModM InvA2 A2p0 m2 = 1 ∧ matMatModM A2p0 InvA2 m2 = 1 := by decide +kernel

/-- A matrix that can be taken back. -/
def unitsOf {n : ℕ} {A Inv : Mat} (hn : 0 < (n : ℤ))
    (h : matMatModM Inv A n = 1 ∧ matMatModM A Inv n = 1) : (Matrix (Fin 3) (Fin 3) (ZMod n))ˣ where
  val := matZ n A
  inv := matZ n Inv
  val_inv := by rw [← matMatModM_cast _ _ hn, h.2, matZ_one]
  inv_val := by rw [← matMatModM_cast _ _ hn, h.1, matZ_one]

/-- A step of the first recurrence. -/
def units1 : (Matrix (Fin 3) (Fin 3) (ZMod mod1))ˣ := unitsOf mod1_pos InvA1_mul

/-- A step of the second recurrence. -/
def units2 : (Matrix (Fin 3) (Fin 3) (ZMod mod2))ˣ := unitsOf mod2_pos InvA2_mul

/-- The matrices of the source for substreams and streams are the powers they should be. -/
theorem A1p76_eq : matTwoPowModM A1p0 m1 76 = A1p76 := by decide +kernel

theorem A2p76_eq : matTwoPowModM A2p0 m2 76 = A2p76 := by decide +kernel

theorem A1p127_eq : matTwoPowModM A1p76 m1 51 = A1p127 := by decide +kernel

theorem A2p127_eq : matTwoPowModM A2p76 m2 51 = A2p127 := by decide +kernel

theorem val_zpow_natCast {n : ℕ} (U : (Matrix (Fin 3) (Fin 3) (ZMod n))ˣ) (k : ℕ) :
    (↑(U ^ (k : ℤ)) : Matrix (Fin 3) (Fin 3) (ZMod n)) = (↑U : Matrix (Fin 3) (Fin 3) (ZMod n)) ^ k := by
  rw [zpow_natCast, Units.val_pow_eq_pow_val]

theorem A1p76_cast : matZ mod1 A1p76 = ↑(units1 ^ ((2 ^ 76 : ℕ) : ℤ)) := by
  rw [← A1p76_eq, m1_eq, matTwoPowModM_cast _ _ mod1_pos, val_zpow_natCast]
  rfl

theorem A2p76_cast : matZ mod2 A2p76 = ↑(units2 ^ ((2 ^ 76 : ℕ) : ℤ)) := by
  rw [← A2p76_eq, m2_eq, matTwoPowModM_cast _ _ mod2_pos, val_zpow_natCast]
  rfl

theorem A1p127_cast : matZ mod1 A1p127 = ↑(units1 ^ ((2 ^ 127 : ℕ) : ℤ)) := by
  rw [← A1p127_eq, m1_eq, matTwoPowModM_cast _ _ mod1_pos, A1p76_cast, val_zpow_natCast, val_zpow_natCast,
    ← pow_mul, ← pow_add]

theorem A2p127_cast : matZ mod2 A2p127 = ↑(units2 ^ ((2 ^ 127 : ℕ) : ℤ)) := by
  rw [← A2p127_eq, m2_eq, matTwoPowModM_cast _ _ mod2_pos, A2p76_cast, val_zpow_natCast, val_zpow_natCast,
    ← pow_mul, ← pow_add]

/-! ## States -/

/-- The states `CheckSeed` lets through: reduced, and no part is zero. -/
structure Valid (s : Six ℤ) : Prop where
  lo : InRange mod1 s.lo
  hi : InRange mod2 s.hi
  lo_ne : ∃ i, s.lo i ≠ 0
  hi_ne : ∃ i, s.hi i ≠ 0

/-- The points the states stand for. -/
abbrev Point := (Fin 3 → ZMod mod1) × (Fin 3 → ZMod mod2)

def point (s : Six ℤ) : Point := (toZ mod1 s.lo, toZ mod2 s.hi)

/-- The steps of both recurrences, forward and back. -/
def moveBy (z : ℤ) (v : Point) : Point :=
  ((units1 ^ z : (Matrix (Fin 3) (Fin 3) (ZMod mod1))ˣ).val.mulVec v.1,
    (units2 ^ z : (Matrix (Fin 3) (Fin 3) (ZMod mod2))ˣ).val.mulVec v.2)

theorem flow_moveBy : Flow moveBy where
  zero v := by
    unfold moveBy
    rw [zpow_zero, zpow_zero, Units.val_one, Units.val_one, Matrix.one_mulVec, Matrix.one_mulVec]
  add z w v := by
    unfold moveBy
    rw [zpow_add, zpow_add, Units.val_mul, Units.val_mul, ← Matrix.mulVec_mulVec, ← Matrix.mulVec_mulVec]

/-- A matrix that can be taken back does not lead to zero. -/
theorem ne_zero_of_units {n : ℕ} {U : (Matrix (Fin 3) (Fin 3) (ZMod n))ˣ} {s s' : Vec} (hn : 0 < (n : ℤ))
    (h : InRange n s) (h' : InRange n s') (hne : ∃ i, s i ≠ 0) (heq : toZ n s' = U.val.mulVec (toZ n s)) :
    ∃ i, s' i ≠ 0 := by
  by_contra hall
  have hzero : toZ n s' = 0 := (h'.toZ_eq_zero hn).mpr fun i => not_not.mp fun hi => hall ⟨i, hi⟩
  have hback : toZ n s = (↑U⁻¹ : Matrix (Fin 3) (Fin 3) (ZMod n)).mulVec (toZ n s') := by
    rw [heq, Matrix.mulVec_mulVec, Units.inv_mul, Matrix.one_mulVec]
  rw [hzero, Matrix.mulVec_zero, h.toZ_eq_zero hn] at hback
  obtain ⟨i, hi⟩ := hne
  exact hi (hback i)

/-- A state whose point has moved is a state. -/
theorem Valid.moved {s s' : Six ℤ} {z : ℤ} (h : Valid s) (hlo : InRange mod1 s'.lo) (hhi : InRange mod2 s'.hi)
    (heq : point s' = moveBy z (point s)) : Valid s' where
  lo := hlo
  hi := hhi
  lo_ne := ne_zero_of_units mod1_pos h.lo hlo h.lo_ne (congrArg Prod.fst heq)
  hi_ne := ne_zero_of_units mod2_pos h.hi hhi h.hi_ne (congrArg Prod.snd heq)

/-- **A jump**: matrices that are powers of the steps move the point of a state as many steps. -/
theorem Valid.jump {s : Six ℤ} {z : ℤ} {J K : Mat} (h : Valid s) (hJ : matZ mod1 J = ↑(units1 ^ z))
    (hK : matZ mod2 K = ↑(units2 ^ z)) :
    Valid ⟨matVecModM J s.lo m1, matVecModM K s.hi m2⟩ ∧
      point ⟨matVecModM J s.lo m1, matVecModM K s.hi m2⟩ = moveBy z (point s) := by
  have heq : point ⟨matVecModM J s.lo m1, matVecModM K s.hi m2⟩ = moveBy z (point s) := by
    unfold point moveBy
    simp only
    rw [m1_eq, m2_eq, matVecModM_cast _ _ mod1_pos, matVecModM_cast _ _ mod2_pos, hJ, hK]
  exact ⟨h.moved (matVecModM_inRange _ _ mod1_pos) (matVecModM_inRange _ _ mod2_pos) heq, heq⟩

theorem p1_eq (s : Vec) : p1 s = (a12 * s 1 - a13n * s 0) % m1 := by
  unfold p1
  simp only [sub_tdiv_mul]
  exact tmod_corrected _ mod1_pos

theorem p2_eq (s : Vec) : p2 s = (a21 * s 2 - a23n * s 0) % m2 := by
  unfold p2
  simp only [sub_tdiv_mul]
  exact tmod_corrected _ mod2_pos

/-- A step is the product with the matrix. -/
theorem nextState_point (s : Six ℤ) : point (nextState s) = moveBy 1 (point s) := by
  unfold moveBy
  rw [zpow_one, zpow_one]
  refine Prod.ext ?_ ?_
  · show toZ mod1 ![s.lo 1, s.lo 2, p1 s.lo] = (matZ mod1 A1p0).mulVec (toZ mod1 s.lo)
    funext i
    fin_cases i
    · simp [toZ, matZ, A1p0, Matrix.mulVec, dotProduct, Fin.sum_univ_three]
    · simp [toZ, matZ, A1p0, Matrix.mulVec, dotProduct, Fin.sum_univ_three]
    · simp only [toZ, p1_eq, m1_eq]
      simp [ZMod.intCast_mod, matZ, A1p0, a12, a13n, Matrix.mulVec, dotProduct, Fin.sum_univ_three, toZ]
      ring
  · show toZ mod2 ![s.hi 1, s.hi 2, p2 s.hi] = (matZ mod2 A2p0).mulVec (toZ mod2 s.hi)
    funext i
    fin_cases i
    · simp [toZ, matZ, A2p0, Matrix.mulVec, dotProduct, Fin.sum_univ_three]
    · simp [toZ, matZ, A2p0, Matrix.mulVec, dotProduct, Fin.sum_univ_three]
    · simp only [toZ, p2_eq, m2_eq]
      simp [ZMod.intCast_mod, matZ, A2p0, a21, a23n, Matrix.mulVec, dotProduct, Fin.sum_univ_three, toZ]
      ring

theorem Valid.nextState {s : Six ℤ} (h : Valid s) : Valid (nextState s) := by
  refine h.moved (z := 1) ?_ ?_ (nextState_point s)
  · intro i
    fin_cases i
    · exact h.lo 1
    · exact h.lo 2
    · show 0 ≤ p1 s.lo ∧ p1 s.lo < mod1
      rw [p1_eq, m1_eq]
      exact ⟨Int.emod_nonneg _ mod1_pos.ne', Int.emod_lt_of_pos _ mod1_pos⟩
  · intro i
    fin_cases i
    · exact h.hi 1
    · exact h.hi 2
    · show 0 ≤ p2 s.hi ∧ p2 s.hi < mod2
      rw [p2_eq, m2_eq]
      exact ⟨Int.emod_nonneg _ mod2_pos.ne', Int.emod_lt_of_pos _ mod2_pos⟩

/-- The steps of the generator are a flow. -/
theorem moves_nextState : Moves moveBy Tools.nextState Valid point where
  flow := flow_moveBy
  keeps _ h := h.nextState
  point s _ := nextState_point s
  inj s s' h h' heq := by
    obtain ⟨lo, hi⟩ := s
    obtain ⟨lo', hi'⟩ := s'
    obtain ⟨h1, h2⟩ := Prod.mk.inj heq
    obtain rfl : lo = lo' := h.lo.eq h'.lo h1
    obtain rfl : hi = hi' := h.hi.eq h'.hi h2
    rfl

theorem valid_ofSeed {seed : Six ℕ} (h : checkSeed seed = true) : Valid (ofSeed seed) := by
  unfold checkSeed at h
  obtain ⟨h1, h2, ⟨i, hi⟩, j, hj⟩ := of_decide_eq_true h
  exact ⟨fun i => ⟨Int.natCast_nonneg _, h1 i⟩, fun i => ⟨Int.natCast_nonneg _, h2 i⟩,
    ⟨i, Int.natCast_ne_zero.mpr hi⟩, ⟨j, Int.natCast_ne_zero.mpr hj⟩⟩

/-! ## Where the streams are -/

/-- The place of a stream in the sequence of states after a seed. -/
structure Cursor where
  /-- The seed of the package. -/
  base : Six ℤ
  /-- The streams made from it before. -/
  stream : ℕ
  /-- The substreams before the current one. -/
  substream : ℕ
  /-- The steps since the substream was started. -/
  offset : ℤ
  /-- Two steps a number. -/
  precise : Bool

namespace Cursor

variable (c : Cursor)

/-- Where the stream starts. -/
def start : ℤ := c.stream * 2 ^ 127

/-- Where the substream starts. -/
def block : ℤ := c.start + c.substream * 2 ^ 76

/-- Where the stream is. -/
def pos : ℤ := c.block + c.offset

/-- What a call does to the place. -/
def call : Call → Cursor
  | .randU01 => { c with offset := c.offset + if c.precise then 2 else 1 }
  | .resetStartStream => { c with substream := 0, offset := 0 }
  | .resetStartSubstream => { c with offset := 0 }
  | .resetNextSubstream => { c with substream := c.substream + 1, offset := 0 }
  | .advanceState e k => { c with offset := c.offset + jumpLength e k }
  | .setAntithetic _ => c
  | .increasedPrecis incp => { c with precise := incp }
  | .setSeed seed => { c with base := ofSeed seed, stream := 0, substream := 0, offset := 0 }

end Cursor

/-- The places of all streams. -/
structure Plan where
  /-- The seed of the package. -/
  base : Six ℤ
  /-- The streams made from it. -/
  count : ℕ
  cursors : List Cursor

namespace Plan

def new : Plan := ⟨ofSeed Package.defaultSeed, 0, []⟩

def step (p : Plan) : Op → Plan
  | .create => ⟨p.base, p.count + 1, p.cursors ++ [⟨p.base, p.count, 0, 0, false⟩]⟩
  | .setPackageSeed seed => { p with base := ofSeed seed, count := 0 }
  | .setSeedLong i seed =>
    if i < p.cursors.length then
      ⟨ofSeed (Package.seedVec seed), 1, p.cursors.set i ⟨ofSeed (Package.seedVec seed), 0, 0, 0, false⟩⟩
    else p
  | .call i c => { p with cursors := p.cursors.modify i (·.call c) }

end Plan

/-- A stream is where its cursor says. -/
structure Tracks (r : Rng) (c : Cursor) : Prop where
  base : Valid c.base
  validI : Valid r.Ig_
  validB : Valid r.Bg_
  validC : Valid r.Cg_
  start : Apart nextState c.base r.Ig_ c.start
  block : Apart nextState c.base r.Bg_ c.block
  pos : Apart nextState c.base r.Cg_ c.pos
  precise : r.inc_prec_ = c.precise

/-- The streams are where the plan says, and so is the next one. -/
structure Follows (s : Package) (p : Plan) : Prop where
  base : Valid p.base
  next : Valid s.next_seed_
  apart : Apart nextState p.base s.next_seed_ (p.count * 2 ^ 127)
  streams : List.Forall₂ Tracks s.streams p.cursors

/-- Two lists that agree, after a place of both was set. -/
theorem forall₂_set {α β : Type} {R : α → β → Prop} {l : List α} {l' : List β} {a : α} {b : β}
    (h : List.Forall₂ R l l') (hab : R a b) (i : ℕ) : List.Forall₂ R (l.set i a) (l'.set i b) := by
  induction h generalizing i with
  | nil => exact .nil
  | cons hxy h ih =>
    cases i with
    | zero => exact .cons hab h
    | succ i => exact .cons hxy (ih i)

/-- Two lists that agree, after a place of both was changed. -/
theorem forall₂_modify {α β : Type} {R : α → β → Prop} {l : List α} {l' : List β} {a a' : α} {f : β → β}
    (h : List.Forall₂ R l l') {i : ℕ} (ha : l[i]? = some a) (hf : ∀ b, R a b → R a' (f b)) :
    List.Forall₂ R (l.set i a') (l'.modify i f) := by
  induction h generalizing i with
  | nil => cases ha
  | cons hxy h ih =>
    cases i with
    | zero =>
      obtain rfl := Option.some.inj ha
      exact .cons (hf _ hxy) h
    | succ i => exact .cons hxy (ih ha)

section Calls

variable {r r' : Rng} {c : Cursor} {s s' : Package} {p : Plan}

/-- A new current state, at some distance from the old one. -/
theorem Tracks.moveCurrent (h : Tracks r c) {b : Six ℤ} {z : ℤ} (hv : Valid b)
    (heq : point b = moveBy z (point r.Cg_)) :
    Tracks { r with Cg_ := b } { c with offset := c.offset + z } := by
  refine ⟨h.base, h.validI, h.validB, hv, h.start, h.block, ?_, h.precise⟩
  have hpos := moves_nextState.apart_add h.base h.validC hv h.pos heq
  unfold Cursor.pos at hpos ⊢
  rwa [add_assoc] at hpos

theorem Tracks.randU01 (h : Tracks r c) : Tracks r.randU01.1 (c.call .randU01) := by
  have hone : Tracks r.u01.1 { c with offset := c.offset + 1 } :=
    h.moveCurrent h.validC.nextState (nextState_point r.Cg_)
  have htwo : Tracks r.u01.1.u01.1 { c with offset := c.offset + 1 + 1 } :=
    hone.moveCurrent hone.validC.nextState (nextState_point _)
  have hcall : c.call .randU01 = { c with offset := c.offset + if r.inc_prec_ then 2 else 1 } := by
    rw [h.precise]
    rfl
  have hd : r.u01d.1 = r.u01.1.u01.1 := by
    unfold Rng.u01d
    simp only
    split <;> rfl
  rw [hcall]
  unfold Rng.randU01
  split
  · rw [hd, show c.offset + 2 = c.offset + 1 + 1 by ring]
    exact htwo
  · exact hone

theorem Tracks.resetNextSubstream (h : Tracks r c) :
    Tracks r.resetNextSubstream (c.call .resetNextSubstream) := by
  obtain ⟨hv, heq⟩ := h.validB.jump A1p76_cast A2p76_cast
  have hblock := moves_nextState.apart_add h.base h.validB hv h.block heq
  have hnew : (c.call .resetNextSubstream).block = c.block + ((2 ^ 76 : ℕ) : ℤ) := by
    show c.start + ((c.substream + 1 : ℕ) : ℤ) * 2 ^ 76 = c.start + c.substream * 2 ^ 76 + ((2 ^ 76 : ℕ) : ℤ)
    push_cast
    ring
  rw [← hnew] at hblock
  refine ⟨h.base, h.validI, hv, hv, h.start, hblock, ?_, h.precise⟩
  show Apart _ _ _ ((c.call .resetNextSubstream).block + 0)
  rw [add_zero]
  exact hblock

theorem Tracks.advanceState (h : Tracks r c) (e k : ℤ) :
    Tracks (r.advanceState e k) (c.call (.advanceState e k)) := by
  have hJ : matZ mod1 (Rng.advanceMat A1p0 InvA1 m1 e k) = ↑(units1 ^ jumpLength e k) :=
    advanceMat_cast mod1_pos rfl rfl e k
  have hK : matZ mod2 (Rng.advanceMat A2p0 InvA2 m2 e k) = ↑(units2 ^ jumpLength e k) :=
    advanceMat_cast mod2_pos rfl rfl e k
  obtain ⟨hv, heq⟩ := h.validC.jump hJ hK
  exact h.moveCurrent hv heq

/-- A stream that starts. -/
theorem tracks_start {b s : Six ℤ} {k : ℕ} {a i : Bool} (hb : Valid b) (hs : Valid s)
    (h : Apart nextState b s (k * 2 ^ 127)) : Tracks ⟨s, s, s, a, i⟩ ⟨b, k, 0, 0, i⟩ := by
  have hblock : (⟨b, k, 0, 0, i⟩ : Cursor).block = k * 2 ^ 127 := by
    simp [Cursor.block, Cursor.start]
  have hpos : (⟨b, k, 0, 0, i⟩ : Cursor).pos = k * 2 ^ 127 := by
    rw [Cursor.pos, hblock, add_zero]
  refine ⟨hb, hs, hs, hs, h, ?_, ?_, rfl⟩
  · rw [hblock]
    exact h
  · rw [hpos]
    exact h

/-- **A call of a stream** moves it as it moves its cursor. -/
theorem Tracks.call (h : Tracks r c) {k : Call} (hr : r.call k = some r') : Tracks r' (c.call k) := by
  cases k with
  | randU01 =>
    cases hr
    exact h.randU01
  | resetStartStream =>
    cases hr
    have hblock : (c.call .resetStartStream).block = c.start := by
      simp [Cursor.block, Cursor.call, Cursor.start]
    have hpos : (c.call .resetStartStream).pos = c.start := by
      rw [Cursor.pos, hblock]
      exact add_zero _
    exact ⟨h.base, h.validI, h.validI, h.validI, h.start, hblock ▸ h.start, hpos ▸ h.start, h.precise⟩
  | resetStartSubstream =>
    cases hr
    have hpos : (c.call .resetStartSubstream).pos = c.block := add_zero _
    exact ⟨h.base, h.validI, h.validB, h.validB, h.start, h.block, hpos ▸ h.block, h.precise⟩
  | resetNextSubstream =>
    cases hr
    exact h.resetNextSubstream
  | advanceState e k =>
    cases hr
    exact h.advanceState e k
  | setAntithetic a =>
    cases hr
    exact ⟨h.base, h.validI, h.validB, h.validC, h.start, h.block, h.pos, h.precise⟩
  | increasedPrecis incp =>
    cases hr
    exact ⟨h.base, h.validI, h.validB, h.validC, h.start, h.block, h.pos, rfl⟩
  | setSeed seed =>
    have hcheck : checkSeed seed = true ∧
        r' = { r with Cg_ := ofSeed seed, Bg_ := ofSeed seed, Ig_ := ofSeed seed } := by
      have hr' : r.setSeed seed = some r' := hr
      unfold Rng.setSeed at hr'
      split at hr'
      · rename_i hok
        exact ⟨hok, (Option.some.inj hr').symm⟩
      · cases hr'
    obtain ⟨hok, rfl⟩ := hcheck
    have hv := valid_ofSeed hok
    have hnew := tracks_start (k := 0) (a := r.anti_) (i := r.inc_prec_) hv hv
      (by simpa using moves_nextState.apart_refl hv)
    rw [h.precise] at hnew
    exact ⟨hnew.base, hnew.validI, hnew.validB, hnew.validC, hnew.start, hnew.block, hnew.pos, h.precise⟩

/-- The constructor takes the next seed, and jumps. -/
theorem Follows.create (h : Follows s p) : Follows s.create (p.step .create) := by
  obtain ⟨hv, heq⟩ := h.next.jump A1p127_cast A2p127_cast
  have hnext := moves_nextState.apart_add h.base h.next hv h.apart heq
  refine ⟨h.base, hv, ?_, ?_⟩
  · have hcount : ((p.step .create).count : ℤ) * 2 ^ 127 = p.count * 2 ^ 127 + ((2 ^ 127 : ℕ) : ℤ) := by
      show ((p.count + 1 : ℕ) : ℤ) * 2 ^ 127 = _
      push_cast
      ring
    rw [hcount]
    exact hnext
  · exact List.rel_append h.streams (.cons (tracks_start h.base h.next h.apart) .nil)

theorem Follows.setPackageSeed (h : Follows s p) {seed : Six ℕ} (hs : s.setPackageSeed seed = some s') :
    Follows s' ⟨ofSeed seed, 0, p.cursors⟩ := by
  unfold Package.setPackageSeed at hs
  split at hs
  · rename_i hok
    obtain rfl := Option.some.inj hs
    have hv := valid_ofSeed hok
    exact ⟨hv, hv, by simpa using moves_nextState.apart_refl hv, h.streams⟩
  · cases hs

/-- **Every call keeps the streams where the plan says.** -/
theorem Follows.step (h : Follows s p) {op : Op} (hs : s.step op = some s') : Follows s' (p.step op) := by
  have hlen := h.streams.length_eq
  cases op with
  | create =>
    cases hs
    exact h.create
  | setPackageSeed seed => exact h.setPackageSeed hs
  | setSeedLong i seed =>
    have hs' : (if i < s.streams.length then s.setSeedLong i seed else some s) = some s' := hs
    show Follows s' (if i < p.cursors.length then _ else p)
    rw [← hlen]
    split at hs'
    · rename_i hi
      rw [if_pos hi]
      obtain ⟨s₁, h1, rfl⟩ := Option.map_eq_some_iff.mp hs'
      have hseed := h.setPackageSeed h1
      have hnew := hseed.create
      have hcreated := tracks_start (a := false) (i := false) hseed.base hseed.next hseed.apart
      exact ⟨hnew.base, hnew.next, hnew.apart, forall₂_set hseed.streams hcreated i⟩
    · rename_i hi
      rw [if_neg hi]
      obtain rfl := Option.some.inj hs'
      exact h
  | call i k =>
    have hs' : s.streams[i]?.elim (some s) (fun r => s.call i r k) = some s' := hs
    cases hi : s.streams[i]? with
    | none =>
      rw [hi] at hs'
      obtain rfl := Option.some.inj hs'
      have hle : p.cursors.length ≤ i := hlen ▸ List.getElem?_eq_none_iff.mp hi
      have hsame : p.cursors.modify i (·.call k) = p.cursors := List.modify_eq_self hle
      refine ⟨h.base, h.next, h.apart, ?_⟩
      show List.Forall₂ Tracks s.streams (p.cursors.modify i (·.call k))
      rw [hsame]
      exact h.streams
    | some r =>
      rw [hi] at hs'
      obtain ⟨r', hr', rfl⟩ := Option.map_eq_some_iff.mp hs'
      exact ⟨h.base, h.next, h.apart, forall₂_modify h.streams hi fun c hc => hc.call hr'⟩

end Calls

theorem follows_new : Follows Package.new Plan.new := by
  have hv : Valid (ofSeed Package.defaultSeed) := valid_ofSeed (by decide)
  have hzero : ((Plan.new.count : ℕ) : ℤ) * 2 ^ 127 = 0 := by decide
  refine ⟨hv, hv, ?_, .nil⟩
  rw [hzero]
  exact moves_nextState.apart_refl hv

/-- **The streams are where the plan says**, in every run: the `k`-th stream made from a seed starts
`k * 2 ^ 127` steps after it, its `j`-th substream `j * 2 ^ 76` steps later, and the current state is as many
steps further as numbers were drawn, with every jump of `advance_state` taken into account. -/
theorem streams_track (ops : List Op) (s : Package) (h : ops.foldlM Package.step Package.new = some s) :
    Follows s (ops.foldl Plan.step Plan.new) := by
  have hrun : ∀ (ops : List Op) (s₀ : Package) (p : Plan), Follows s₀ p → ops.foldlM Package.step s₀ = some s →
      Follows s (ops.foldl Plan.step p) := by
    intro ops
    induction ops with
    | nil =>
      intro s₀ p hp h
      obtain rfl := Option.some.inj h
      exact hp
    | cons op ops ih =>
      intro s₀ p hp h
      obtain ⟨s₁, h1, h2⟩ := Option.bind_eq_some_iff.mp h
      exact ih s₁ _ (hp.step h1) h2
  exact hrun ops _ _ follows_new h

/-- Two streams; the first goes to its second substream, draws a number, and goes back a step. -/
theorem streams_track_two : ∃ s, [Op.create, .create, .call 0 .resetNextSubstream, .call 0 .randU01,
      .call 0 (.advanceState 0 (-1))].foldlM Package.step Package.new = some s ∧
    Follows s ⟨ofSeed Package.defaultSeed, 2,
      [⟨ofSeed Package.defaultSeed, 0, 1, 0, false⟩, ⟨ofSeed Package.defaultSeed, 1, 0, 0, false⟩]⟩ :=
  ⟨_, rfl, streams_track [Op.create, .create, .call 0 .resetNextSubstream, .call 0 .randU01,
    .call 0 (.advanceState 0 (-1))] _ rfl⟩

/-! ## What is returned -/

/-- The combination of two components is between zero and one. -/
theorem combine_mem {x y : ℤ} (hx : 0 ≤ x ∧ x < m1) (hy : 0 ≤ y ∧ y < m2) :
    0 < combine x y ∧ combine x y < 1 := by
  have hbound : ∀ z : ℤ, 0 < z → z < m1 + 1 → 0 < (z : ℚ) * norm ∧ (z : ℚ) * norm < 1 := by
    intro z h0 h1
    have hden : (0 : ℚ) < m1 + 1 := by norm_num [m1]
    unfold norm
    rw [mul_one_div, div_lt_one hden]
    exact ⟨div_pos (by exact_mod_cast h0) hden, by exact_mod_cast h1⟩
  have hm : m2 < m1 := by decide
  unfold combine
  split
  · rename_i hgt
    have h := hbound (x - y) (by omega) (by omega)
    push_cast at h
    exact h
  · have h := hbound (x - y + m1) (by omega) (by omega)
    push_cast at h
    exact h

theorem Valid.u01_mem {r : Rng} (h : Valid r.Cg_) : 0 < r.u01.2 ∧ r.u01.2 < 1 := by
  have hnext := h.nextState
  obtain ⟨h0, h1⟩ := combine_mem (hnext.lo 2) (hnext.hi 2)
  have hlast : combine (p1 r.Cg_.lo) (p2 r.Cg_.hi) =
      combine ((Tools.nextState r.Cg_).lo 2) ((Tools.nextState r.Cg_).hi 2) := rfl
  unfold Rng.u01
  simp only
  rw [hlast]
  split
  · constructor <;> linarith
  · exact ⟨h0, h1⟩

theorem Valid.u01d_mem {r : Rng} (h : Valid r.Cg_) : 0 ≤ r.u01d.2 ∧ r.u01d.2 < 1 := by
  obtain ⟨h0, h1⟩ := h.u01_mem
  have hnext : Valid r.u01.1.Cg_ := h.nextState
  obtain ⟨h2, h3⟩ := hnext.u01_mem
  have hfact : fact = 1 / 16777216 := rfl
  unfold Rng.u01d
  simp only
  rw [hfact]
  split
  · split
    · constructor <;> linarith
    · constructor <;> linarith
  · split
    · constructor <;> linarith
    · constructor <;> linarith

theorem Valid.randU01_mem {r : Rng} (h : Valid r.Cg_) :
    0 ≤ r.randU01.2 ∧ r.randU01.2 < 1 ∧ (r.inc_prec_ = false → 0 < r.randU01.2) := by
  unfold Rng.randU01
  split
  · rename_i hinc
    exact ⟨h.u01d_mem.1, h.u01d_mem.2, fun hno => absurd (hinc.symm.trans hno) (by decide)⟩
  · exact ⟨h.u01_mem.1.le, h.u01_mem.2, fun _ => h.u01_mem.1⟩

/-- A number of a range, as large as the range of a `long`. -/
theorem Valid.randInt_mem {r : Rng} (h : Valid r.Cg_) {low high : ℤ} (hlow : -2 ^ 63 ≤ low) (hle : low ≤ high)
    (hhigh : high < 2 ^ 63) : low ≤ (r.randInt low high).2 ∧ (r.randInt low high).2 ≤ high := by
  obtain ⟨h0, h1, -⟩ := h.randU01_mem
  unfold Rng.randInt
  simp only
  generalize r.randU01.2 = u at h0 h1 ⊢
  -- the number of values, or zero when it is `2 ^ 64`
  have hn : 0 ≤ (high - low + 1) % 2 ^ 64 ∧ (high - low + 1) % 2 ^ 64 ≤ high - low + 1 := by
    omega
  generalize (high - low + 1) % 2 ^ 64 = n at hn ⊢
  have hn0 : (0 : ℚ) ≤ n := by exact_mod_cast hn.1
  have hfloor0 : 0 ≤ ⌊(n : ℚ) * u⌋ := Int.floor_nonneg.mpr (mul_nonneg hn0 h0)
  have hfloor : ⌊(n : ℚ) * u⌋ ≤ high - low := by
    rcases hn.1.eq_or_lt with hzero | hpos
    · rw [← hzero]
      simp only [Int.cast_zero, zero_mul, Int.floor_zero]
      omega
    · have hlt : (n : ℚ) * u < n := mul_lt_of_lt_one_right (by exact_mod_cast hpos) h1
      have := Int.floor_lt.mpr hlt
      omega
  rw [Int.bmod_def]
  split <;> omega

/-- A state that is saved is restored. -/
theorem Valid.restores {r : Rng} (h : Valid r.Cg_) :
    checkSeed r.getState = true ∧ ofSeed r.getState = r.Cg_ := by
  have hlo : ∀ i, ((r.Cg_.lo i).toNat : ℤ) = r.Cg_.lo i := fun i => Int.toNat_of_nonneg (h.lo i).1
  have hhi : ∀ i, ((r.Cg_.hi i).toNat : ℤ) = r.Cg_.hi i := fun i => Int.toNat_of_nonneg (h.hi i).1
  constructor
  · refine decide_eq_true ⟨fun i => ?_, fun i => ?_, ?_, ?_⟩
    · show ((r.Cg_.lo i).toNat : ℤ) < m1
      rw [hlo]
      exact (h.lo i).2
    · show ((r.Cg_.hi i).toNat : ℤ) < m2
      rw [hhi]
      exact (h.hi i).2
    · obtain ⟨i, hi⟩ := h.lo_ne
      exact ⟨i, fun hzero => hi (by rw [← hlo i, show (r.Cg_.lo i).toNat = 0 from hzero, Nat.cast_zero])⟩
    · obtain ⟨i, hi⟩ := h.hi_ne
      exact ⟨i, fun hzero => hi (by rw [← hhi i, show (r.Cg_.hi i).toNat = 0 from hzero, Nat.cast_zero])⟩
  · show (⟨fun i => ((r.Cg_.lo i).toNat : ℤ), fun i => ((r.Cg_.hi i).toNat : ℤ)⟩ : Six ℤ) = r.Cg_
    rw [funext hlo, funext hhi]

end Ns2.Tools
