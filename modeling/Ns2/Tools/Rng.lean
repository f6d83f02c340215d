import Mathlib

/-!
# The random number generator

The model of `tools/rng.cc`, as it is without `OLD_RNG`: two recurrences of order three, each modulo a
number below `2 ^ 32`, and the matrices to go ahead in them.  The `double`s that hold a state are
integers; those that are returned are rational numbers.

* `multModM`, `matVecModM`, `matMatModM`, `matTwoPowModM`, `matPowModM` — arithmetic modulo `m`.
* `nextState`, `u01`, `u01d`, `randInt` — a step of the recurrences, and what is returned.
* `init`, `resetNextSubstream`, `advanceState` and the others — the functions of a stream.
* `Package`, `Op`, `Package.step` — all streams of a program, and one call.
* `multModM_exact` — no number on the way is too large for a `double`.
-/

namespace Ns2.Tools

/-- Three numbers of a state. -/
abbrev Vec := Fin 3 → ℤ

abbrev Mat := Matrix (Fin 3) (Fin 3) ℤ

/-! ## The constants -/

def m1 : ℤ := 4294967087

def m2 : ℤ := 4294944443

def norm : ℚ := 1 / (m1 + 1)

def a12 : ℤ := 1403580

def a13n : ℤ := 810728

def a21 : ℤ := 527612

def a23n : ℤ := 1370589

def two17 : ℤ := 131072

def two53 : ℤ := 9007199254740992

/-- `1 / 2 ^ 24`. -/
def fact : ℚ := 1 / 16777216

def InvA1 : Mat := !![184888585, 0, 1945170933; 1, 0, 0; 0, 1, 0]

def InvA2 : Mat := !![0, 360363334, 4225571728; 1, 0, 0; 0, 1, 0]

def A1p0 : Mat := !![0, 1, 0; 0, 0, 1; -810728, 1403580, 0]

def A2p0 : Mat := !![0, 1, 0; 0, 0, 1; -1370589, 0, 527612]

def A1p76 : Mat :=
  !![82758667, 1871391091, 4127413238; 3672831523, 69195019, 1871391091; 3672091415, 3528743235, 69195019]

def A2p76 : Mat :=
  !![1511326704, 3759209742, 1610795712; 4292754251, 1511326704, 3889917532;
    3859662829, 4292754251, 3708466080]

def A1p127 : Mat :=
  !![2427906178, 3580155704, 949770784; 226153695, 1230515664, 3580155704; 1988835001, 986791581, 1230515664]

def A2p127 : Mat :=
  !![1464411153, 277697599, 1610723613; 32183930, 1464411153, 1022607788; 2824425944, 32183930, 2093834863]

/-! ## Arithmetic modulo `m` -/

/-- `MultModM`: `(a * s + c) MOD m`. -/
def multModM (a s c m : ℤ) : ℤ :=
  let v := a * s + c
  let v :=
    if v ≥ two53 ∨ v ≤ -two53 then
      let a1 := a.tdiv two17
      let a := a - a1 * two17
      let v := a1 * s
      let v := v - v.tdiv m * m
      v * two17 + a * s + c
    else v
  let v := v - v.tdiv m * m
  if v < 0 then v + m else v

/-- `MatVecModM`. -/
def matVecModM (A : Mat) (s : Vec) (m : ℤ) : Vec := fun i =>
  let x := multModM (A i 0) (s 0) 0 m
  let x := multModM (A i 1) (s 1) x m
  multModM (A i 2) (s 2) x m

/-- `MatMatModM`: column by column. -/
def matMatModM (A B : Mat) (m : ℤ) : Mat := fun j i => matVecModM A (fun k => B k i) m j

/-- `MatTwoPowModM`. -/
def matTwoPowModM (A : Mat) (m : ℤ) (e : ℕ) : Mat := (fun B => matMatModM B B m)^[e] A

/-- The loop of `MatPowModM`. -/
def matPowLoop (m : ℤ) (n : ℕ) (W B : Mat) : Mat :=
  if n = 0 then B
  else matPowLoop m (n / 2) (matMatModM W W m) (if n % 2 = 1 then matMatModM W B m else B)

/-- `MatPowModM`. -/
def matPowModM (A : Mat) (m : ℤ) (n : ℕ) : Mat := matPowLoop m n A 1

/-- An integer that a `double` holds, as all up to `2 ^ 53` do. -/
def double (x : ℤ) : Option ℤ := if |x| ≤ two53 then some x else none

/-- `MultModM`, where every number on the way has to fit into a `double`.  What is not below `2 ^ 53` is
compared only. -/
def multModMDouble (a s c m : ℤ) : Option ℤ :=
  (if a * s + c ≥ two53 ∨ a * s + c ≤ -two53 then
      (double (a - a.tdiv two17 * two17)).bind fun a' =>
      (double (a.tdiv two17 * s)).bind fun v =>
      (double (v.tdiv m * m)).bind fun w =>
      (double ((v - w) * two17)).bind fun x =>
      (double (a' * s)).bind fun y =>
      (double (x + y)).bind fun z => double (z + c)
    else (double (a * s)).bind fun v => double (v + c)).bind fun v =>
  (double (v.tdiv m * m)).bind fun w =>
  (double (v - w)).bind fun v => if v < 0 then double (v + m) else some v

section MultModM

variable {a s c m : ℤ}

/-- What is left after the multiple of `m` has been taken off. -/
theorem sub_tdiv_mul (v m : ℤ) : v - v.tdiv m * m = v.tmod m := by
  have := Int.tmod_add_mul_tdiv v m
  linarith [mul_comm m (v.tdiv m)]

/-- The last two steps are a remainder that is not negative. -/
theorem tmod_corrected (v : ℤ) (hm : 0 < m) : (if v.tmod m < 0 then v.tmod m + m else v.tmod m) = v % m := by
  have hmod : v.tmod m % m = v % m := by
    rw [← sub_tdiv_mul, mul_comm, Int.sub_mul_emod_self_left]
  have hlt : v.tmod m < m := Int.tmod_lt_of_pos v hm
  have hgt : -m < v.tmod m := by
    have h := Int.tmod_lt_of_pos (-v) hm
    rw [Int.neg_tmod] at h
    omega
  split
  · rename_i hneg
    rw [← hmod, ← Int.add_emod_right, Int.emod_eq_of_lt (by omega) (by omega)]
  · rename_i hpos
    rw [← hmod, Int.emod_eq_of_lt (by omega) hlt]

/-- `MultModM` is right for all integers. -/
theorem multModM_eq (a s c : ℤ) (hm : 0 < m) : multModM a s c m = (a * s + c) % m := by
  unfold multModM
  simp only [sub_tdiv_mul]
  rw [tmod_corrected _ hm]
  split
  · -- the upper part of `a` is multiplied first, and reduced
    have hv : (a.tdiv two17 * s).tmod m = a.tdiv two17 * s - (a.tdiv two17 * s).tdiv m * m :=
      (sub_tdiv_mul _ _).symm
    have ha : a.tmod two17 = a - a.tdiv two17 * two17 := (sub_tdiv_mul _ _).symm
    rw [hv, ha]
    have heq : (a.tdiv two17 * s - (a.tdiv two17 * s).tdiv m * m) * two17 + (a - a.tdiv two17 * two17) * s + c =
        (a * s + c) - m * ((a.tdiv two17 * s).tdiv m * two17) := by
      ring
    rw [heq, Int.sub_mul_emod_self_left]
  · rfl

theorem double_of_le {x : ℤ} (h : |x| ≤ two53) : double x = some x := if_pos h

/-- A multiple of `m` that is taken off is not larger than what it is taken off. -/
theorem abs_tdiv_mul_le (v : ℤ) (hm : 0 < m) : |v.tdiv m * m| ≤ |v| := by
  rw [abs_mul, abs_of_pos hm, Int.abs_eq_natAbs, Int.natAbs_tdiv, Int.abs_eq_natAbs]
  obtain ⟨k, rfl⟩ := Int.eq_ofNat_of_zero_le hm.le
  rw [Int.natAbs_natCast]
  exact_mod_cast Nat.div_mul_le_self _ _

/-- The last steps do not leave the range of a `double`. -/
theorem reduce_double (v : ℤ) (hv : |v| ≤ two53) (hm : 0 < m) (hm' : m < 2 ^ 35) :
    ((double (v.tdiv m * m)).bind fun w =>
      (double (v - w)).bind fun v => if v < 0 then double (v + m) else some v) = some (v % m) := by
  have hlt : v.tmod m < m := Int.tmod_lt_of_pos v hm
  have hgt : -m < v.tmod m := by
    have h := Int.tmod_lt_of_pos (-v) hm
    rw [Int.neg_tmod] at h
    omega
  have hbig : (2 : ℤ) ^ 35 ≤ two53 := by decide
  have htmod : |v - v.tdiv m * m| ≤ two53 := by
    rw [sub_tdiv_mul, abs_le]
    constructor <;> omega
  rw [double_of_le ((abs_tdiv_mul_le v hm).trans hv), Option.bind_some, double_of_le htmod,
    Option.bind_some, sub_tdiv_mul, ← tmod_corrected v hm]
  split
  · exact double_of_le (abs_le.mpr ⟨by omega, by omega⟩)
  · rfl

/-- **`MultModM` is exact.**  Below `2 ^ 35`, as the source asks for, every product, sum and difference on
the way fits into a `double`, and the result is `(a * s + c) MOD m`.  A negative factor is allowed when its
product is above `-2 ^ 53`. -/
theorem multModM_exact (a s c m : ℤ) (ha : a < 2 ^ 35) (hs : 0 ≤ s ∧ s < 2 ^ 35) (hc : 0 ≤ c ∧ c < 2 ^ 35)
    (hm : 0 < m ∧ m < 2 ^ 35) (hneg : 0 ≤ a ∨ -two53 < a * s) :
    multModMDouble a s c m = some (multModM a s c m) ∧ multModM a s c m = (a * s + c) % m := by
  refine ⟨?_, multModM_eq a s c hm.1⟩
  rw [multModM_eq a s c hm.1]
  have h53 : two53 = 2 ^ 53 := rfl
  have h17 : two17 = 2 ^ 17 := rfl
  unfold multModMDouble
  split
  · rename_i hlarge
    have hpos : 0 ≤ a := by
      by_contra hlt
      have hprod : a * s ≤ 0 := mul_nonpos_of_nonpos_of_nonneg (by omega) hs.1
      have := hneg.resolve_left hlt
      omega
    -- the two parts of `a`
    have hq : 0 ≤ a.tdiv two17 ∧ a.tdiv two17 ≤ 2 ^ 18 - 1 := by
      rw [Int.tdiv_eq_ediv_of_nonneg hpos, h17]
      omega
    have hr : 0 ≤ a - a.tdiv two17 * two17 ∧ a - a.tdiv two17 * two17 ≤ 2 ^ 17 - 1 := by
      rw [Int.tdiv_eq_ediv_of_nonneg hpos, h17]
      omega
    generalize a.tdiv two17 = q at hq hr ⊢
    generalize hrdef : a - q * two17 = r at hr ⊢
    have hv : 0 ≤ q * s ∧ q * s ≤ (2 ^ 18 - 1) * (2 ^ 35 - 1) :=
      ⟨mul_nonneg hq.1 hs.1, mul_le_mul hq.2 (by omega) hs.1 (by norm_num)⟩
    have hy : 0 ≤ r * s ∧ r * s ≤ (2 ^ 17 - 1) * (2 ^ 35 - 1) :=
      ⟨mul_nonneg hr.1 hs.1, mul_le_mul hr.2 (by omega) hs.1 (by norm_num)⟩
    have hmod : q * s - (q * s).tdiv m * m = (q * s) % m := by
      rw [sub_tdiv_mul, Int.tmod_eq_emod_of_nonneg hv.1]
    have h0 := Int.emod_nonneg (q * s) hm.1.ne'
    have h1 := Int.emod_lt_of_pos (q * s) hm.1
    have hfit : ∀ x : ℤ, 0 ≤ x → x < 2 ^ 53 → double x = some x := fun x hx hx' =>
      double_of_le (abs_le.mpr ⟨by omega, by omega⟩)
    rw [hfit r hr.1 (by omega), Option.bind_some, hfit _ hv.1 (by omega), Option.bind_some,
      double_of_le ((abs_tdiv_mul_le _ hm.1).trans (abs_le.mpr ⟨by omega, by omega⟩)), Option.bind_some, hmod,
      h17, hfit _ (by omega) (by omega), Option.bind_some, hfit _ hy.1 (by omega), Option.bind_some,
      hfit _ (by omega) (by omega), Option.bind_some, hfit _ (by omega) (by omega), Option.bind_some,
      reduce_double _ (abs_le.mpr ⟨by omega, by omega⟩) hm.1 hm.2, ← hmod, ← hrdef, h17]
    have heq : (q * s - (q * s).tdiv m * m) * 2 ^ 17 + (a - q * 2 ^ 17) * s + c =
        (a * s + c) - m * ((q * s).tdiv m * 2 ^ 17) := by
      ring
    rw [heq, Int.sub_mul_emod_self_left]
  · rename_i hsmall
    have hprod : |a * s| ≤ two53 := by
      rw [abs_le]
      rcases hneg with hpos | hgt
      · have := mul_nonneg hpos hs.1
        constructor <;> omega
      · constructor <;> omega
    rw [double_of_le hprod, Option.bind_some, double_of_le (abs_le.mpr ⟨by omega, by omega⟩), Option.bind_some,
      reduce_double _ (abs_le.mpr ⟨by omega, by omega⟩) hm.1 hm.2]

/-- A product of the size the jumps have, and one with a negative factor. -/
theorem multModM_exact_jump :
    multModMDouble 4127413238 4294967086 4294967086 m1 = some (multModM 4127413238 4294967086 4294967086 m1) ∧
      multModMDouble (-810728) 4294967086 0 m1 = some (multModM (-810728) 4294967086 0 m1) :=
  ⟨(multModM_exact 4127413238 4294967086 4294967086 m1 (by decide) (by decide) (by decide) (by decide)
      (by decide)).1,
    (multModM_exact (-810728) 4294967086 0 m1 (by decide) (by decide) (by decide) (by decide) (by decide)).1⟩

end MultModM

/-! ## One stream -/

/-- An array of six: what belongs to the first recurrence, and what belongs to the second. -/
structure Six (α : Type) where
  lo : Fin 3 → α
  hi : Fin 3 → α
  deriving DecidableEq

/-- `CheckSeed`: the seed is legitimate. -/
def checkSeed (seed : Six ℕ) : Bool :=
  (∀ i, (seed.lo i : ℤ) < m1) ∧ (∀ i, (seed.hi i : ℤ) < m2) ∧ (∃ i, seed.lo i ≠ 0) ∧ ∃ i, seed.hi i ≠ 0

/-- A seed as an array of `double`s. -/
def ofSeed (seed : Six ℕ) : Six ℤ := ⟨fun i => seed.lo i, fun i => seed.hi i⟩

structure Rng where
  /-- The current state. -/
  Cg_ : Six ℤ
  /-- The state at the start of the substream. -/
  Bg_ : Six ℤ
  /-- The state at the start of the stream. -/
  Ig_ : Six ℤ
  /-- Antithetic variates. -/
  anti_ : Bool
  /-- Extended precision. -/
  inc_prec_ : Bool

/-- `p1` of `U01`. -/
def p1 (s : Vec) : ℤ :=
  let p := a12 * s 1 - a13n * s 0
  let p := p - p.tdiv m1 * m1
  if p < 0 then p + m1 else p

/-- `p2` of `U01`. -/
def p2 (s : Vec) : ℤ :=
  let p := a21 * s 2 - a23n * s 0
  let p := p - p.tdiv m2 * m2
  if p < 0 then p + m2 else p

/-- What `U01` does to the state. -/
def nextState (s : Six ℤ) : Six ℤ := ⟨![s.lo 1, s.lo 2, p1 s.lo], ![s.hi 1, s.hi 2, p2 s.hi]⟩

/-- The combination of the two components in `U01`. -/
def combine (p1 p2 : ℤ) : ℚ := if p1 > p2 then (p1 - p2) * norm else (p1 - p2 + m1) * norm

namespace Rng

/-- `U01`. -/
def u01 (r : Rng) : Rng × ℚ :=
  let u := combine (p1 r.Cg_.lo) (p2 r.Cg_.hi)
  ({ r with Cg_ := nextState r.Cg_ }, if r.anti_ then 1 - u else u)

/-- `U01d`. -/
def u01d (r : Rng) : Rng × ℚ :=
  let x := r.u01
  let y := x.1.u01
  if r.anti_ then
    let u := x.2 + (y.2 - 1) * fact
    (y.1, if u < 0 then u + 1 else u)
  else
    let u := x.2 + y.2 * fact
    (y.1, if u < 1 then u else u - 1)

/-- `rand_u01`. -/
def randU01 (r : Rng) : Rng × ℚ := if r.inc_prec_ then r.u01d else r.u01

/-- `rand_int`, for values of a 64-bit `long`. -/
def randInt (r : Rng) (low high : ℤ) : Rng × ℤ :=
  let x := r.randU01
  let n : ℤ := (high - low + 1) % 2 ^ 64
  (x.1, Int.bmod (low + ⌊n * x.2⌋) (2 ^ 64))

/-- `init`: the new stream, and the seed of the next one. -/
def init (next_seed_ : Six ℤ) : Rng × Six ℤ :=
  (⟨next_seed_, next_seed_, next_seed_, false, false⟩,
    ⟨matVecModM A1p127 next_seed_.lo m1, matVecModM A2p127 next_seed_.hi m2⟩)

/-- `reset_start_stream`. -/
def resetStartStream (r : Rng) : Rng := { r with Cg_ := r.Ig_, Bg_ := r.Ig_ }

/-- `reset_start_substream`. -/
def resetStartSubstream (r : Rng) : Rng := { r with Cg_ := r.Bg_ }

/-- `reset_next_substream`. -/
def resetNextSubstream (r : Rng) : Rng :=
  let b : Six ℤ := ⟨matVecModM A1p76 r.Bg_.lo m1, matVecModM A2p76 r.Bg_.hi m2⟩
  { r with Cg_ := b, Bg_ := b }

/-- `set_seed`, for six numbers. -/
def setSeed (r : Rng) (seed : Six ℕ) : Option Rng :=
  if checkSeed seed then some { r with Cg_ := ofSeed seed, Bg_ := ofSeed seed, Ig_ := ofSeed seed }
  else none

/-- `get_state`. -/
def getState (r : Rng) : Six ℕ := ⟨fun i => (r.Cg_.lo i).toNat, fun i => (r.Cg_.hi i).toNat⟩

/-- The matrix of `advance_state`, for one of the recurrences. -/
def advanceMat (A Inv : Mat) (m e c : ℤ) : Mat :=
  let C := if c ≥ 0 then matPowModM A m c.toNat else matPowModM Inv m (-c).toNat
  if e > 0 then matMatModM (matTwoPowModM A m e.toNat) C m
  else if e < 0 then matMatModM (matTwoPowModM Inv m (-e).toNat) C m
  else C

/-- `advance_state`. -/
def advanceState (r : Rng) (e c : ℤ) : Rng :=
  { r with
    Cg_ := ⟨matVecModM (advanceMat A1p0 InvA1 m1 e c) r.Cg_.lo m1,
      matVecModM (advanceMat A2p0 InvA2 m2 e c) r.Cg_.hi m2⟩ }

end Rng

/-! ## All streams -/

/-- A call of a stream. -/
inductive Call where
  | randU01
  | resetStartStream
  | resetStartSubstream
  | resetNextSubstream
  | advanceState (e c : ℤ)
  | setAntithetic (a : Bool)
  | increasedPrecis (incp : Bool)
  | setSeed (seed : Six ℕ)

def Rng.call (r : Rng) : Call → Option Rng
  | .randU01 => some r.randU01.1
  | .resetStartStream => some r.resetStartStream
  | .resetStartSubstream => some r.resetStartSubstream
  | .resetNextSubstream => some r.resetNextSubstream
  | .advanceState e c => some (r.advanceState e c)
  | .setAntithetic a => some { r with anti_ := a }
  | .increasedPrecis incp => some { r with inc_prec_ := incp }
  | .setSeed seed => r.setSeed seed

/-- The streams of a program, and the seed of the next one. -/
structure Package where
  next_seed_ : Six ℤ
  streams : List Rng

inductive Op where
  /-- A stream is made. -/
  | create
  /-- `set_package_seed`. -/
  | setPackageSeed (seed : Six ℕ)
  /-- `set_seed` of a stream, for one number that is not zero. -/
  | setSeedLong (i : ℕ) (seed : ℤ)
  /-- A call of a stream. -/
  | call (i : ℕ) (c : Call)

namespace Package

/-- The seed at the start of a program. -/
def defaultSeed : Six ℕ := ⟨fun _ => 12345, fun _ => 12345⟩

def new : Package := ⟨ofSeed defaultSeed, []⟩

/-- `set_package_seed`; `none` is a call of `abort()`. -/
def setPackageSeed (s : Package) (seed : Six ℕ) : Option Package :=
  if checkSeed seed then some { s with next_seed_ := ofSeed seed } else none

/-- A number as an `unsigned long`, six times. -/
def seedVec (seed : ℤ) : Six ℕ := ⟨fun _ => (seed % 2 ^ 64).toNat, fun _ => (seed % 2 ^ 64).toNat⟩

/-- The constructor. -/
def create (s : Package) : Package :=
  let x := Rng.init s.next_seed_
  ⟨x.2, s.streams ++ [x.1]⟩

/-- `set_seed` of stream `i`, for one number that is not zero. -/
def setSeedLong (s : Package) (i : ℕ) (seed : ℤ) : Option Package :=
  (s.setPackageSeed (seedVec seed)).map fun s =>
    let x := Rng.init s.next_seed_
    ⟨x.2, s.streams.set i x.1⟩

/-- A call of stream `i`. -/
def call (s : Package) (i : ℕ) (r : Rng) (c : Call) : Option Package :=
  (r.call c).map fun r => { s with streams := s.streams.set i r }

/-- One call; those of streams that were not made do nothing. -/
def step (s : Package) : Op → Option Package
  | .create => some s.create
  | .setPackageSeed seed => s.setPackageSeed seed
  | .setSeedLong i seed => if i < s.streams.length then s.setSeedLong i seed else some s
  | .call i c => s.streams[i]?.elim (some s) fun r => s.call i r c

end Package

end Ns2.Tools
