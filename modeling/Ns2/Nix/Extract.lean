import Ns2.Nix.NixVec

/-!
# Reading a NIx-vector back

`Extract` masks the bits of a field out of a word.  The mask is made by
shifting a signed `0x80000000`, so it covers the field on 32 bits and is a
single bit on 64 bits.

* `Stored` — the field of `n` bits at offset `u` is in the words.  A field that
  spans two words is there in part twice: `Add` does not cut what it shifts
  into the second word, and 64 bits have room for it.
* `Holds.extract` — `Extract` at a stored field: the field on 32 bits; on 64
  bits the field if it spans two words, otherwise its lowest bit.
* `extract_undoes_add` — a sequence of fields is read back as it was added on
  both widths exactly when every field of two or more spans two words.
-/

namespace Ns2.Nix.NixVec

variable {w : ℕ} {v : NixVec w} {ws ws' : List (BitVec w)} {k j n u : ℕ} {x : BitVec w}

/-! ## Stored fields -/

/-- The number fits `n` bits. -/
def Fits (n : ℕ) (x : BitVec w) : Prop := ∀ j, n ≤ j → x.getLsbD j = false

/-- The `n` bits of `x` are in the words at offset `u`. -/
def Stored (ws : List (BitVec w)) (u n : ℕ) (x : BitVec w) : Prop :=
  if u % 32 + n ≤ 32 then
    ∀ j, j < n → bitAt ws (u / 32) (32 - u % 32 - n + j) = x.getLsbD j
  else
    (∀ j, u % 32 + n - 32 ≤ j → j < n →
      bitAt ws (u / 32) (j - (u % 32 + n - 32)) = x.getLsbD j) ∧
    ∀ j, 64 - u % 32 - n + j < w →
      bitAt ws (u / 32 + 1) (64 - u % 32 - n + j) = x.getLsbD j

/-- There is nothing at offset `u` or behind it. -/
def Blank (ws : List (BitVec w)) (u : ℕ) : Prop :=
  ∀ k j, u / 32 < k ∨ (k = u / 32 ∧ j < 32 - u % 32) → bitAt ws k j = false

/-- A field leaves what is in front of it alone. -/
theorem fieldBit_before (hx : Fits n x) (h : k < u / 32 ∨ (k = u / 32 ∧ 32 - u % 32 ≤ j)) :
    fieldBit u n x k j = false := by
  unfold fieldBit
  split_ifs with hfit
  · rcases h with h | ⟨rfl, h⟩
    · simp [h.ne]
    · simp only [BitVec.getLsbD_shiftLeft, hx (j - (32 - u % 32 - n)) (by omega), Bool.and_false]
  · rcases h with h | ⟨rfl, h⟩
    · simp [h.ne, (Nat.lt_succ_of_lt h).ne]
    · simp only [BitVec.getLsbD_ushiftRight, hx (u % 32 + n - 32 + j) (by omega)]
      simp

/-- A field leaves what is behind it alone. -/
theorem fieldBit_behind (hn : n ≤ 32)
    (h : (u + n) / 32 < k ∨ (k = (u + n) / 32 ∧ j < 32 - (u + n) % 32)) :
    fieldBit u n x k j = false := by
  unfold fieldBit
  split_ifs with hfit
  · by_cases hk : k = u / 32
    · have hj : ¬ 32 - u % 32 - n ≤ j := by omega
      simp [hj]
    · simp [hk]
  · have hk : k ≠ u / 32 := by omega
    by_cases hk' : k = u / 32 + 1
    · have hj : ¬ 64 - u % 32 - n ≤ j := by omega
      simp [hk, hj]
    · simp [hk, hk']

/-- The field is stored. -/
theorem stored_of_blank (hw : 32 ≤ w) (hb : Blank ws u)
    (hbits : ∀ k j, bitAt ws' k j = (bitAt ws k j || fieldBit u n x k j)) : Stored ws' u n x := by
  unfold Stored
  split_ifs with hfit
  · intro j hj
    rw [hbits, hb _ _ (Or.inr ⟨rfl, by omega⟩), Bool.false_or]
    unfold fieldBit
    rw [if_pos hfit, BitVec.getLsbD_shiftLeft, Nat.add_sub_cancel_left]
    have h1 : 32 - u % 32 - n + j < w := by omega
    simp [h1]
  · refine ⟨fun j hj hjn => ?_, fun j hj => ?_⟩
    · rw [hbits, hb _ _ (Or.inr ⟨rfl, by omega⟩), Bool.false_or]
      unfold fieldBit
      rw [if_neg hfit, BitVec.getLsbD_ushiftRight, Nat.add_sub_cancel' hj]
      simp
    · rw [hbits, hb _ _ (Or.inl (Nat.lt_succ_self _)), Bool.false_or]
      unfold fieldBit
      rw [if_neg hfit, BitVec.getLsbD_shiftLeft, Nat.add_sub_cancel_left]
      simp [hj]

/-- A field added behind leaves it stored. -/
theorem Stored.append {u' n' : ℕ} {x' : BitVec w} (h : Stored ws u n x) (hx : Fits n' x')
    (hu : u + n ≤ u')
    (hbits : ∀ k j, bitAt ws' k j = (bitAt ws k j || fieldBit u' n' x' k j)) :
    Stored ws' u n x := by
  have hkeep : ∀ k j, k < u' / 32 ∨ (k = u' / 32 ∧ 32 - u' % 32 ≤ j) →
      bitAt ws' k j = bitAt ws k j := by
    intro k j hkj
    rw [hbits, fieldBit_before hx hkj, Bool.or_false]
  unfold Stored at h ⊢
  split_ifs at h ⊢ with hfit
  · intro j hj
    rw [hkeep _ _ (by omega), h j hj]
  · obtain ⟨h1, h2⟩ := h
    refine ⟨fun j hj hjn => ?_, fun j hj => ?_⟩
    · rw [hkeep _ _ (by omega), h1 j hj hjn]
    · rw [hkeep _ _ (by omega), h2 j hj]

/-- Behind the field there is still nothing. -/
theorem Blank.append (hb : Blank ws u) (hn : n ≤ 32)
    (hbits : ∀ k j, bitAt ws' k j = (bitAt ws k j || fieldBit u n x k j)) :
    Blank ws' (u + n) := by
  intro k j hkj
  rw [hbits, fieldBit_behind hn hkj, hb k j (by omega), Bool.or_false]

/-! ## `Extract` -/

theorem bit_eq (u : ℕ) : u - u / NIX_BPW * NIX_BPW = u % 32 := by
  unfold NIX_BPW
  omega

/-- The word and the mask, where the field is in one word. -/
theorem Holds.extract_one (h : Holds v ws) (hroom : v.m_used + n ≤ v.m_alth) (h1 : 1 ≤ n)
    (hfit : v.m_used % 32 + n ≤ 32) :
    v.extract n = some
      ((ws.getD (v.m_used / 32) 0 &&& signMask w n >>> (v.m_used % 32)) >>>
        (32 - v.m_used % 32 - n), { v with m_used := v.m_used + n }) := by
  have hl := h.length
  rw [lth_eq, if_neg (by omega)] at hl
  have hword : v.wordAt (v.m_used / NIX_BPW) = some (ws.getD (v.m_used / 32) 0) :=
    h.wordAt (by unfold NIX_BPW; omega)
  have hfit' : v.m_used % 32 + n ≤ NIX_BPW := hfit
  unfold NixVec.extract
  simp only [bit_eq, hword]
  rw [if_neg (by omega), if_pos hfit']
  rfl

/-- The words and the mask, where the field spans two. -/
theorem Holds.extract_two (h : Holds v ws) (hroom : v.m_used + n ≤ v.m_alth) (hn : n ≤ 32)
    (hfit : ¬ v.m_used % 32 + n ≤ 32) :
    v.extract n = some
      ((ws.getD (v.m_used / 32) 0 &&& signMask w (32 - v.m_used % 32) >>> (v.m_used % 32)) <<<
          (v.m_used % 32 + n - 32) |||
        ws.getD (v.m_used / 32 + 1) 0 >>> (64 - v.m_used % 32 - n),
        { v with m_used := v.m_used + n }) := by
  have hl := h.length
  rw [lth_eq, if_neg (by omega)] at hl
  have hword : v.wordAt (v.m_used / NIX_BPW) = some (ws.getD (v.m_used / 32) 0) :=
    h.wordAt (by unfold NIX_BPW; omega)
  have hnext : v.m_pNV.get? (v.m_used / NIX_BPW + 1) = some (ws.getD (v.m_used / 32 + 1) 0) :=
    h.get? (by unfold NIX_BPW; omega) (by omega)
  have ht : n - (NIX_BPW - v.m_used % 32) = v.m_used % 32 + n - 32 := by
    unfold NIX_BPW
    omega
  have ht' : NIX_BPW - (v.m_used % 32 + n - 32) = 64 - v.m_used % 32 - n := by
    unfold NIX_BPW
    omega
  have hfit' : ¬ v.m_used % 32 + n ≤ NIX_BPW := hfit
  unfold NixVec.extract
  simp only [bit_eq, hword, hnext, ht, ht']
  rw [if_neg (by omega), if_neg hfit']
  rfl

/-- **On 32 bits `Extract` returns the field.** -/
theorem Holds.extract_32 {v : NixVec 32} {ws : List (BitVec 32)} {x : BitVec 32} (h : Holds v ws)
    (hroom : v.m_used + n ≤ v.m_alth) (h1 : 1 ≤ n) (hn : n ≤ 32) (hx : Fits n x)
    (hs : Stored ws v.m_used n x) :
    v.extract n = some (x, { v with m_used := v.m_used + n }) := by
  unfold Stored bitAt at hs
  split_ifs at hs with hfit
  · rw [h.extract_one hroom h1 hfit]
    congr 2
    apply BitVec.eq_of_getLsbD_eq
    intro j hj
    rw [BitVec.getLsbD_ushiftRight, BitVec.getLsbD_and, BitVec.getLsbD_ushiftRight,
      getLsbD_signMask_32 h1 hn]
    by_cases hjn : j < n
    · have h2 : 32 - n ≤ v.m_used % 32 + (32 - v.m_used % 32 - n + j) := by omega
      have h3 : v.m_used % 32 + (32 - v.m_used % 32 - n + j) < 32 := by omega
      simp only [hs j hjn, h2, h3, decide_true, Bool.and_true]
    · have h3 : ¬ v.m_used % 32 + (32 - v.m_used % 32 - n + j) < 32 := by omega
      simp only [hx j (not_lt.mp hjn), h3, decide_false, Bool.and_false]
  · obtain ⟨hs1, hs2⟩ := hs
    rw [h.extract_two hroom hn hfit]
    congr 2
    apply BitVec.eq_of_getLsbD_eq
    intro j hj
    rw [BitVec.getLsbD_or, BitVec.getLsbD_shiftLeft, BitVec.getLsbD_and,
      BitVec.getLsbD_ushiftRight, BitVec.getLsbD_ushiftRight,
      getLsbD_signMask_32 (by omega) (by omega)]
    by_cases hj1 : v.m_used % 32 + n - 32 ≤ j
    · have h2 : ¬ 64 - v.m_used % 32 - n + j < 32 := by omega
      rw [BitVec.getLsbD_of_ge _ _ (not_lt.mp h2), Bool.or_false]
      by_cases hjn : j < n
      · have h3 : 32 - (32 - v.m_used % 32) ≤
            v.m_used % 32 + (j - (v.m_used % 32 + n - 32)) := by omega
        have h4 : v.m_used % 32 + (j - (v.m_used % 32 + n - 32)) < 32 := by omega
        simp only [hs1 j hj1 hjn, not_lt.mpr hj1, hj, h3, h4, decide_true, decide_false,
          Bool.not_false, Bool.and_true, Bool.true_and]
      · have h4 : ¬ v.m_used % 32 + (j - (v.m_used % 32 + n - 32)) < 32 := by omega
        simp only [hx j (not_lt.mp hjn), h4, decide_false, Bool.and_false]
    · rw [hs2 j (by omega)]
      simp [not_le.mp hj1]

/-- **On 64 bits `Extract` returns a field that spans two words; of any other field it returns
the lowest bit.** -/
theorem Holds.extract_64 {v : NixVec 64} {ws : List (BitVec 64)} {x : BitVec 64} (h : Holds v ws)
    (hroom : v.m_used + n ≤ v.m_alth) (h1 : 1 ≤ n) (hn : n ≤ 32) (hx : Fits n x)
    (hs : Stored ws v.m_used n x) :
    v.extract n = some
      (if v.m_used % 32 + n ≤ 32 then x &&& 1 else x, { v with m_used := v.m_used + n }) := by
  unfold Stored bitAt at hs
  split_ifs at hs ⊢ with hfit
  · rw [h.extract_one hroom h1 hfit]
    congr 2
    apply BitVec.eq_of_getLsbD_eq
    intro j hj
    rw [BitVec.getLsbD_ushiftRight, BitVec.getLsbD_and, BitVec.getLsbD_ushiftRight,
      getLsbD_signMask_64 h1 hn, BitVec.getLsbD_and]
    by_cases hj0 : j = 0
    · subst hj0
      have h2 : v.m_used % 32 + (32 - v.m_used % 32 - n + 0) = 32 - n := by omega
      rw [hs 0 (by omega), h2]
      simp
    · have h2 : v.m_used % 32 + (32 - v.m_used % 32 - n + j) ≠ 32 - n := by omega
      simp [h2, hj0]
  · obtain ⟨hs1, hs2⟩ := hs
    rw [h.extract_two hroom hn hfit]
    congr 2
    apply BitVec.eq_of_getLsbD_eq
    intro j hj
    rw [BitVec.getLsbD_or, BitVec.getLsbD_shiftLeft, BitVec.getLsbD_and,
      BitVec.getLsbD_ushiftRight, BitVec.getLsbD_ushiftRight,
      getLsbD_signMask_64 (by omega) (by omega)]
    have hsecond : (ws.getD (v.m_used / 32 + 1) 0).getLsbD (64 - v.m_used % 32 - n + j) =
        x.getLsbD j := by
      by_cases hlt : 64 - v.m_used % 32 - n + j < 64
      · exact hs2 j hlt
      · rw [BitVec.getLsbD_of_ge _ _ (not_lt.mp hlt), hx j (by omega)]
    rw [hsecond]
    by_cases hj1 : j = v.m_used % 32 + n - 32
    · rw [hj1, hs1 _ le_rfl (by omega)]
      cases x.getLsbD (v.m_used % 32 + n - 32) <;> simp
    · by_cases hj2 : j < v.m_used % 32 + n - 32
      · simp [hj2]
      · have h3 : v.m_used % 32 + (j - (v.m_used % 32 + n - 32)) ≠ 32 - (32 - v.m_used % 32) := by
          omega
        simp [h3]

/-! ## Sequences of fields -/

/-- `Add` for each pair of a number and its bits. -/
def addAll (v : NixVec w) : List (ℕ × ℕ) → Option (NixVec w)
  | [] => some v
  | p :: ps => (v.add (BitVec.ofNat w p.1, p.2)).bind fun v => v.addAll ps

/-- `Extract` for each number of bits. -/
def extractAll (v : NixVec w) : List ℕ → Option (List (BitVec w) × NixVec w)
  | [] => some ([], v)
  | n :: ns => do
    let (x, v) ← v.extract n
    let (xs, v) ← v.extractAll ns
    some (x :: xs, v)

/-- A pair that can be added. -/
def Valid (p : ℕ × ℕ) : Prop := 1 ≤ p.2 ∧ p.2 ≤ 32 ∧ p.1 < 2 ^ p.2

/-- The bits of all fields. -/
def total (ps : List (ℕ × ℕ)) : ℕ := (ps.map Prod.snd).sum

/-- What was added is read back, and then `NIX_NONE`. -/
def ReadsBack (w : ℕ) (ps : List (ℕ × ℕ)) : Prop :=
  ∃ v v', (empty w).addAll ps = some v ∧
    v.Reset.extractAll (ps.map Prod.snd) = some (ps.map fun p => BitVec.ofNat w p.1, v') ∧
    ∀ n, 1 ≤ n → n ≤ 32 → v'.extract n = some (NIX_NONE w, v')

/-- All fields of the sequence are stored, the first at `u`. -/
def StoredAll (ws : List (BitVec w)) : ℕ → List (ℕ × ℕ) → Prop
  | _, [] => True
  | u, p :: ps => Stored ws u p.2 (BitVec.ofNat w p.1) ∧ StoredAll ws (u + p.2) ps

variable {ps : List (ℕ × ℕ)} {p : ℕ × ℕ}

theorem Valid.fits (h : Valid p) : Fits p.2 (BitVec.ofNat w p.1) := by
  intro j hj
  rw [BitVec.getLsbD_ofNat, Nat.testBit_lt_two_pow
    (h.2.2.trans_le (Nat.pow_le_pow_right (by omega) hj)), Bool.and_false]

/-- Adding a sequence stores its fields. -/
theorem Holds.addAll (hw : 32 ≤ w) (hps : ∀ p ∈ ps, Valid p) {v : NixVec w} {ws : List (BitVec w)}
    (h : Holds v ws) (hu : v.m_used = v.m_alth) (hb : Blank ws v.m_used) :
    ∃ v' ws', v.addAll ps = some v' ∧ Holds v' ws' ∧ v'.m_alth = v.m_used + total ps ∧
      StoredAll ws' v.m_used ps ∧
      ∀ u n (x : BitVec w), u + n ≤ v.m_used → Stored ws u n x → Stored ws' u n x := by
  induction ps generalizing v ws with
  | nil => exact ⟨v, ws, rfl, h, hu.symm, trivial, fun _ _ _ _ hs => hs⟩
  | cons p ps ih =>
    have hp := hps p List.mem_cons_self
    obtain ⟨h1, hn, hv⟩ := id hp
    obtain ⟨v₁, ws₁, hadd, hH, hused, halth, hbits⟩ := h.add hu h1 hn (BitVec.ofNat w p.1)
    have hb₁ : Blank ws₁ v₁.m_used := hused ▸ hb.append hn hbits
    obtain ⟨v', ws', hall, hH', halth', hst, hkeep⟩ :=
      ih (fun q hq => hps q (List.mem_cons_of_mem p hq)) hH halth hb₁
    rw [hused] at hst halth' hkeep
    refine ⟨v', ws', ?_, hH', ?_, ⟨?_, hst⟩, ?_⟩
    · unfold NixVec.addAll
      rw [hadd]
      exact hall
    · rw [halth']
      simp [total, Nat.add_assoc]
    · exact hkeep _ _ _ le_rfl (stored_of_blank hw hb hbits)
    · intro u n x hle hs
      exact hkeep _ _ _ (by omega) (hs.append hp.fits hle hbits)

/-- The numbers that `Extract` returns, when it returns `f u p` for the pair `p` at `u`. -/
def readAll (f : ℕ → ℕ × ℕ → BitVec w) : ℕ → List (ℕ × ℕ) → List (BitVec w)
  | _, [] => []
  | u, p :: ps => f u p :: readAll f (u + p.2) ps

/-- `Extract` for each stored field in turn. -/
theorem Holds.extractAll (f : ℕ → ℕ × ℕ → BitVec w)
    (hf : ∀ (v : NixVec w) ws p, Holds v ws → v.m_used + p.2 ≤ v.m_alth → Valid p →
      Stored ws v.m_used p.2 (BitVec.ofNat w p.1) →
      v.extract p.2 = some (f v.m_used p, { v with m_used := v.m_used + p.2 }))
    (hps : ∀ p ∈ ps, Valid p) (v : NixVec w) (h : Holds v ws)
    (hroom : v.m_used + total ps ≤ v.m_alth) (hs : StoredAll ws v.m_used ps) :
    v.extractAll (ps.map Prod.snd) =
      some (readAll f v.m_used ps, { v with m_used := v.m_used + total ps }) := by
  induction ps generalizing v with
  | nil => rfl
  | cons p ps ih =>
    have htot : total (p :: ps) = p.2 + total ps := by simp [total]
    rw [htot] at hroom
    have hrest := ih (fun q hq => hps q (List.mem_cons_of_mem p hq))
      { v with m_used := v.m_used + p.2 } ⟨h.words, h.length⟩ (by simp only; omega) hs.2
    rw [List.map_cons]
    unfold NixVec.extractAll
    rw [hf v ws p h (by omega) (hps p List.mem_cons_self) hs.1]
    simp only [Option.bind_eq_bind, Option.bind_some]
    rw [hrest, htot, Nat.add_assoc]
    rfl

/-- Reading back is a matter of what `Extract` returns for each field. -/
theorem readsBack_iff (hw : 32 ≤ w) (f : ℕ → ℕ × ℕ → BitVec w)
    (hf : ∀ (v : NixVec w) ws p, Holds v ws → v.m_used + p.2 ≤ v.m_alth → Valid p →
      Stored ws v.m_used p.2 (BitVec.ofNat w p.1) →
      v.extract p.2 = some (f v.m_used p, { v with m_used := v.m_used + p.2 }))
    (hps : ∀ p ∈ ps, Valid p) :
    ReadsBack w ps ↔ readAll f 0 ps = ps.map fun p => BitVec.ofNat w p.1 := by
  have hempty : Holds (empty w) [0] := ⟨rfl, rfl⟩
  have hblank : Blank ([0] : List (BitVec w)) 0 := by
    intro k j _
    unfold bitAt
    cases k <;> simp
  obtain ⟨v, ws, hadd, hH, halth, hst, -⟩ := hempty.addAll hw hps rfl hblank
  have hread := Holds.extractAll f hf hps v.Reset ⟨hH.words, hH.length⟩ (halth ▸ le_rfl) hst
  unfold ReadsBack
  rw [hadd]
  constructor
  · rintro ⟨v₁, v', ⟨⟩, hback, -⟩
    rw [hread] at hback
    exact congrArg Prod.fst (Option.some.inj hback)
  · intro heq
    refine ⟨v, _, rfl, heq ▸ hread, fun n h1 hn => ?_⟩
    unfold NixVec.extract
    simp only
    rw [if_pos]
    have h2 : v.Reset.m_alth = v.m_alth := rfl
    have h3 : v.Reset.m_used = 0 := rfl
    have h4 : (empty w).m_used = 0 := rfl
    omega

/-! ## Both widths -/

/-- **On 32 bits every sequence is read back.** -/
theorem readsBack_32 (hps : ∀ p ∈ ps, Valid p) : ReadsBack 32 ps := by
  refine (readsBack_iff le_rfl (fun _ p => BitVec.ofNat 32 p.1) ?_ hps).mpr ?_
  · intro v ws p h hroom hp hs
    exact h.extract_32 hroom hp.1 hp.2.1 hp.fits hs
  · generalize 0 = u
    clear hps
    induction ps generalizing u with
    | nil => rfl
    | cons p ps ih => exact congrArg _ (ih _)

/-- What 64 bits return for a field is the field. -/
theorem low_bit_iff (hp : Valid p) (u : ℕ) :
    (if u % 32 + p.2 ≤ 32 then BitVec.ofNat 64 p.1 &&& 1 else BitVec.ofNat 64 p.1) =
        BitVec.ofNat 64 p.1 ↔ p.1 < 2 ∨ 32 < u % 32 + p.2 := by
  have hlt : p.1 < 2 ^ 32 := hp.2.2.trans_le (Nat.pow_le_pow_right (by omega) hp.2.1)
  split_ifs with hfit
  · rw [← BitVec.toNat_inj, BitVec.toNat_and, BitVec.toNat_ofNat,
      Nat.mod_eq_of_lt (hlt.trans (by norm_num))]
    have hone : (1 : BitVec 64).toNat = 2 ^ 1 - 1 := by decide
    rw [hone, Nat.and_two_pow_sub_one_eq_mod]
    omega
  · simp only [true_iff]
    omega

/-- A field for which `Extract` is wrong is some field of the sequence. -/
theorem readAll_eq_iff (f : ℕ → ℕ × ℕ → BitVec w) (g : ℕ × ℕ → BitVec w) (u : ℕ) :
    readAll f u ps = ps.map g ↔
      ∀ pre p post, ps = pre ++ p :: post → f (u + total pre) p = g p := by
  induction ps generalizing u with
  | nil => simp [readAll]
  | cons q ps ih =>
    rw [List.map_cons, readAll, List.cons.injEq, ih]
    constructor
    · rintro ⟨h1, h2⟩ pre p post heq
      cases pre with
      | nil =>
        obtain ⟨rfl, rfl⟩ := List.cons.inj heq
        exact h1
      | cons r pre =>
        obtain ⟨rfl, rfl⟩ := List.cons.inj heq
        have := h2 pre p post rfl
        rwa [Nat.add_assoc] at this
    · intro h
      refine ⟨h [] q ps rfl, fun pre p post heq => ?_⟩
      have := h (q :: pre) p post (by rw [heq]; rfl)
      rwa [total, List.map_cons, List.sum_cons, ← Nat.add_assoc] at this

/-- **Where `Extract` undoes `Add` on both widths**: every number of two or more spans two
words. -/
theorem extract_undoes_add (ps : List (ℕ × ℕ)) (hps : ∀ p ∈ ps, Valid p) :
    (ReadsBack 32 ps ∧ ReadsBack 64 ps) ↔
      ∀ pre p post, ps = pre ++ p :: post → p.1 < 2 ∨ 32 < total pre % 32 + p.2 := by
  have h64 := readsBack_iff (w := 64) (by omega)
    (fun u p => if u % 32 + p.2 ≤ 32 then BitVec.ofNat 64 p.1 &&& 1 else BitVec.ofNat 64 p.1)
    (fun v ws p h hroom hp hs => h.extract_64 hroom hp.1 hp.2.1 hp.fits hs) hps
  rw [h64, readAll_eq_iff, and_iff_right (readsBack_32 hps)]
  refine forall_congr' fun pre => forall_congr' fun p => forall_congr' fun post => ?_
  refine forall_congr' fun heq => ?_
  have hp : Valid p := hps p (by simp [heq])
  rw [low_bit_iff hp, Nat.zero_add]

theorem extract_undoes_add_bits : ReadsBack 32 [(1, 1), (0, 1)] ∧ ReadsBack 64 [(1, 1), (0, 1)] := by
  refine (extract_undoes_add [(1, 1), (0, 1)] ?_).mpr ?_
  · intro p hp
    rcases List.mem_pair.mp hp with rfl | rfl <;> exact ⟨by decide, by decide, by decide⟩
  · intro pre p post heq
    have hp : p ∈ [((1 : ℕ), (1 : ℕ)), (0, 1)] := by
      rw [heq]
      simp
    rcases List.mem_pair.mp hp with rfl | rfl <;> exact Or.inl (by decide)

/-- The numbers of the source's own test: 5 in 4 bits is not read back on 64 bits. -/
theorem not_readsBack_64 :
    ¬ ∀ ps : List (ℕ × ℕ), (∀ p ∈ ps, Valid p) → ReadsBack 32 ps ∧ ReadsBack 64 ps := by
  intro h
  have hv : ∀ p ∈ [((5 : ℕ), (4 : ℕ))], Valid p := by
    intro p hp
    rw [List.mem_singleton.mp hp]
    exact ⟨by decide, by decide, by decide⟩
  obtain ⟨-, v, v', hadd, hback, -⟩ := h [(5, 4)] hv
  have heval : ((empty 64).addAll [(5, 4)]).bind (fun v => (v.Reset.extractAll [4]).map Prod.fst) =
      some [1] := by decide
  rw [hadd] at heval
  simp only [Option.bind_some] at heval
  have hlen : ([4] : List ℕ) = [((5 : ℕ), (4 : ℕ))].map Prod.snd := rfl
  rw [hlen, hback] at heval
  have hone : [BitVec.ofNat 64 5] = [1] := Option.some.inj heval
  exact absurd hone (by decide)

end Ns2.Nix.NixVec
