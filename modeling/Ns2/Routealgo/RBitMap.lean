import Ns2.Lib.SignMask

/-!
# Bitmaps with entries of several bits

The model of `routealgo/rbitmap.cc`.  A word is an `unsigned long` of `w` bits;
the code puts entries into 32 of them on every platform, and an entry never
spans two words.

* `BitMap.new`, `Set`, `Get`, `GetBitMask`, `GetShiftCount`, `FindBPE` — the
  functions of the source.  A failed assertion gives `none`.
* `Stores` — what the first entries of a bitmap are, the others being 0.
* `Stores.set` — `Set` of the next entry.
* `Stores.get_32`, `Stores.get_64` — `Get` returns the entry on 32 bits and its
  lowest bit on 64 bits.
-/

namespace Ns2.Routealgo

variable {w : ℕ}

/-- Bits of a word that are used. -/
def BITS_ULONG : ℕ := 32

structure BitMap (w : ℕ) where
  /-- How many entries. -/
  m_Size : ℕ
  /-- Bits per entry. -/
  m_BPE : ℕ
  /-- Number of words. -/
  m_Words : ℕ
  /-- Entries per word. -/
  m_EPW : ℕ
  /-- The words; a single one is kept in the pointer itself. -/
  m_pM : List (BitVec w)

namespace BitMap

/-- The constructor. -/
def new (w Size BitsPerEntry : ℕ) : BitMap w :=
  let m_EPW := BITS_ULONG / BitsPerEntry
  let m_Words := (Size + m_EPW - 1) / m_EPW
  ⟨Size, BitsPerEntry, m_Words, m_EPW, List.replicate m_Words 0⟩

/-- The position of an entry in its word. -/
def GetShiftCount (b : BitMap w) (Which : ℕ) : ℕ :=
  let ind := Which / b.m_EPW
  (Which - ind * b.m_EPW) * b.m_BPE

/-- The mask of an entry. -/
def GetBitMask (b : BitMap w) (Which : ℕ) : BitVec w :=
  signMask w b.m_BPE >>> (32 - (b.GetShiftCount Which + b.m_BPE))

/-- `Set`: clear the bits of an entry, then put a value there. -/
def Set (b : BitMap w) (Which : ℕ) (Value : BitVec w) : Option (BitMap w) :=
  if Which < b.m_Size ∧ Which / b.m_EPW < b.m_pM.length then
    some { b with
      m_pM := b.m_pM.modify (Which / b.m_EPW) fun x =>
        x &&& ~~~b.GetBitMask Which ||| Value <<< b.GetShiftCount Which }
  else none

/-- `Get`: the value of an entry. -/
def Get (b : BitMap w) (Which : ℕ) : Option (BitVec w) :=
  if Which < b.m_Size then
    b.m_pM[Which / b.m_EPW]?.map fun x => (x &&& b.GetBitMask Which) >>> b.GetShiftCount Which
  else none

/-- The loop of `FindBPE`: the highest of the low `bpe` bits that is set. -/
def findBit (m : ℕ) : ℕ → ℕ
  | 0 => 0
  | bpe + 1 => if m.testBit bpe then bpe + 1 else findBit m bpe

/-- `FindBPE`: how many bits an entry needs. -/
def FindBPE (m : ℕ) : ℕ := findBit m 32

/-! ## How many bits -/

theorem findBit_spec {m : ℕ} (h1 : 1 ≤ m) (k : ℕ) (hk : m < 2 ^ k) :
    m < 2 ^ findBit m k ∧ 2 ^ (findBit m k - 1) ≤ m ∧ 1 ≤ findBit m k ∧ findBit m k ≤ k := by
  induction k with
  | zero => omega
  | succ k ih =>
    unfold findBit
    split_ifs with hbit
    · exact ⟨hk, Nat.ge_two_pow_of_testBit hbit, by omega, le_rfl⟩
    · have hlt : m < 2 ^ k := by
        apply Nat.lt_of_testBit k
        · simpa using hbit
        · exact Nat.testBit_two_pow_self
        · intro j hj
          rw [Nat.testBit_lt_two_pow (hk.trans_le (Nat.pow_le_pow_right (by omega) hj)),
            Nat.testBit_two_pow_of_ne hj.ne]
      obtain ⟨h2, h3, h4, h5⟩ := ih hlt
      exact ⟨h2, h3, h4, h5.trans (Nat.le_succ k)⟩

/-- At least two bits for two or more. -/
theorem FindBPE_spec {m : ℕ} (h2 : 2 ≤ m) (hm : m < 2 ^ 32) :
    m < 2 ^ FindBPE m ∧ 2 ≤ FindBPE m ∧ FindBPE m ≤ 32 := by
  obtain ⟨h3, -, -, h5⟩ := findBit_spec (by omega) 32 hm
  refine ⟨h3, ?_, h5⟩
  by_contra hlt
  have hle : 2 ^ findBit m 32 ≤ 2 ^ 1 := Nat.pow_le_pow_right (by omega) (by
    unfold FindBPE at hlt
    omega)
  omega

/-! ## Entries -/

/-- Bit `j` of word `k`. -/
def bitAt (b : BitMap w) (k j : ℕ) : Bool := (b.m_pM.getD k 0).getLsbD j

/-- The shape of a bitmap of `size` entries of `bpe` bits. -/
structure Shape (b : BitMap w) (size bpe : ℕ) : Prop where
  entries : b.m_Size = size
  width : b.m_BPE = bpe
  epw : b.m_EPW = 32 / bpe
  words : ∀ e, e < size → e / (32 / bpe) < b.m_pM.length

/-- The first `n` entries are `vals 0`, `vals 1`, ...; the others are 0. -/
structure Stores (b : BitMap w) (size bpe n : ℕ) (vals : ℕ → BitVec w) : Prop where
  shape : Shape b size bpe
  bits : ∀ e j, j < bpe → b.bitAt (e / (32 / bpe)) (e % (32 / bpe) * bpe + j) =
    (decide (e < n) && (vals e).getLsbD j)

variable {b b' : BitMap w} {size bpe n e j : ℕ} {vals : ℕ → BitVec w}

/-- A new bitmap holds nothing. -/
theorem stores_new (vals : ℕ → BitVec w) (h1 : 1 ≤ bpe) (h32 : bpe ≤ 32) :
    Stores (new w size bpe) size bpe 0 vals := by
  have hepw : 0 < 32 / bpe := Nat.div_pos h32 h1
  refine ⟨⟨rfl, rfl, rfl, fun e he => ?_⟩, fun e j _ => ?_⟩
  · simp only [new, List.length_replicate, BITS_ULONG]
    rw [Nat.div_lt_iff_lt_mul hepw]
    have hdm := Nat.div_add_mod (size + 32 / bpe - 1) (32 / bpe)
    have hmod := Nat.mod_lt (size + 32 / bpe - 1) hepw
    rw [Nat.mul_comm] at hdm
    omega
  · simp [bitAt, new]

/-- An entry is inside the 32 bits. -/
theorem entry_le (h1 : 1 ≤ bpe) (h32 : bpe ≤ 32) (e : ℕ) :
    e % (32 / bpe) * bpe + bpe ≤ 32 := by
  have hepw : 0 < 32 / bpe := Nat.div_pos h32 h1
  have hlt := Nat.mod_lt e hepw
  calc e % (32 / bpe) * bpe + bpe = (e % (32 / bpe) + 1) * bpe := by ring
    _ ≤ 32 / bpe * bpe := Nat.mul_le_mul_right _ hlt
    _ ≤ 32 := Nat.div_mul_le_self 32 bpe

theorem Shape.shiftCount (h : Shape b size bpe) (e : ℕ) :
    b.GetShiftCount e = e % (32 / bpe) * bpe := by
  unfold GetShiftCount
  simp only [h.epw, h.width]
  have hdm := Nat.div_add_mod e (32 / bpe)
  rw [Nat.mul_comm] at hdm
  congr 1
  omega

/-- Fields of different entries are apart. -/
theorem entry_ne {e' : ℕ} (hne : e' ≠ e) (hword : e' / (32 / bpe) = e / (32 / bpe))
    (hj : j < bpe) :
    e' % (32 / bpe) * bpe + j < e % (32 / bpe) * bpe ∨
      e % (32 / bpe) * bpe + bpe ≤ e' % (32 / bpe) * bpe + j := by
  have hmod : e' % (32 / bpe) ≠ e % (32 / bpe) := by
    intro hmod
    apply hne
    rw [← Nat.div_add_mod e' (32 / bpe), ← Nat.div_add_mod e (32 / bpe), hword, hmod]
  rcases Nat.lt_or_gt_of_ne hmod with hlt | hlt
  · left
    calc e' % (32 / bpe) * bpe + j < (e' % (32 / bpe) + 1) * bpe := by linarith
      _ ≤ e % (32 / bpe) * bpe := Nat.mul_le_mul_right _ hlt
  · right
    calc e % (32 / bpe) * bpe + bpe = (e % (32 / bpe) + 1) * bpe := by ring
      _ ≤ e' % (32 / bpe) * bpe := Nat.mul_le_mul_right _ hlt
      _ ≤ e' % (32 / bpe) * bpe + j := Nat.le_add_right _ _

/-! ## `Set` and `Get` -/

/-- The mask of every entry lies in the field of the entry. -/
def MaskInside (w bpe : ℕ) : Prop :=
  ∀ c j, c + bpe ≤ 32 → (signMask w bpe >>> (32 - (c + bpe))).getLsbD j = true →
    c ≤ j ∧ j < c + bpe

theorem maskInside_32 (h1 : 1 ≤ bpe) (h32 : bpe ≤ 32) : MaskInside 32 bpe := by
  intro c j hc hj
  rw [BitVec.getLsbD_ushiftRight, getLsbD_signMask_32 h1 h32] at hj
  simp only [Bool.and_eq_true, decide_eq_true_eq] at hj
  omega

theorem maskInside_64 (h1 : 1 ≤ bpe) (h32 : bpe ≤ 32) : MaskInside 64 bpe := by
  intro c j hc hj
  rw [BitVec.getLsbD_ushiftRight, getLsbD_signMask_64 h1 h32] at hj
  simp only [decide_eq_true_eq] at hj
  omega

/-- **`Set` of the next entry.** -/
theorem Stores.set (h : Stores b size bpe n vals) (hw : 32 ≤ w) (hmask : MaskInside w bpe)
    (h1 : 1 ≤ bpe) (h32 : bpe ≤ 32) (hn : n < size)
    (hval : ∀ j, bpe ≤ j → (vals n).getLsbD j = false) :
    ∃ b', b.Set n (vals n) = some b' ∧ Stores b' size bpe (n + 1) vals := by
  obtain ⟨hshape, hbits⟩ := id h
  have hin := entry_le h1 h32 n
  have hlen := hshape.words n hn
  unfold BitMap.Set
  rw [if_pos ⟨hshape.entries.symm ▸ hn, hshape.epw.symm ▸ hlen⟩]
  refine ⟨_, rfl, ⟨hshape.entries, hshape.width, hshape.epw, fun e he => ?_⟩, fun e j hj => ?_⟩
  · simpa using hshape.words e he
  · unfold bitAt
    simp only [hshape.epw, GetBitMask, hshape.width, hshape.shiftCount]
    rw [List.getD_eq_getElem?_getD, List.getElem?_modify]
    have hold := hbits e j hj
    unfold bitAt at hold
    rw [List.getD_eq_getElem?_getD] at hold
    by_cases hword : n / (32 / bpe) = e / (32 / bpe)
    · have hlen' : e / (32 / bpe) < b.m_pM.length := hword ▸ hlen
      have hsome : b.m_pM[e / (32 / bpe)]? = some b.m_pM[e / (32 / bpe)] :=
        List.getElem?_eq_getElem hlen'
      rw [hsome] at hold ⊢
      simp only [Option.getD_some, Option.map_eq_map, Option.map_some, if_pos hword] at hold ⊢
      rw [BitVec.getLsbD_or, BitVec.getLsbD_and, hold, BitVec.getLsbD_shiftLeft]
      by_cases hen : e = n
      · -- the field of the entry, which was 0
        subst hen
        have h2 : e % (32 / bpe) * bpe + j < w := by omega
        simp [h2]
      · -- a field of another entry: neither the mask nor the value reaches it
        have hlt : e < n + 1 ↔ e < n := by omega
        have hapart := entry_ne hen hword.symm hj
        have hpos : e % (32 / bpe) * bpe + j < w := by
          have := entry_le h1 h32 e
          omega
        have hm : (signMask w bpe >>> (32 - (n % (32 / bpe) * bpe + bpe))).getLsbD
            (e % (32 / bpe) * bpe + j) = false := by
          by_contra hm
          have := hmask _ _ hin (Bool.eq_true_of_not_eq_false hm)
          omega
        have hv : (!decide (e % (32 / bpe) * bpe + j < n % (32 / bpe) * bpe) &&
            (vals n).getLsbD (e % (32 / bpe) * bpe + j - n % (32 / bpe) * bpe)) = false := by
          rcases hapart with hlt | hge
          · simp [hlt]
          · rw [hval _ (by omega), Bool.and_false]
        have hkeep : (!(signMask w bpe >>> (32 - (n % (32 / bpe) * bpe + bpe))).getLsbD
            (e % (32 / bpe) * bpe + j)) = true := by rw [hm]; rfl
        rw [BitVec.getLsbD_not, hkeep, Bool.and_assoc (decide (_ < w)), hv]
        simp [hlt, hpos]
    · have hen : e ≠ n := fun hen => hword (hen ▸ rfl)
      have hlt : e < n + 1 ↔ e < n := by omega
      simp only [if_neg hword, Option.map_eq_map, Option.map_id']
      rw [hold]
      simp [hlt]

/-- Reading an entry. -/
theorem Stores.get (h : Stores b size bpe n vals) (he : e < size) :
    b.Get e = some ((b.m_pM.getD (e / (32 / bpe)) 0 &&&
      signMask w bpe >>> (32 - (e % (32 / bpe) * bpe + bpe))) >>> (e % (32 / bpe) * bpe)) := by
  obtain ⟨hshape, -⟩ := h
  unfold BitMap.Get GetBitMask
  rw [if_pos (hshape.entries.symm ▸ he), hshape.epw, hshape.shiftCount, hshape.width,
    List.getD_eq_getElem?_getD, List.getElem?_eq_getElem (hshape.words e he)]
  rfl

/-- **On 32 bits `Get` returns the entry.** -/
theorem Stores.get_32 {b : BitMap 32} {vals : ℕ → BitVec 32} (h : Stores b size bpe n vals)
    (h1 : 1 ≤ bpe) (h32 : bpe ≤ 32) (he : e < size) (hen : e < n)
    (hval : ∀ j, bpe ≤ j → (vals e).getLsbD j = false) : b.Get e = some (vals e) := by
  have hin := entry_le h1 h32 e
  rw [h.get he]
  congr 1
  apply BitVec.eq_of_getLsbD_eq
  intro j hj
  rw [BitVec.getLsbD_ushiftRight, BitVec.getLsbD_and, BitVec.getLsbD_ushiftRight,
    getLsbD_signMask_32 h1 h32]
  by_cases hjb : j < bpe
  · have hbit := h.bits e j hjb
    unfold bitAt at hbit
    have h2 : 32 - bpe ≤ 32 - (e % (32 / bpe) * bpe + bpe) + (e % (32 / bpe) * bpe + j) := by
      omega
    have h3 : 32 - (e % (32 / bpe) * bpe + bpe) + (e % (32 / bpe) * bpe + j) < 32 := by omega
    simp only [hbit, hen, h2, h3, decide_true, Bool.and_true, Bool.true_and]
  · have h3 : ¬ 32 - (e % (32 / bpe) * bpe + bpe) + (e % (32 / bpe) * bpe + j) < 32 := by omega
    simp only [hval j (not_lt.mp hjb), h3, decide_false, Bool.and_false]

/-- **On 64 bits `Get` returns the lowest bit of the entry.** -/
theorem Stores.get_64 {b : BitMap 64} {vals : ℕ → BitVec 64} (h : Stores b size bpe n vals)
    (h1 : 1 ≤ bpe) (h32 : bpe ≤ 32) (he : e < size) (hen : e < n) :
    b.Get e = some (vals e &&& 1) := by
  have hin := entry_le h1 h32 e
  rw [h.get he]
  congr 1
  apply BitVec.eq_of_getLsbD_eq
  intro j hj
  rw [BitVec.getLsbD_ushiftRight, BitVec.getLsbD_and, BitVec.getLsbD_ushiftRight,
    getLsbD_signMask_64 h1 h32, BitVec.getLsbD_and]
  by_cases hj0 : j = 0
  · subst hj0
    have hbit := h.bits e 0 h1
    unfold bitAt at hbit
    have h2 : 32 - (e % (32 / bpe) * bpe + bpe) + (e % (32 / bpe) * bpe + 0) = 32 - bpe := by
      omega
    rw [hbit, h2]
    simp [hen]
  · have h2 : 32 - (e % (32 / bpe) * bpe + bpe) + (e % (32 / bpe) * bpe + j) ≠ 32 - bpe := by
      omega
    simp [h2, hj0]

end BitMap

end Ns2.Routealgo
