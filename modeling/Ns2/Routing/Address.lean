import Ns2.Lib.BitField

/-!
# Node addresses

The model of `routing/address.cc` and of `RouteLogic::ns_strtok`.  An address is an `int` with a field
for each level of the hierarchy; as a string it is dotted.

* `atoi`, `ns_strtok` — the numbers of a dotted string.
* `set_word_field`, `str2addr` — the address of a string.
* `hier_addr`, `print_nodeaddr` — the fields of an address, and its string.

A function returns nothing when the program exits, or writes behind a buffer.
-/

namespace Ns2.Routing

def SMALL_LEN : ℕ := 32

/-! ## Numbers -/

def isspace (c : Char) : Bool := c = ' ' ∨ 9 ≤ c.toNat ∧ c.toNat ≤ 13

/-- A `long` as an `int`. -/
def toInt32 (z : ℤ) : BitVec 32 := BitVec.ofInt 32 (max (-2 ^ 63) (min z (2 ^ 63 - 1)))

/-- `atoi`: white space, a sign, and digits up to the first other character.  The value is read as
a `long`. -/
def atoi (s : List Char) : BitVec 32 :=
  match s.dropWhile isspace with
  | '-' :: s => toInt32 (-Nat.ofDigitChars 10 (s.takeWhile Char.isDigit) 0)
  | '+' :: s => toInt32 (Nat.ofDigitChars 10 (s.takeWhile Char.isDigit) 0)
  | s => toInt32 (Nat.ofDigitChars 10 (s.takeWhile Char.isDigit) 0)

/-- `%d`. -/
def decimal (v : BitVec 32) : List Char :=
  if v.toInt < 0 then '-' :: Nat.toDigits 10 v.toInt.natAbs else Nat.toDigits 10 v.toInt.toNat

/-- The loop of `ns_strtok`, with the characters since the last dot: the numbers are counted from 1.
Nothing is written for an end without characters. -/
def strtok (word : List Char) : List Char → List (BitVec 32)
  | [] => if word = [] then [] else [atoi word + 1]
  | c :: cs => if c = '.' then (atoi word + 1) :: strtok [] cs else strtok (word ++ [c]) cs

/-- `ns_strtok`: the string is copied to a buffer. -/
def ns_strtok (addr : List Char) : Option (List (BitVec 32)) :=
  if addr.length < SMALL_LEN then some (strtok [] addr) else none

/-! ## Addresses -/

/-- The arrays start at level 1. -/
structure Address where
  bpl_ : ℕ → ℕ
  NodeShift_ : ℕ → ℕ
  NodeMask_ : ℕ → BitVec 32
  levels_ : ℕ

/-- `(unsigned long)(1 << bpl)`. -/
def fieldLength (bpl : ℕ) : ℕ := ((1 <<< bpl : BitVec 32).signExtend 64).toNat

def set_word_field (word field : BitVec 32) (shift : ℕ) (mask : BitVec 32) : BitVec 32 :=
  ((field &&& mask) <<< shift) ||| (~~~(mask <<< shift) &&& word)

namespace Address

variable (A : Address)

/-- One level of `str2addr`, from level `i + 1`. -/
def insertLevel (istr : List (BitVec 32)) (addr : BitVec 32) (i : ℕ) : Option (BitVec 32) :=
  let v := istr.getD i 0
  if (v - 1).toInt < 0 then none
  else if fieldLength (A.bpl_ (i + 1)) < ((v - 1).signExtend 64).toNat then none
  else some (set_word_field addr (v - 1) (A.NodeShift_ (i + 1)) (A.NodeMask_ (i + 1)))

/-- `str2addr`.  With more words than levels `ns_strtok` writes behind `istr`, with fewer entries of it
are not set. -/
def str2addr (str : List Char) : Option (BitVec 32) :=
  if A.levels_ < 2 then
    if 0 ≤ (atoi str).toInt ∧ fieldLength (A.bpl_ 1) < (atoi str).toNat then none
    else some (atoi str)
  else
    (ns_strtok str).bind fun istr =>
      if istr.length = A.levels_ then (List.range A.levels_).foldlM (A.insertLevel istr) 0 else none

/-- `hier_addr`, of a level that exists. -/
def hier_addr (address : BitVec 32) (level : ℕ) : BitVec 32 :=
  address.sshiftRight (A.NodeShift_ level) &&& A.NodeMask_ level

/-- The field that is printed. -/
def printed (address : BitVec 32) (i : ℕ) : BitVec 32 :=
  if 1 < A.levels_ then A.hier_addr address i else address.sshiftRight (A.NodeShift_ i)

/-- `print_nodeaddr`: every field with a dot, and the last dot is removed. -/
def print_nodeaddr (address : BitVec 32) : Option (List Char) :=
  let str := (List.range' 1 A.levels_).flatMap fun i => decimal (A.printed address i) ++ ['.']
  if 0 < str.length ∧ str.length < SMALL_LEN then some str.dropLast else none

/-- The address with these fields. -/
def build (fields : List (BitVec 32)) : BitVec 32 :=
  (List.range A.levels_).foldl
    (fun addr i =>
      set_word_field addr (fields.getD i 0) (A.NodeShift_ (i + 1)) (A.NodeMask_ (i + 1))) 0

/-- A hierarchy: disjoint fields of an `int`, each with the mask of its bits. -/
structure Hierarchy : Prop where
  levels : 2 ≤ A.levels_
  shift_lt : ∀ i, 1 ≤ i → i ≤ A.levels_ → A.NodeShift_ i < 32
  bpl_lt : ∀ i, 1 ≤ i → i ≤ A.levels_ → A.bpl_ i < 32
  fits : ∀ i, 1 ≤ i → i ≤ A.levels_ → A.NodeShift_ i + A.bpl_ i ≤ 32
  mask : ∀ i, 1 ≤ i → i ≤ A.levels_ → A.NodeMask_ i = BitField.mask 32 (A.bpl_ i)
  disjoint : ∀ i j, 1 ≤ i → i ≤ A.levels_ → 1 ≤ j → j ≤ A.levels_ → i ≠ j →
    A.NodeShift_ i + A.bpl_ i ≤ A.NodeShift_ j ∨ A.NodeShift_ j + A.bpl_ j ≤ A.NodeShift_ i

end Address

/-! ## Dotted strings -/

/-- The words with dots between them. -/
def dotted (words : List (List Char)) : List Char := List.intercalate ['.'] words

/-- A number without a sign. -/
def IsNumber (s : List Char) : Prop := s ≠ [] ∧ ∀ c ∈ s, c.isDigit = true

/-- The number. -/
def value (s : List Char) : ℕ := Nat.ofDigitChars 10 s 0

/-- The dotted string of numbers. -/
def numerals (ns : List ℕ) : List Char := dotted (ns.map (Nat.toDigits 10))

/-- Numbers, one for each level, that are within their fields. -/
def Address.InRange (A : Address) (ns : List ℕ) : Prop :=
  ns.length = A.levels_ ∧ ∀ i < A.levels_, ns.getD i 0 < 2 ^ A.bpl_ (i + 1)

/-- The buffer of `print_nodeaddr` holds the numbers, each with a dot, and the end of the string. -/
def PrintFits (ns : List ℕ) : Prop := (numerals ns).length + 1 < SMALL_LEN

end Ns2.Routing
