import BloomFilters.Framework.Checked
import BloomFilters.Framework.BitArray
import BloomFilters.Framework.Words
import Mathlib.Data.Nat.Size
import Mathlib.Logic.Equiv.Defs

/-! # Helper functions

    `util/HelperFuncs.h`: rotation, sizing, the hash mixers, and single
    bits of byte arrays. A `std::uint64_t` or `std::size_t` whose
    wrap-around matters is a `Word`; an `int` or an index that never
    leaves its range is a natural number.
-/

open Checked BitArray Words

namespace BloomFilters

/-- `std::uint64_t` -/
abbrev Word := BitVec 64

/-- `std::uint8_t` -/
abbrev Byte := BitVec 8

/-! ## Rotation -/

def rotate_left (value : Word) (shift : Nat) : Comp Word :=
  let shift := shift &&& 63
  if shift = 0 then .ok value
  else do return (← shl value shift) ||| (← shr value (64 - shift))

/-- The branch-free rotation of the library is what the code computes. -/
theorem rotate_left_eq {value : Word} {shift : Nat} (h : shift < 64) :
    rotate_left value shift = .ok (value.rotateLeft shift) := by
  have hand : shift &&& 63 = shift := by
    rw [show 63 = 2 ^ 6 - 1 from rfl, Nat.and_two_pow_sub_one_eq_mod, Nat.mod_eq_of_lt h]
  unfold rotate_left
  rw [hand, BitVec.rotateLeft, BitVec.rotateLeftAux, Nat.mod_eq_of_lt h]
  -- The branch for zero avoids a shift by 64, which is undefined.
  by_cases h0 : shift = 0
  · subst h0
    rw [if_pos rfl, BitVec.shiftLeft_zero, Nat.sub_zero, BitVec.ushiftRight_eq_zero (Nat.le_refl _),
      BitVec.or_zero]
  · have hsub : (64 - (shift : Int)).toNat = 64 - shift := by omega
    rw [if_neg h0, shl_ok (by omega), shr_ok (by omega), hsub]
    rfl

/-! ## Sizes -/

/-- `std::max` -/
def std_max (a b : Word) : Word := if a < b then b else a

theorem toNat_std_max (a b : Word) : (std_max a b).toNat = max a.toNat b.toNat := by
  unfold std_max
  split
  · next h => rw [BitVec.lt_def] at h; omega
  · next h => rw [BitVec.lt_def] at h; omega

theorem le_std_max_left (a b : Word) : a.toNat ≤ (std_max a b).toNat := by
  rw [toNat_std_max]
  exact Nat.le_max_left _ _

/-- The loop of `ceil_log2`: `while (x > 0) { x = x >> 1; result++; }` -/
def ceil_log2.loop (x : Word) (result : Nat) : Nat :=
  if 0 < x then ceil_log2.loop (x >>> 1) (result + 1) else result
termination_by x.toNat
decreasing_by
  next h =>
    have hpos : 0 < x.toNat := by simpa [BitVec.lt_def] using h
    simp only [BitVec.toNat_ushiftRight, Nat.shiftRight_one]
    omega

def ceil_log2 (x : Word) : Nat :=
  if x ≤ 1 then 0 else ceil_log2.loop (x - 1) 0

theorem ceil_log2.loop_eq (x : Word) (result : Nat) :
    ceil_log2.loop x result = result + Nat.size x.toNat := by
  induction x, result using ceil_log2.loop.induct with
  | case1 x result h ih =>
    have hpos : x.toNat ≠ 0 := by
      have : 0 < x.toNat := by simpa [BitVec.lt_def] using h
      omega
    -- A shift to the right drops the lowest bit, and with it one of the size.
    have hbit : Nat.bit (x.toNat.testBit 0) (x.toNat >>> 1) = x.toNat :=
      Nat.bit_testBit_zero_shiftRight_one x.toNat
    have hsize := Nat.size_bit (b := x.toNat.testBit 0) (n := x.toNat >>> 1) (by rwa [hbit])
    rw [hbit] at hsize
    unfold ceil_log2.loop
    rw [if_pos h, ih, BitVec.toNat_ushiftRight, hsize]
    omega
  | case2 x result h =>
    have hzero : x.toNat = 0 := by simpa [BitVec.lt_def] using h
    unfold ceil_log2.loop
    rw [if_neg h, hzero, Nat.size_zero, Nat.add_zero]

/-- The loop counts the bits of the predecessor. -/
theorem ceil_log2_eq_size (x : Word) : ceil_log2 x = Nat.size (x.toNat - 1) := by
  unfold ceil_log2
  split
  · next h =>
    have hx : x.toNat ≤ 1 := by simpa [BitVec.le_def] using h
    rw [Nat.sub_eq_zero_of_le hx, Nat.size_zero]
  · next h =>
    have hx : 1 < x.toNat := by simpa [BitVec.le_def] using h
    have hsub : (x - 1).toNat = x.toNat - 1 :=
      BitVec.toNat_sub_of_le (by simp [BitVec.le_def]; omega)
    rw [ceil_log2.loop_eq, Nat.zero_add, hsub]

/-- `ceil_log2 x` is the least exponent whose power of two reaches `x`. -/
theorem ceil_log2_le_iff {x : Word} {k : Nat} : ceil_log2 x ≤ k ↔ x.toNat ≤ 2 ^ k := by
  have hpow : 1 ≤ 2 ^ k := Nat.one_le_two_pow
  rw [ceil_log2_eq_size, Nat.size_le]
  omega

theorem ceil_log2_le_64 (x : Word) : ceil_log2 x ≤ 64 := by
  rw [ceil_log2_le_iff]
  exact Nat.le_of_lt x.isLt

theorem le_ceil_log2 {x : Word} {k : Nat} (h : 2 ^ k ≤ x.toNat) : k ≤ ceil_log2 x := by
  -- Otherwise half of that power would reach `x`.
  by_contra hlt
  have hle : x.toNat ≤ 2 ^ (k - 1) := ceil_log2_le_iff.mp (by omega)
  have hpow : 2 ^ k = 2 * 2 ^ (k - 1) := by
    rw [← pow_succ', Nat.sub_add_cancel (by omega)]
  have hpos : 0 < 2 ^ (k - 1) := Nat.two_pow_pos _
  omega

/-- The size of the basic filter. The loop
    `for (i = 1; i < 64; i <<= 1) x = x | (x >> i);` takes these shifts. -/
def calculate_arrow_equivalent_bits (rows_to_insert bits_per_key min_num_bits : Word) : Word :=
  let x := std_max min_num_bits (rows_to_insert * bits_per_key) - 1
  let x := [1, 2, 4, 8, 16, 32].foldl (fun x i => x ||| x >>> i) x
  x + 1

/-- The value before the final increment has all bits below its top bit set. -/
theorem calculate_arrow_equivalent_bits_toNat (rows_to_insert bits_per_key min_num_bits : Word) :
    (calculate_arrow_equivalent_bits rows_to_insert bits_per_key min_num_bits).toNat =
      2 ^ Nat.size (std_max min_num_bits (rows_to_insert * bits_per_key) - 1).toNat % 2 ^ 64 := by
  have hsmeared := smeared_foldl (std_max min_num_bits (rows_to_insert * bits_per_key) - 1) 6
  have hones := hsmeared.toNat_eq (by decide)
  have hpos := Nat.two_pow_pos
    (Nat.size (std_max min_num_bits (rows_to_insert * bits_per_key) - 1).toNat)
  unfold calculate_arrow_equivalent_bits
  rw [show [1, 2, 4, 8, 16, 32] = (List.range 6).map (2 ^ ·) from rfl]
  simp only [BitVec.toNat_add, hones, show (1 : Word).toNat = 1 from rfl]
  rw [Nat.sub_add_cancel hpos]

/-- A maximum of at most `2 ^ 63` is rounded up to a power of two. -/
theorem calculate_arrow_equivalent_bits_eq {rows_to_insert bits_per_key min_num_bits : Word}
    (hpos : 1 ≤ (std_max min_num_bits (rows_to_insert * bits_per_key)).toNat)
    (hle : (std_max min_num_bits (rows_to_insert * bits_per_key)).toNat ≤ 2 ^ 63) :
    (calculate_arrow_equivalent_bits rows_to_insert bits_per_key min_num_bits).toNat =
      2 ^ ceil_log2 (std_max min_num_bits (rows_to_insert * bits_per_key)) := by
  have hlog : ceil_log2 (std_max min_num_bits (rows_to_insert * bits_per_key)) ≤ 63 :=
    ceil_log2_le_iff.mpr hle
  have hsub : (std_max min_num_bits (rows_to_insert * bits_per_key) - 1).toNat =
      (std_max min_num_bits (rows_to_insert * bits_per_key)).toNat - 1 :=
    BitVec.toNat_sub_of_le (by simpa [BitVec.le_def] using hpos)
  rw [calculate_arrow_equivalent_bits_toNat, hsub, ← ceil_log2_eq_size]
  exact Nat.mod_eq_of_lt (Nat.pow_lt_pow_right (by decide) (by omega))

/-- Any other maximum makes the increment wrap around. -/
theorem calculate_arrow_equivalent_bits_wraps {rows_to_insert bits_per_key min_num_bits : Word}
    (h : (std_max min_num_bits (rows_to_insert * bits_per_key)).toNat = 0 ∨
      2 ^ 63 < (std_max min_num_bits (rows_to_insert * bits_per_key)).toNat) :
    (calculate_arrow_equivalent_bits rows_to_insert bits_per_key min_num_bits).toNat = 0 := by
  -- The decrement of zero wraps, and of anything larger it keeps the top bit.
  have hlarge : 2 ^ 63 ≤ (std_max min_num_bits (rows_to_insert * bits_per_key) - 1).toNat := by
    rcases h with hzero | hgt
    · rw [BitVec.eq_of_toNat_eq (y := 0#64) hzero]
      decide
    · rw [BitVec.toNat_sub_of_le (by simp [BitVec.le_def]; omega)]
      exact Nat.le_sub_one_of_lt hgt
  have hsize : Nat.size (std_max min_num_bits (rows_to_insert * bits_per_key) - 1).toNat = 64 :=
    Nat.le_antisymm (Nat.size_le.mpr (BitVec.isLt _)) (Nat.lt_size.mpr hlarge)
  rw [calculate_arrow_equivalent_bits_toNat, hsize, Nat.mod_self]

/-! ## Hash mixing -/

def murmurHash (x : Word) : Word :=
  let x := x ^^^ (x >>> 33)
  let x := x * 0xff51afd7ed558ccd#64
  let x := x ^^^ (x >>> 33)
  let x := x * 0xc4ceb9fe1a85ec53#64
  let x := x ^^^ (x >>> 33)
  x

/-- The rounds of `murmurHash` undone from the last to the first, with the
    inverses of the two odd constants. -/
def murmurHashInv (x : Word) : Word :=
  xorShift (xorShift (xorShift x 33 * 0x9cb4b2f8129337db#64) 33 * 0x4f74430c22a54005#64) 33

theorem murmurHash_eq (x : Word) :
    murmurHash x =
      xorShift (xorShift (xorShift x 33 * 0xff51afd7ed558ccd#64) 33 * 0xc4ceb9fe1a85ec53#64) 33 :=
  rfl

theorem murmurHashInv_murmurHash (x : Word) : murmurHashInv (murmurHash x) = x := by
  rw [murmurHash_eq, murmurHashInv, xorShift_xorShift (by omega),
    mul_mul_of_inverse (by decide), xorShift_xorShift (by omega),
    mul_mul_of_inverse (by decide), xorShift_xorShift (by omega)]

theorem murmurHash_murmurHashInv (x : Word) : murmurHash (murmurHashInv x) = x := by
  rw [murmurHash_eq, murmurHashInv, xorShift_xorShift (by omega),
    mul_mul_of_inverse (by decide), xorShift_xorShift (by omega),
    mul_mul_of_inverse (by decide), xorShift_xorShift (by omega)]

/-- `murmurHash` permutes the 64-bit words. -/
def murmurPerm : Equiv.Perm Word where
  toFun := murmurHash
  invFun := murmurHashInv
  left_inv := murmurHashInv_murmurHash
  right_inv := murmurHash_murmurHashInv

/-- The `i`-th probe position of a hash; a remainder by `num_bits`. -/
def generate_bit (hash : Word) (i : Nat) (num_bits : Word) : Comp Word :=
  let hash := hash + BitVec.ofNat 64 i * 0x9e3779b97f4a7c15#64
  let hash := hash ^^^ (hash >>> 33)
  let hash := hash * 0xff51afd7ed558ccd#64
  let hash := hash ^^^ (hash >>> 33)
  let hash := hash * 0xc4ceb9fe1a85ec53#64
  let hash := hash ^^^ (hash >>> 33)
  if num_bits = 0 then .error .divZero else .ok (hash % num_bits)

/-- The position that `generate_bit` yields. -/
def probeBit (hash : Word) (i : Nat) (num_bits : Word) : Nat :=
  (murmurHash (hash + BitVec.ofNat 64 i * 0x9e3779b97f4a7c15#64)).toNat % num_bits.toNat

theorem generate_bit_eq (hash : Word) (i : Nat) {num_bits : Word} (h : 0 < num_bits.toNat) :
    Returns (generate_bit hash i num_bits) (fun p => p.toNat = probeBit hash i num_bits) := by
  have hne : num_bits ≠ 0 := by
    intro hzero
    subst hzero
    simp at h
  unfold generate_bit
  rw [if_neg hne]
  exact returns_ok (BitVec.toNat_umod)

theorem probeBit_lt {hash : Word} {i : Nat} {num_bits : Word} (h : 0 < num_bits.toNat) :
    probeBit hash i num_bits < num_bits.toNat :=
  Nat.mod_lt _ h

/-! ## Single bits of byte arrays -/

/-- `static_cast<std::uint8_t>(1u << k)` -/
def oneBit (k : Nat) : Comp Byte := do
  return (← shl 1#32 k).setWidth 8

theorem oneBit_ok {k : Nat} (h : k < 8) : oneBit k = .ok (BitVec.twoPow 8 k) := by
  -- The narrowing loses nothing: the bit is one of the low eight.
  have hval : ∀ j, j < 8 → (1#32 <<< j).setWidth 8 = BitVec.twoPow 8 j := by decide
  unfold oneBit
  rw [shl_ok (by omega), ok_bind, Int.toNat_natCast, hval k h]
  rfl

/-- `bytes[byte_idx] |= static_cast<std::uint8_t>(1u << bit_idx)` -/
def orBitAt {n : Nat} (bytes : Vector Byte n) (byte_idx bit_idx : Nat) :
    Comp (Vector Byte n) := do
  let byte ← loadFixed bytes byte_idx
  let bit ← oneBit bit_idx
  storeFixed bytes byte_idx (byte ||| bit)

/-- `(bytes[byte_idx] & static_cast<std::uint8_t>(1u << bit_idx)) != 0` -/
def testBitAt {n : Nat} (bytes : Vector Byte n) (byte_idx bit_idx : Nat) : Comp Bool := do
  let byte ← loadFixed bytes byte_idx
  let bit ← oneBit bit_idx
  return byte &&& bit != 0

def setBit {n : Nat} (bytes : Vector Byte n) (idx : Nat) : Comp (Vector Byte n) :=
  orBitAt bytes (idx >>> 3) (idx &&& 7)

def getBit {n : Nat} (bytes : Vector Byte n) (idx : Nat) : Comp Bool :=
  testBitAt bytes (idx >>> 3) (idx &&& 7)

private theorem idx_shift (idx : Nat) : idx >>> 3 = idx / 8 ∧ idx &&& 7 = idx % 8 := by
  rw [Nat.shiftRight_eq_div_pow, show 7 = 2 ^ 3 - 1 from rfl, Nat.and_two_pow_sub_one_eq_mod]
  exact ⟨rfl, rfl⟩

/-- Testing a byte for one bit. -/
theorem and_twoPow_bne_zero {b : Byte} {k : Nat} (hk : k < 8) :
    (b &&& BitVec.twoPow 8 k != 0) = b.getLsbD k := by
  rw [Bool.eq_iff_iff, bne_iff_ne, ne_eq, and_twoPow_eq_zero hk, Bool.not_eq_false]

theorem testBitAt_ok {n idx : Nat} {bytes : Vector Byte n} (h : idx / 8 < n) :
    testBitAt bytes (idx / 8) (idx % 8) = .ok (bitAt bytes.toArray idx) := by
  unfold testBitAt
  rw [loadFixed_ok h, ok_bind, oneBit_ok (by omega), ok_bind,
    and_twoPow_bne_zero (by omega), bitAt_of_lt (by simpa using h)]
  rfl

/-- Setting a bit adds its position and no other. -/
theorem orBitAt_ok {n idx : Nat} {bytes : Vector Byte n} (h : idx / 8 < n) :
    Returns (orBitAt bytes (idx / 8) (idx % 8)) (fun bytes' =>
      bitSet bytes'.toArray = bitSet bytes.toArray ∪ {idx}) := by
  unfold orBitAt
  rw [loadFixed_ok h, ok_bind, oneBit_ok (by omega), ok_bind, storeFixed_ok h]
  apply returns_ok
  have hsize : idx / 8 < bytes.toArray.size := by simpa using h
  rw [Vector.toArray_set, ← Vector.getElem_toArray hsize, bitSet_set_or hsize]
  -- The word that is or-ed in has the single position `idx`.
  congr 1
  ext p
  rw [mem_wordBits, BitVec.getLsbD_twoPow, Set.mem_singleton_iff]
  simp only [Bool.and_eq_true, decide_eq_true_eq]
  omega

theorem getBit_ok {n idx : Nat} {bytes : Vector Byte n} (h : idx / 8 < n) :
    getBit bytes idx = .ok (bitAt bytes.toArray idx) := by
  unfold getBit
  rw [(idx_shift idx).1, (idx_shift idx).2, testBitAt_ok h]

theorem setBit_ok {n idx : Nat} {bytes : Vector Byte n} (h : idx / 8 < n) :
    Returns (setBit bytes idx) (fun bytes' =>
      bitSet bytes'.toArray = bitSet bytes.toArray ∪ {idx}) := by
  unfold setBit
  rw [(idx_shift idx).1, (idx_shift idx).2]
  exact orBitAt_ok h

/-- `bytes[i / 8] |= static_cast<std::uint8_t>(1u << (i % 8))` -/
def orBit (bytes : Array Byte) (i : Nat) : Comp (Array Byte) := do
  let byte ← load bytes (i / 8)
  let bit ← oneBit (i % 8)
  store bytes (i / 8) (byte ||| bit)

/-- `(bytes[i / 8] & static_cast<std::uint8_t>(1u << (i % 8))) != 0` -/
def testBit (bytes : Array Byte) (i : Nat) : Comp Bool := do
  let byte ← load bytes (i / 8)
  let bit ← oneBit (i % 8)
  return byte &&& bit != 0

def packed_result_bit (result : Array Byte) (idx : Nat) : Comp Bool := testBit result idx

theorem testBit_ok {bytes : Array Byte} {i : Nat} (h : i / 8 < bytes.size) :
    testBit bytes i = .ok (bitAt bytes i) := by
  unfold testBit
  rw [load_ok h, ok_bind, oneBit_ok (by omega), ok_bind, and_twoPow_bne_zero (by omega),
    bitAt_of_lt h]
  rfl

theorem orBit_ok {bytes : Array Byte} {i : Nat} (h : i / 8 < bytes.size) :
    orBit bytes i = .ok (bytes.set (i / 8) (bytes[i / 8] ||| BitVec.twoPow 8 (i % 8))) := by
  unfold orBit
  rw [load_ok h, ok_bind, oneBit_ok (by omega), ok_bind, store_ok h]

/-- `orBit` adds one position. -/
theorem orBit_bitSet {bytes : Array Byte} {i : Nat} (h : i / 8 < bytes.size) :
    Returns (orBit bytes i) (fun bytes' =>
      bytes'.size = bytes.size ∧ bitSet bytes' = bitSet bytes ∪ {i}) := by
  rw [orBit_ok h]
  refine returns_ok ⟨by simp, ?_⟩
  rw [bitSet_set_or h]
  congr 1
  ext p
  rw [mem_wordBits, BitVec.getLsbD_twoPow, Set.mem_singleton_iff]
  simp only [Bool.and_eq_true, decide_eq_true_eq]
  omega

/-! ## Result buffers -/

/-- `return (tuple_count + 7) / 8;` over `std::size_t` -/
def result_bytes (tuple_count : Nat) : Nat := (tuple_count + 7) % 2 ^ 64 / 8

theorem result_bytes_eq {n : Nat} (h : n + 7 < 2 ^ 64) : result_bytes n = (n + 7) / 8 := by
  unfold result_bytes
  rw [Nat.mod_eq_of_lt h]

/-- A sum that wraps never makes the byte count too large. -/
theorem result_bytes_le (n : Nat) : result_bytes n ≤ (n + 7) / 8 :=
  Nat.div_le_div_right (Nat.mod_le _ _)

/-- `std::fill(result, result + n, 0)` -/
def fillZero (result : Array Byte) (n : Nat) : Comp (Array Byte) :=
  forLoop 0 n 1 (fun i result => store result i 0) result

theorem fillZero_ok {result : Array Byte} {n : Nat} (h : n ≤ result.size) :
    fillZero result n = .ok (packBits (fun _ => false) n result) := by
  unfold fillZero
  apply forLoop_eq_ok (fun i => packBits (fun _ => false) i result) Nat.one_pos (Nat.zero_le n)
    (Nat.one_dvd _) (packBits_zero _ _).symm
  intro i _ hi _
  rw [store_ok (by simp; omega)]
  exact congrArg Except.ok (set_packBits (by omega) fun k hk => by simp)

end BloomFilters
