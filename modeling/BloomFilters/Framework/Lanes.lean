import BloomFilters.Framework.Checked
import BloomFilters.Framework.BitArray

/-! # Wide loads and AVX2 lanes

    The 64-bit little-endian load and the AVX2 intrinsics on four 64-bit
    lanes, with the lane semantics of the instruction set: a variable
    shift by 64 or more yields zero, a comparison yields all ones or all
    zeros, and a gather is one checked load for each lane.

    An intrinsic applied lane by lane is a `Vector.map` or a
    `Vector.zipWith`, so a chain of them on one input vector is again a
    map: the per-lane function.
-/

open Checked BitArray

namespace Lanes

/-! ## Little-endian loads -/

/-- `memcpy(&x, bytes + i, 8)` on a little-endian machine. -/
def load64 {n : Nat} (bytes : Vector (BitVec 8) n) (i : Nat) : Comp (BitVec 64) :=
  if h : i + 8 ≤ n then
    .ok (bytes[i + 7] ++ bytes[i + 6] ++ bytes[i + 5] ++ bytes[i + 4] ++
      bytes[i + 3] ++ bytes[i + 2] ++ bytes[i + 1] ++ bytes[i])
  else .error .bounds

/-- The 64 bits from byte `i` on. -/
def bits64 {n : Nat} (bytes : Vector (BitVec 8) n) (i : Nat) : BitVec 64 :=
  bytes.toArray.getD (i + 7) 0 ++ bytes.toArray.getD (i + 6) 0 ++ bytes.toArray.getD (i + 5) 0 ++
    bytes.toArray.getD (i + 4) 0 ++ bytes.toArray.getD (i + 3) 0 ++ bytes.toArray.getD (i + 2) 0 ++
    bytes.toArray.getD (i + 1) 0 ++ bytes.toArray.getD i 0

theorem load64_ok {n : Nat} {bytes : Vector (BitVec 8) n} {i : Nat} (h : i + 8 ≤ n) :
    load64 bytes i = .ok (bits64 bytes i) := by
  have hget : ∀ k, (hk : k < n) → bytes.toArray.getD k 0 = bytes[k] := by
    intro k hk
    simp [Array.getD, hk]
  simp only [load64, bits64, h, dite_true]
  rw [hget _ (by omega), hget _ (by omega), hget _ (by omega), hget _ (by omega),
    hget _ (by omega), hget _ (by omega), hget _ (by omega), hget _ (by omega)]

private theorem getLsbD_append_low {w : Nat} (x : BitVec w) (y : BitVec 8) {r : Nat} (hr : r < 8) :
    (x ++ y).getLsbD (8 * 0 + r) = y.getLsbD r := by
  simp [BitVec.getLsbD_append, hr]

private theorem getLsbD_append_high {w : Nat} (x : BitVec w) (y : BitVec 8) (k r : Nat) :
    (x ++ y).getLsbD (8 * (k + 1) + r) = x.getLsbD (8 * k + r) := by
  have hnot : ¬ 8 * (k + 1) + r < 8 := by omega
  rw [BitVec.getLsbD_append, if_neg hnot, show 8 * (k + 1) + r - 8 = 8 * k + r from by omega]

/-- A little-endian load reads the row of bits from its first byte on. -/
theorem getLsbD_bits64 {n : Nat} (bytes : Vector (BitVec 8) n) (i : Nat) {j : Nat} (hj : j < 64) :
    (bits64 bytes i).getLsbD j = bitAt bytes.toArray (8 * i + j) := by
  -- Byte `k` of the load holds bits `8 * k` to `8 * k + 7`.
  have hbyte : ∀ k r, r < 8 → (bytes.toArray.getD (i + k) 0).getLsbD r =
      bitAt bytes.toArray (8 * i + (8 * k + r)) := by
    intro k r hr
    unfold bitAt
    rw [show (8 * i + (8 * k + r)) / 8 = i + k from by omega,
      show (8 * i + (8 * k + r)) % 8 = r from by omega]
  obtain ⟨k, r, hk, hr, rfl⟩ : ∃ k r, k < 8 ∧ r < 8 ∧ j = 8 * k + r :=
    ⟨j / 8, j % 8, by omega, by omega, by omega⟩
  rw [← hbyte k r hr, bits64]
  -- Peel the bytes below byte `k` off the concatenation.
  rcases k with _ | _ | _ | _ | _ | _ | _ | _ | k
  all_goals first
    | omega
    | simp only [getLsbD_append_high, getLsbD_append_low _ _ hr, Nat.zero_add, Nat.add_zero]
  simp

/-! ## Vectors of four lanes -/

/-- `__m256i` as four 64-bit lanes, lane 0 lowest. -/
abbrev M256i := Vector (BitVec 64) 4

def mm256_set1_epi64x (x : BitVec 64) : M256i := Vector.replicate 4 x
def mm256_setzero_si256 : M256i := Vector.replicate 4 0
def mm256_and_si256 (a b : M256i) : M256i := Vector.zipWith (· &&& ·) a b
def mm256_or_si256 (a b : M256i) : M256i := Vector.zipWith (· ||| ·) a b
/-- `~a & b` -/
def mm256_andnot_si256 (a b : M256i) : M256i := Vector.zipWith (fun x y => ~~~x &&& y) a b
def mm256_sub_epi64 (a b : M256i) : M256i := Vector.zipWith (· - ·) a b
def mm256_srli_epi64 (a : M256i) (n : Nat) : M256i := a.map fun x : BitVec 64 => x >>> n
def mm256_sllv_epi64 (a n : M256i) : M256i := Vector.zipWith (fun x k => x <<< k.toNat) a n
def mm256_srlv_epi64 (a n : M256i) : M256i := Vector.zipWith (fun x k => x >>> k.toNat) a n
def mm256_cmpeq_epi64 (a b : M256i) : M256i :=
  Vector.zipWith (fun x y => if x = y then BitVec.allOnes 64 else 0) a b

def mm256_extract_epi64 (a : M256i) (lane : Fin 4) : BitVec 64 := a.get lane

/-- The sign bits of the lanes, as the low bits of an `int`. -/
def mm256_movemask_pd (a : M256i) : BitVec 32 :=
  (BitVec.ofBoolListLE [a[0].msb, a[1].msb, a[2].msb, a[3].msb]).setWidth 32

/-- Four consecutive words from `a + i` on. -/
def mm256_loadu_si256 (a : Array (BitVec 64)) (i : Nat) : Comp M256i := do
  return #v[← load a i, ← load a (i + 1), ← load a (i + 2), ← load a (i + 3)]

/-- A gather: one load for each lane, `loadAt` being the load at an index
    of the gathered object. -/
def mm256_i64gather_epi64 (loadAt : BitVec 64 → Comp (BitVec 64)) (index : M256i) :
    Comp M256i := do
  return #v[← loadAt index[0], ← loadAt index[1], ← loadAt index[2], ← loadAt index[3]]

@[simp] theorem extract_map (a : M256i) (f : BitVec 64 → BitVec 64) (lane : Fin 4) :
    mm256_extract_epi64 (a.map f) lane = f (a.get lane) :=
  Vector.getElem_map f lane.isLt

section lanes
variable {α : Type} {i : Nat} (hi : i < 4) (a b : M256i)

@[simp] theorem lane_set1 (x : BitVec 64) : (mm256_set1_epi64x x)[i] = x := by
  simp [mm256_set1_epi64x]

@[simp] theorem lane_setzero : mm256_setzero_si256[i] = 0#64 := by
  simp [mm256_setzero_si256]

@[simp] theorem lane_and : (mm256_and_si256 a b)[i] = a[i] &&& b[i] := by
  simp [mm256_and_si256]

@[simp] theorem lane_or : (mm256_or_si256 a b)[i] = a[i] ||| b[i] := by
  simp [mm256_or_si256]

@[simp] theorem lane_andnot : (mm256_andnot_si256 a b)[i] = ~~~a[i] &&& b[i] := by
  simp [mm256_andnot_si256]

@[simp] theorem lane_sub : (mm256_sub_epi64 a b)[i] = a[i] - b[i] := by
  simp [mm256_sub_epi64]

@[simp] theorem lane_srli (n : Nat) : (mm256_srli_epi64 a n)[i] = a[i] >>> n := by
  simp [mm256_srli_epi64]

@[simp] theorem lane_sllv : (mm256_sllv_epi64 a b)[i] = a[i] <<< b[i].toNat := by
  simp [mm256_sllv_epi64]

@[simp] theorem lane_srlv : (mm256_srlv_epi64 a b)[i] = a[i] >>> b[i].toNat := by
  simp [mm256_srlv_epi64]

@[simp] theorem lane_cmpeq :
    (mm256_cmpeq_epi64 a b)[i] = if a[i] = b[i] then BitVec.allOnes 64 else 0 := by
  simp [mm256_cmpeq_epi64]

end lanes

/-- The sign bit of a comparison lane says whether the lanes agree. -/
@[simp] theorem msb_cmpeq {i : Nat} (hi : i < 4) (a b : M256i) :
    (mm256_cmpeq_epi64 a b)[i].msb = decide (a[i] = b[i]) := by
  rw [lane_cmpeq]
  split
  · next h => simp only [h, decide_true]; decide
  · next h => simp only [h, decide_false]; decide

theorem getLsbD_movemask {i : Nat} (hi : i < 4) (a : M256i) :
    (mm256_movemask_pd a).getLsbD i = a[i].msb := by
  unfold mm256_movemask_pd
  rw [BitVec.getLsbD_setWidth, BitVec.getLsbD_ofBoolListLE]
  interval_cases i <;> rfl

/-- The byte built from the sign bits of two vectors. -/
theorem getLsbD_packed {k : Nat} (hk : k < 8) (a b : M256i) :
    (((mm256_movemask_pd a &&& 0xF#32) |||
        ((mm256_movemask_pd b &&& 0xF#32) <<< 4)).setWidth 8).getLsbD k =
      if h : k < 4 then a[k].msb else b[k - 4].msb := by
  -- `0xF` keeps the four sign bits and nothing above them.
  have hlow : ∀ j, j < 4 → (0xF#32).getLsbD j = true := by decide
  have hhigh : ∀ j, 4 ≤ j → j < 8 → (0xF#32).getLsbD j = false := by decide
  rw [BitVec.getLsbD_setWidth, BitVec.getLsbD_or, BitVec.getLsbD_and, BitVec.getLsbD_shiftLeft,
    BitVec.getLsbD_and]
  split
  · next h =>
    rw [hlow k h, getLsbD_movemask h]
    simp [h, hk]
  · next h =>
    rw [hhigh k (by omega) hk, hlow (k - 4) (by omega),
      getLsbD_movemask (show k - 4 < 4 from by omega)]
    have hk32 : k < 32 := by omega
    simp [h, hk, hk32]

theorem loadu_ok {a : Array (BitVec 64)} {i : Nat} (h : i + 4 ≤ a.size) :
    mm256_loadu_si256 a i = .ok #v[a[i], a[i + 1], a[i + 2], a[i + 3]] := by
  unfold mm256_loadu_si256
  rw [load_ok (by omega), load_ok (by omega), load_ok (by omega),
    load_ok (by omega)]
  rfl

/-- Lane `l` of a load holds the word `l` places after the first. -/
theorem lane_loadu {a : Array (BitVec 64)} {i l : Nat} (h : i + 4 ≤ a.size) (hl : l < 4) :
    (#v[a[i], a[i + 1], a[i + 2], a[i + 3]] : M256i)[l] = a[i + l] := by
  interval_cases l <;> rfl

theorem gather_ok {loadAt : BitVec 64 → Comp (BitVec 64)} {g : BitVec 64 → BitVec 64}
    {index : M256i} (h : ∀ i, (hi : i < 4) → loadAt index[i] = .ok (g index[i])) :
    mm256_i64gather_epi64 loadAt index = .ok (index.map g) := by
  unfold mm256_i64gather_epi64
  rw [h 0 (by omega), h 1 (by omega), h 2 (by omega), h 3 (by omega)]
  apply congrArg Except.ok
  apply Vector.ext
  intro i hi
  interval_cases i <;> simp

end Lanes
