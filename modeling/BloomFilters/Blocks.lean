import BloomFilters.BloomFilter
import BloomFilters.Framework.Lanes

/-! # Tables of blocks

    What `BlockedBloomFilter`, `ArrowBloomFilter`, `ImprovedArrowBloomFilter`
    and `ModifiedArrowBloomFilter` have in common: a power-of-two number of
    64-bit blocks, one block for each hash, and a mask that is or-ed into
    it. The three Arrow variants also share their AVX2 loops, over groups of
    four hashes (insert) and of two times four (probe).

    Source: `bloom_filter/{BlockedBloomFilter,ArrowBloomFilter,
    ImprovedArrowFilter,ModifiedArrowBloomFilter}.{h,cpp}`.
-/

open Checked BitArray Words Lanes

namespace BloomFilters

/-! ## Sizes -/

/-- The number of blocks and its logarithm, an `int`. -/
structure Geometry where
  log_num_blocks : Int
  num_blocks : Word
  log_ge : 3 ≤ log_num_blocks
  log_le : log_num_blocks ≤ 58
  num_blocks_eq : num_blocks = 1#64 <<< log_num_blocks.toNat

/-- `log_num_blocks = ceil_log2(desired_num_bits) - 6;
    num_blocks = 1ULL << log_num_blocks;` -/
def Geometry.ofDesired (desired_num_bits : Word) (h : 512 ≤ desired_num_bits.toNat) : Geometry where
  log_num_blocks := ceil_log2 desired_num_bits - 6
  num_blocks := 1#64 <<< ((ceil_log2 desired_num_bits : Int) - 6).toNat
  log_ge := by
    have : 9 ≤ ceil_log2 desired_num_bits := le_ceil_log2 h
    omega
  log_le := by
    have := ceil_log2_le_64 desired_num_bits
    omega
  num_blocks_eq := rfl

namespace Geometry

variable (g : Geometry)

/-- The constructors' shift is one that the language defines. -/
theorem shl_log_num_blocks : shl 1#64 g.log_num_blocks = .ok g.num_blocks := by
  have := g.log_ge
  have := g.log_le
  rw [shl_ok (by omega), g.num_blocks_eq]

theorem toNat_num_blocks : g.num_blocks.toNat = 2 ^ g.log_num_blocks.toNat := by
  have := g.log_le
  rw [g.num_blocks_eq, BitVec.toNat_shiftLeft, BitVec.toNat_ofNat, Nat.shiftLeft_eq]
  rw [Nat.mod_eq_of_lt (show 1 < 2 ^ 64 from by decide), Nat.one_mul]
  exact Nat.mod_eq_of_lt (Nat.pow_lt_pow_right (by omega) (by omega))

/-- `block_id` by shift and mask: the bits above the low 16. -/
def lowBlock (hash : Word) : Word := (hash >>> 16) &&& (g.num_blocks - 1)

/-- `block_id` by one shift: the top bits. -/
def topBlock (hash : Word) : Word := hash >>> (64 - g.log_num_blocks).toNat

theorem toNat_lowBlock (hash : Word) :
    (g.lowBlock hash).toNat = hash.toNat / 2 ^ 16 % 2 ^ g.log_num_blocks.toNat := by
  have := g.log_le
  unfold lowBlock
  rw [g.num_blocks_eq, toNat_and_lowMask (by omega), BitVec.toNat_ushiftRight,
    Nat.shiftRight_eq_div_pow]

theorem toNat_topBlock (hash : Word) :
    (g.topBlock hash).toNat = hash.toNat / 2 ^ (64 - g.log_num_blocks.toNat) := by
  have := g.log_ge
  have := g.log_le
  unfold topBlock
  rw [BitVec.toNat_ushiftRight, Nat.shiftRight_eq_div_pow,
    show (64 - g.log_num_blocks).toNat = 64 - g.log_num_blocks.toNat from by omega]

theorem lowBlock_lt (hash : Word) : (g.lowBlock hash).toNat < g.num_blocks.toNat := by
  rw [toNat_lowBlock, toNat_num_blocks]
  exact Nat.mod_lt _ (Nat.two_pow_pos _)

theorem topBlock_lt (hash : Word) : (g.topBlock hash).toNat < g.num_blocks.toNat := by
  have := g.log_ge
  have := g.log_le
  -- The quotient of a 64-bit word by `2 ^ (64 - k)` is below `2 ^ k`.
  have hpow : 2 ^ 64 = 2 ^ (64 - g.log_num_blocks.toNat) * 2 ^ g.log_num_blocks.toNat := by
    rw [← pow_add]
    congr 1
    omega
  rw [toNat_topBlock, toNat_num_blocks, Nat.div_lt_iff_lt_mul (Nat.two_pow_pos _), Nat.mul_comm,
    ← hpow]
  exact hash.isLt

/-- There are at least eight blocks, so three bits can tell two of them apart. -/
theorem lowBlock_ne {h h' : Word} (hne : h.toNat / 2 ^ 16 % 2 ^ 3 ≠ h'.toNat / 2 ^ 16 % 2 ^ 3) :
    g.lowBlock h ≠ g.lowBlock h' := by
  intro heq
  have hge := g.log_ge
  have hdvd : 2 ^ 3 ∣ 2 ^ g.log_num_blocks.toNat := Nat.pow_dvd_pow 2 (by omega)
  have hmod := congrArg (fun b : Word => b.toNat % 2 ^ 3) heq
  simp only [toNat_lowBlock, Nat.mod_mod_of_dvd _ hdvd] at hmod
  exact hne hmod

theorem topBlock_ne {h h' : Word} (hne : h.toNat / 2 ^ 61 ≠ h'.toNat / 2 ^ 61) :
    g.topBlock h ≠ g.topBlock h' := by
  intro heq
  have := g.log_ge
  have := g.log_le
  -- The top three bits are the top three bits of the index.
  have hpow : 2 ^ 61 = 2 ^ (64 - g.log_num_blocks.toNat) * 2 ^ (g.log_num_blocks.toNat - 3) := by
    rw [← pow_add]
    congr 1
    omega
  rw [hpow, ← Nat.div_div_eq_div_mul, ← Nat.div_div_eq_div_mul, ← toNat_topBlock,
    ← toNat_topBlock, heq] at hne
  exact hne rfl

theorem shr_topBlock (hash : Word) :
    shr hash (64 - g.log_num_blocks) = .ok (g.topBlock hash) := by
  have := g.log_ge
  have := g.log_le
  rw [shr_ok (by omega), topBlock]

/-- ... and in each lane. -/
theorem srlv_topBlock (v : M256i) :
    mm256_srlv_epi64 v (mm256_set1_epi64x (BitVec.ofInt 64 (64 - g.log_num_blocks))) =
      v.map g.topBlock := by
  have := g.log_ge
  have := g.log_le
  have hshift : (BitVec.ofInt 64 (64 - g.log_num_blocks)).toNat =
      (64 - g.log_num_blocks).toNat := by
    rw [BitVec.toNat_ofInt, Int.emod_eq_of_lt (by omega) (by omega)]
  apply Vector.ext
  intro i hi
  simp only [lane_srlv, lane_set1, Vector.getElem_map, hshift, topBlock]

end Geometry

/-- The blocks; the constructors zero them. -/
structure BlockTable extends Geometry where
  bitvector : Vector Word num_blocks.toNat

/-- `bitvector.assign(num_blocks, 0)` -/
def BlockTable.ofGeometry (g : Geometry) : BlockTable where
  toGeometry := g
  bitvector := Vector.replicate _ 0

@[simp] theorem bitSet_ofGeometry (g : Geometry) :
    bitSet (BlockTable.ofGeometry g).bitvector.toArray = ∅ :=
  bitSet_replicate_zero _

/-! ## One block -/

section block

variable {n : Nat}

/-- `bitvector[block_id] |= mask` -/
def orBlock (bitvector : Vector Word n) (block_id mask : Word) : Comp (Vector Word n) := do
  let block ← loadFixed bitvector block_id.toNat
  storeFixed bitvector block_id.toNat (block ||| mask)

theorem orBlock_ok (bitvector : Vector Word n) {block_id : Word} (mask : Word)
    (h : block_id.toNat < n) :
    Returns (orBlock bitvector block_id mask) fun bitvector' =>
      bitSet bitvector'.toArray = bitSet bitvector.toArray ∪ wordBits block_id.toNat mask := by
  unfold orBlock
  rw [loadFixed_ok h, ok_bind, storeFixed_ok h]
  apply returns_ok
  have hsize : block_id.toNat < bitvector.toArray.size := by simpa using h
  -- One word of the table takes the bits of the mask.
  rw [Vector.toArray_set, ← Vector.getElem_toArray hsize, bitSet_set_or hsize]

/-- `(block & mask) == mask` holds iff the bits of the mask are stored. -/
theorem and_beq_iff {bitvector : Vector Word n} {i : Nat} {mask : Word} (h : i < n) :
    (bitvector[i] &&& mask == mask) = true ↔ wordBits i mask ⊆ bitSet bitvector.toArray := by
  rw [beq_iff_eq, wordBits_subset_bitSet (by simpa using h), Vector.getElem_toArray]

/-- `(mask & ~block) == 0` holds iff the bits of the mask are stored. -/
theorem and_not_beq_iff {bitvector : Vector Word n} {i : Nat} {mask : Word} (h : i < n) :
    (mask &&& ~~~bitvector[i] == 0) = true ↔ wordBits i mask ⊆ bitSet bitvector.toArray := by
  rw [beq_iff_eq, and_not_eq_zero_iff, ← beq_iff_eq]
  exact and_beq_iff h

end block

/-! ## AVX2 loops -/

section avx2

variable {n : Nat} {mask_avx2 : M256i → Comp M256i} {block_id_avx2 : M256i → M256i}
         {maskWord blockWord : Word → Word}

/-- The insert loop: the masks and the block indices of four hashes are
    computed before any of their blocks is written. -/
def insertLoop_avx2 (mask_avx2 : M256i → Comp M256i) (block_id_avx2 : M256i → M256i)
    (hash_array : Array Word) (loop_count : Nat) (bitvector : Vector Word n) :
    Comp (Vector Word n) :=
  forLoop 0 loop_count 4 (fun i bitvector => do
    let hash ← mm256_loadu_si256 hash_array i
    let mask ← mask_avx2 hash
    let block_id := block_id_avx2 hash
    let bitvector ← orBlock bitvector (mm256_extract_epi64 block_id 0) (mm256_extract_epi64 mask 0)
    let bitvector ← orBlock bitvector (mm256_extract_epi64 block_id 1) (mm256_extract_epi64 mask 1)
    let bitvector ← orBlock bitvector (mm256_extract_epi64 block_id 2) (mm256_extract_epi64 mask 2)
    orBlock bitvector (mm256_extract_epi64 block_id 3) (mm256_extract_epi64 mask 3)) bitvector

/-- The probe loop: eight hashes, one byte of the result. `compare` turns
    blocks and masks into lanes whose sign bit is the answer. -/
def probeLoop_avx2 (mask_avx2 : M256i → Comp M256i) (block_id_avx2 : M256i → M256i)
    (compare : M256i → M256i → M256i) (bitvector : Vector Word n) (hash_array : Array Word)
    (loop_count : Nat) (result : Array Byte) : Comp (Array Byte) :=
  forLoop 0 loop_count 8 (fun i result => do
    let hash_A ← mm256_loadu_si256 hash_array i
    let hash_B ← mm256_loadu_si256 hash_array (i + 4)
    let mask_A ← mask_avx2 hash_A
    let mask_B ← mask_avx2 hash_B
    let block_id_A := block_id_avx2 hash_A
    let block_id_B := block_id_avx2 hash_B
    let block_A ← mm256_i64gather_epi64 (fun id => loadFixed bitvector id.toNat) block_id_A
    let block_B ← mm256_i64gather_epi64 (fun id => loadFixed bitvector id.toNat) block_id_B
    let lanes_A := mm256_movemask_pd (compare block_A mask_A)
    let lanes_B := mm256_movemask_pd (compare block_B mask_B)
    let packed := ((lanes_A &&& 0xF#32) ||| ((lanes_B &&& 0xF#32) <<< 4)).setWidth 8
    store result (i / 8) packed) result

/-- `(block & mask) == mask` in each lane. -/
def match_avx2 (block mask : M256i) : M256i :=
  mm256_cmpeq_epi64 (mm256_and_si256 block mask) mask

/-- `(mask & ~block) == 0` in each lane. -/
def missing_avx2 (block mask : M256i) : M256i :=
  mm256_cmpeq_epi64 (mm256_andnot_si256 block mask) mm256_setzero_si256

theorem match_avx2_msb (block mask : M256i) (k : Nat) (hk : k < 4) :
    (match_avx2 block mask)[k].msb = (block[k] &&& mask[k] == mask[k]) := by
  unfold match_avx2
  rw [msb_cmpeq, lane_and]
  rfl

theorem missing_avx2_msb (block mask : M256i) (k : Nat) (hk : k < 4) :
    (missing_avx2 block mask)[k].msb = (mask[k] &&& ~~~block[k] == 0) := by
  unfold missing_avx2
  rw [msb_cmpeq, lane_andnot, lane_setzero, BitVec.and_comm]
  rfl

/-- The vector functions of a filter compute its scalar ones in each lane,
    and no block index leaves the table. -/
structure LaneWise (n : Nat) (mask_avx2 : M256i → Comp M256i) (block_id_avx2 : M256i → M256i)
    (maskWord blockWord : Word → Word) : Prop where
  mask_eq : ∀ v, mask_avx2 v = .ok (v.map maskWord)
  block_eq : ∀ v, block_id_avx2 v = v.map blockWord
  block_lt : ∀ h, (blockWord h).toNat < n

/-- **Vector insert**: the groups of four do what the scalar loop does, also
    when several lanes meet in one block. -/
theorem insertLoop_avx2_eq (lanes : LaneWise n mask_avx2 block_id_avx2 maskWord blockWord)
    {hash_array : Array Word} {loop_count : Nat} {bitvector : Vector Word n}
    (hdvd : 4 ∣ loop_count) (hle : loop_count ≤ hash_array.size) :
    insertLoop_avx2 mask_avx2 block_id_avx2 hash_array loop_count bitvector =
      forLoop 0 loop_count 1 (fun i bitvector =>
        load hash_array i >>= fun h => orBlock bitvector (blockWord h) (maskWord h)) bitvector := by
  -- A group of four is four rounds, in the order of the lanes.
  apply forLoop_unroll (by omega) (Nat.zero_le _) hdvd
  intro i bitvector _ hi
  rw [loadu_ok (by omega), ok_bind, lanes.mask_eq, ok_bind]
  simp only [lanes.block_eq, extract_map]
  have hload : ∀ k, (hk : k < 4) → load hash_array (i + k) = .ok hash_array[i + k] :=
    fun k hk => load_ok (by omega)
  -- The four rounds of the scalar loop, one lane each.
  rw [forLoop_step Nat.one_pos (by omega), show load hash_array i = _ from hload 0 (by omega),
    ok_bind]
  apply bind_congr
  intro bitvector₁
  rw [forLoop_step Nat.one_pos (by omega), hload 1 (by omega), ok_bind]
  apply bind_congr
  intro bitvector₂
  rw [forLoop_step Nat.one_pos (by omega), hload 2 (by omega), ok_bind]
  apply bind_congr
  intro bitvector₃
  rw [forLoop_step Nat.one_pos (by omega), hload 3 (by omega), ok_bind]
  apply (bind_ok _).symm.trans
  apply bind_congr
  intro bitvector₄
  exact (forLoop_done (by omega)).symm

/-- **Vector insert with its tail**: a batch is the scalar loop over it. `put`
    is the filter around a table. -/
theorem insertLoop_avx2_tail (lanes : LaneWise n mask_avx2 block_id_avx2 maskWord blockWord)
    {σ : Type} {put : Vector Word n → σ} {insertImpl : σ → Word → Comp σ}
    (hinsert : ∀ t h, insertImpl (put t) h = put <$> orBlock t (blockWord h) (maskWord h))
    (hash_array : Array Word) (bitvector : Vector Word n) :
    (insertLoop_avx2 mask_avx2 block_id_avx2 hash_array (hash_array.size - hash_array.size % 4)
        bitvector >>= fun t =>
      insertLoop insertImpl hash_array (hash_array.size - hash_array.size % 4) (put t)) =
      insertLoop insertImpl hash_array 0 (put bitvector) := by
  -- The loops run over the filter `put t` on one side, over the table `t` on the other.
  have hbody : ∀ i t, (load hash_array i >>= insertImpl (put t)) =
      put <$> (load hash_array i >>= fun h => orBlock t (blockWord h) (maskWord h)) := by
    intro i t
    cases load hash_array i with
    | error e => rfl
    | ok h => exact hinsert t h
  have hlift : ∀ lo t, insertLoop insertImpl hash_array lo (put t) =
      put <$> forLoop lo hash_array.size 1 (fun i t =>
        load hash_array i >>= fun h => orBlock t (blockWord h) (maskWord h)) t :=
    fun lo t => forLoop_map put t Nat.one_pos hbody
  -- The groups of four and the tail are one loop over the whole batch.
  rw [insertLoop_avx2_eq lanes (by omega) (by omega), hlift,
    forLoop_append 0 (hash_array.size - hash_array.size % 4) hash_array.size Nat.one_pos
      (by omega) (by omega) (Nat.one_dvd _)]
  simp only [hlift]
  cases forLoop 0 (hash_array.size - hash_array.size % 4) 1 (fun i t =>
    load hash_array i >>= fun h => orBlock t (blockWord h) (maskWord h)) bitvector with
  | error e => rfl
  | ok t => rfl

/-- The gather of the blocks that four hashes select. -/
theorem LaneWise.gather_eq (lanes : LaneWise n mask_avx2 block_id_avx2 maskWord blockWord)
    (bitvector : Vector Word n) (v : M256i) :
    mm256_i64gather_epi64 (fun id => loadFixed bitvector id.toNat) (block_id_avx2 v) =
      .ok (v.map fun h => getElem bitvector (blockWord h).toNat (lanes.block_lt h)) := by
  -- `getD 0` is never used: every index is inside of the table.
  rw [lanes.block_eq, gather_ok (g := fun id => (loadFixed bitvector id.toNat).toOption.getD 0)]
  · apply congrArg Except.ok
    apply Vector.ext
    intro k hk
    simp [loadFixed_ok (lanes.block_lt v[k]), Except.toOption]
  · intro k hk
    simp [loadFixed_ok (lanes.block_lt v[k]), Except.toOption]

section probe

variable {compare : M256i → M256i → M256i} (test : Word → Word → Bool)
         {bitvector : Vector Word n} {hash_array : Array Word} {p : Nat → Bool}
         {result : Array Byte}

/-- **Vector probe**: the loop packs the answers of the scalar test,
    whatever the buffer held. -/
theorem probeLoop_avx2_ok (lanes : LaneWise n mask_avx2 block_id_avx2 maskWord blockWord)
    (hcompare : ∀ (block mask : M256i) (k : Nat) (hk : k < 4),
      (compare block mask)[k].msb = test block[k] mask[k])
    (hp : ∀ i, (hi : i < hash_array.size) →
      test (getElem bitvector (blockWord hash_array[i]).toNat (lanes.block_lt _))
        (maskWord hash_array[i]) = p i)
    {loop_count : Nat} (hdvd : 8 ∣ loop_count)
    (hle : loop_count ≤ hash_array.size) (hsize : loop_count ≤ 8 * result.size) :
    probeLoop_avx2 mask_avx2 block_id_avx2 compare bitvector hash_array loop_count result =
      .ok (packBits p (loop_count / 8) result) := by
  have hstart : result = packBits p (0 / 8) result := by simp
  -- After the groups before hash `i` the first `i / 8` bytes hold their answers.
  apply forLoop_eq_ok (fun i => packBits p (i / 8) result) (by omega) (Nat.zero_le _) hdvd hstart
  intro i _ hi hdvdi
  rw [loadu_ok (by omega), ok_bind, loadu_ok (by omega), ok_bind, lanes.mask_eq, ok_bind,
    lanes.mask_eq, ok_bind]
  simp only [lanes.gather_eq, ok_bind]
  have hnext : (i + 8) / 8 = i / 8 + 1 := by omega
  rw [store_ok (by simp; omega), hnext]
  apply congrArg Except.ok
  apply set_packBits (by omega)
  intro k hk
  have hidx : 8 * (i / 8) + k = i + k := by omega
  rw [getLsbD_packed hk, hidx, ← hp (i + k) (by omega)]
  -- The first vector holds the hashes of bits 0 to 3, the second those of bits 4 to 7.
  split
  · next h => simp only [hcompare, Vector.getElem_map, lane_loadu _ h]
  · next h =>
    have hhigh : i + 4 + (k - 4) = i + k := by omega
    have hlt : k - 4 < 4 := by omega
    simp only [hcompare, Vector.getElem_map, lane_loadu _ hlt, hhigh]

/-- The index of the byte behind the groups of eight. -/
theorem groups_shiftRight (size : Nat) : (size - size % 8) >>> 3 = size / 8 := by
  rw [Nat.shiftRight_eq_div_pow]
  omega

/-- **Vector probe of a batch**: the bytes of its groups of eight. -/
theorem probeLoop_avx2_groups (lanes : LaneWise n mask_avx2 block_id_avx2 maskWord blockWord)
    (hcompare : ∀ (block mask : M256i) (k : Nat) (hk : k < 4),
      (compare block mask)[k].msb = test block[k] mask[k])
    (hp : ∀ i, (hi : i < hash_array.size) →
      test (getElem bitvector (blockWord hash_array[i]).toNat (lanes.block_lt _))
        (maskWord hash_array[i]) = p i)
    (hsize : (hash_array.size + 7) / 8 ≤ result.size) :
    probeLoop_avx2 mask_avx2 block_id_avx2 compare bitvector hash_array
        (hash_array.size - hash_array.size % 8) result =
      .ok (packBits p (hash_array.size / 8) result) := by
  have hbytes : (hash_array.size - hash_array.size % 8) / 8 = hash_array.size / 8 := by omega
  rw [probeLoop_avx2_ok test lanes hcompare hp (by omega) (by omega) (by omega), hbytes]

end probe

end avx2

/-! ## Block filters -/

/-- A filter that or-s the mask of a hash into the block of the hash.

    `maskWord` and `blockWord` are the values of its functions `mask` and
    `block_id`; `HasMask` singles out the hashes on which `mask` returns. -/
class BlockFilter (Impl : Type) [BloomFilter Impl] where
  toTable : Impl → BlockTable
  /-- The filter with other blocks. -/
  put : (f : Impl) → Vector Word (toTable f).num_blocks.toNat → Impl
  toTable_put : ∀ f t, toTable (put f t) = { toTable f with bitvector := t }
  HasMask : Word → Prop
  maskWord : Word → Word
  blockWord : Geometry → Word → Word
  block_lt : ∀ g h, (blockWord g h).toNat < g.num_blocks.toNat
  insert_eq : ∀ f h, HasMask h → insert f h = put f <$>
    orBlock (toTable f).bitvector (blockWord (toTable f).toGeometry h) (maskWord h)
  contains_spec : ∀ f h, HasMask h → Returns (contains f h) fun b => (b = true ↔
    wordBits (blockWord (toTable f).toGeometry h).toNat (maskWord h) ⊆
      bitSet (toTable f).bitvector.toArray)
  insertBatch_eq : ∀ (f : Impl) (hs : Array Word), insertBatch f hs = hs.toList.foldlM insert f
  containsBatch_eq : ∀ (f : Impl) (hs : Array Word) (result : Array Byte) (p : Nat → Bool),
    (∀ i, (hi : i < hs.size) → contains f hs[i] = .ok (p i)) → hs.size + 7 < 2 ^ 64 →
    result_bytes hs.size ≤ result.size →
    containsBatch f hs result = .ok (packBits (answers p hs.size) (result_bytes hs.size) result)

namespace BlockFilter

variable {Impl : Type} [BloomFilter Impl] [BlockFilter Impl]

/-- The positions of a hash: its mask, in its block. -/
def footprint (Impl : Type) [BloomFilter Impl] [BlockFilter Impl] (g : Geometry) (hash : Word) :
    Set Nat :=
  wordBits (blockWord Impl g hash).toNat (maskWord Impl hash)

/-- A mask with a set bit has a position. -/
theorem footprint_nonempty {g : Geometry} {h : Word} (hbits : 0 < bitCount (maskWord Impl h)) :
    (footprint Impl g h).Nonempty := by
  obtain ⟨j, hj⟩ := Finset.card_pos.mp hbits
  rw [mem_setBits] at hj
  have hlt := BitVec.lt_of_getLsbD hj
  refine ⟨(blockWord Impl g h).toNat * 64 + j, ?_, ?_⟩
  · omega
  · rwa [show ((blockWord Impl g h).toNat * 64 + j) % 64 = j from by omega]

theorem insert_spec (f : Impl) (h : Word) (hmask : HasMask Impl h) :
    Returns (insert f h) fun f' => (toTable f').toGeometry = (toTable f).toGeometry ∧
      bitSet (toTable f').bitvector.toArray =
        bitSet (toTable f).bitvector.toArray ∪ footprint Impl (toTable f).toGeometry h := by
  -- The block index comes from the hash, so it is inside of every table of this geometry.
  obtain ⟨t, ht, hbits⟩ := orBlock_ok (toTable f).bitvector (maskWord Impl h)
    (block_lt (toTable f).toGeometry h : (blockWord Impl _ h).toNat < _)
  rw [insert_eq f h hmask, ht]
  apply returns_ok
  rw [toTable_put]
  exact ⟨rfl, hbits⟩

instance : LawfulBloomFilter Impl where
  Shape := Geometry
  shape f := (toTable f).toGeometry
  Valid _ := True
  HasMask := HasMask Impl
  width := 64
  table f := (toTable f).bitvector.toArray
  tableSize g := g.num_blocks.toNat
  size_table f := by simp
  footprint := footprint Impl
  insert_spec f h _ hmask := insert_spec f h hmask
  contains_spec f h _ hmask := contains_spec f h hmask
  insertBatch_eq := insertBatch_eq
  containsBatch_eq := containsBatch_eq

/-- Blocks are selected inside of every table. -/
theorem valid (f : Impl) : LawfulBloomFilter.Valid (LawfulBloomFilter.shape f) := trivial

section new

variable {f : Impl} {g : Geometry}

theorem shape_of_new (hnew : toTable f = .ofGeometry g) : (toTable f).toGeometry = g := by
  rw [hnew]
  rfl

theorem fresh_of_new (hnew : toTable f = .ofGeometry g) :
    bitSet (LawfulBloomFilter.table f) = ∅ := by
  show bitSet (toTable f).bitvector.toArray = ∅
  rw [hnew, bitSet_ofGeometry]

end new

end BlockFilter

end BloomFilters
