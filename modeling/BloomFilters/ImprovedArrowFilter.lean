import BloomFilters.SlidingMasks

/-! # The improved Arrow filter

    `bloom_filter/ImprovedArrowFilter.{h,cpp}`. The table of the Arrow
    filter, but a hash is divided into
    `[block id][...][6 bits - rotation][10 bits - mask id]`, the membership
    test is `(m & ~b) == 0`, and the batch probe clears only what it will
    not overwrite.
-/

open Checked BitArray Words Lanes Window

namespace BloomFilters

open SlidingMasks

/-! ## The mask table -/

namespace ImprovedBloomFilterMasks

abbrev bitsPerMask : Nat := 57
abbrev minBitsSet : Nat := 4
abbrev maxBitsSet : Nat := 5
abbrev fullMask : Word := (1#64 <<< bitsPerMask) - 1
abbrev logNumberMasks : Nat := 10
abbrev numberMasks : Nat := 1 <<< logNumberMasks
abbrev maskIndex : Nat := numberMasks - 1
abbrev totalBytes : Nat := (numberMasks + 64) >>> 3

end ImprovedBloomFilterMasks

structure ImprovedBloomFilterMasks where
  masks : Vector Byte ImprovedBloomFilterMasks.totalBytes

namespace ImprovedBloomFilterMasks

/-- The constructor. It clears nothing: the only table is a static object,
    whose storage starts out zero. -/
def new (random : RandomDraws) (fuel : Nat) : Comp ImprovedBloomFilterMasks := do
  let masks := Vector.replicate totalBytes 0
  return ⟨← fillTable random bitsPerMask minBitsSet maxBitsSet numberMasks fuel masks⟩

def mask (t : ImprovedBloomFilterMasks) (bit_offset : Nat) : Comp Word := do
  let loaded_bits ← load64 t.masks (bit_offset >>> 3)
  let shift := bit_offset &&& 7
  return (← shr loaded_bits shift) &&& fullMask

theorem getLsbD_fullMask (j : Nat) :
    fullMask.getLsbD j = decide (j < bitsPerMask) :=
  getLsbD_lowMask (show bitsPerMask < 64 by decide)

theorem mask_eq (t : ImprovedBloomFilterMasks) {k : Nat} (hk : k < numberMasks) :
    t.mask k = .ok (windowWord t.masks fullMask k) := by
  have hbyte : k / 8 + 8 ≤ totalBytes := by
    have : k < 1024 := hk
    show k / 8 + 8 ≤ 136
    omega
  have hmod : k &&& 7 = k % 8 := Nat.and_two_pow_sub_one_eq_mod k 3
  unfold mask
  rw [hmod, Nat.shiftRight_eq_div_pow]
  exact load_window hbyte

end ImprovedBloomFilterMasks

/-! ## Operations -/

structure ImprovedArrowBloomFilter (masks : ImprovedBloomFilterMasks) extends BlockTable where
  impl_mode : ImplMode
  block_shift : Int
  block_shift_eq : block_shift = 64 - log_num_blocks

namespace ImprovedArrowBloomFilter

open ImprovedBloomFilterMasks (maskIndex logNumberMasks fullMask)

abbrev bitsPerKey : Word := 8
abbrev min_num_bits : Word := 512

/-- `std::max(min_num_bits, rows_to_insert * bitsPerKey)`; the product wraps. -/
def desired_num_bits (rows_to_insert : Word) : Word :=
  std_max min_num_bits (rows_to_insert * bitsPerKey)

theorem le_desired_num_bits (rows_to_insert : Word) :
    512 ≤ (desired_num_bits rows_to_insert).toNat :=
  le_std_max_left min_num_bits (rows_to_insert * bitsPerKey)

variable {masks : ImprovedBloomFilterMasks}

/-- The constructor; `mode` defaults to `scalar`. -/
def new (masks : ImprovedBloomFilterMasks) (rows_to_insert : Word) (mode : ImplMode) :
    ImprovedArrowBloomFilter masks :=
  let g := Geometry.ofDesired _ (le_desired_num_bits rows_to_insert)
  { toBlockTable := .ofGeometry g
    impl_mode := mode
    block_shift := 64 - g.log_num_blocks
    block_shift_eq := rfl }

def mask (masks : ImprovedBloomFilterMasks) (hash : Word) : Comp Word := do
  let mask_id := (hash &&& BitVec.ofNat 64 maskIndex).toNat
  let result ← masks.mask mask_id
  let num_rotation := ((← shr hash logNumberMasks) &&& 63).toNat
  rotate_left result num_rotation

def block_id (f : ImprovedArrowBloomFilter masks) (hash : Word) : Comp Word :=
  shr hash f.block_shift

def insertImpl (f : ImprovedArrowBloomFilter masks) (hash : Word) :
    Comp (ImprovedArrowBloomFilter masks) := do
  let m ← mask masks hash
  return { f with bitvector := ← orBlock f.bitvector (← f.block_id hash) m }

def containsImpl (f : ImprovedArrowBloomFilter masks) (hash : Word) : Comp Bool := do
  let m ← mask masks hash
  let b ← loadFixed f.bitvector (← f.block_id hash).toNat
  return m &&& ~~~b == 0

/-! ### AVX2 -/

def mask_avx2 (masks : ImprovedBloomFilterMasks) (hash : M256i) : Comp M256i :=
  SlidingMasks.mask_avx2 masks.masks fullMask logNumberMasks hash

def block_id_avx2 (f : ImprovedArrowBloomFilter masks) (hash : M256i) : M256i :=
  mm256_srlv_epi64 hash (mm256_set1_epi64x (BitVec.ofInt 64 f.block_shift))

def insertBatchImpl_avx2 (f : ImprovedArrowBloomFilter masks) (hash_array : Array Word) :
    Comp (ImprovedArrowBloomFilter masks × Nat) := do
  let loop_count := hash_array.size - hash_array.size % 4
  let bitvector ←
    insertLoop_avx2 (mask_avx2 masks) f.block_id_avx2 hash_array loop_count f.bitvector
  return ({ f with bitvector := bitvector }, loop_count)

def containsBatchImpl_avx2 (f : ImprovedArrowBloomFilter masks) (hash_array : Array Word)
    (result : Array Byte) : Comp (Array Byte × Nat) := do
  let loop_count := hash_array.size - hash_array.size % 8
  let result ← probeLoop_avx2 (mask_avx2 masks) f.block_id_avx2 missing_avx2 f.bitvector
    hash_array loop_count result
  return (result, loop_count)

/-! ### Batches -/

def insertBatchImpl (f : ImprovedArrowBloomFilter masks) (hash_array : Array Word) :
    Comp (ImprovedArrowBloomFilter masks) := do
  let (f, processed) ←
    if f.impl_mode = .avx2 then f.insertBatchImpl_avx2 hash_array else .ok (f, 0)
  insertLoop insertImpl hash_array processed f

def containsBatchImpl (f : ImprovedArrowBloomFilter masks) (hash_array : Array Word)
    (result : Array Byte) : Comp (Array Byte) := do
  if f.impl_mode = .avx2 then
    let (result, processed) ← f.containsBatchImpl_avx2 hash_array result
    if processed = hash_array.size then
      return result
    else
      -- Only the byte of the tail is cleared.
      let result ← store result (processed >>> 3) 0
      probeLoop f.containsImpl hash_array processed result
  else
    let result ← fillZero result (result_bytes hash_array.size)
    probeLoop f.containsImpl hash_array 0 result

instance : BloomFilter (ImprovedArrowBloomFilter masks) where
  insertImpl := insertImpl
  containsImpl := containsImpl
  insertBatchImpl := insertBatchImpl
  containsBatchImpl := containsBatchImpl

/-! ### Specifications -/

/-- The mask of a hash. -/
def maskWord (masks : ImprovedBloomFilterMasks) : Word → Word :=
  rotatedWord masks.masks fullMask logNumberMasks

theorem mask_eq (hash : Word) : mask masks hash = .ok (maskWord masks hash) := by
  have hid : (hash &&& BitVec.ofNat 64 maskIndex).toNat = hash.toNat % 2 ^ logNumberMasks :=
    toNat_and_lowMask (show logNumberMasks < 64 by decide)
  have hlt : hash.toNat % 2 ^ logNumberMasks < ImprovedBloomFilterMasks.numberMasks :=
    Nat.mod_lt _ (by decide)
  rw [mask, hid, masks.mask_eq hlt, ok_bind, shr_ok (by decide), ok_bind]
  exact rotate_left_window hash

theorem block_id_eq (f : ImprovedArrowBloomFilter masks) (hash : Word) :
    f.block_id hash = .ok (f.topBlock hash) := by
  unfold block_id
  rw [f.block_shift_eq, f.shr_topBlock]

/-- The vector functions in each lane. -/
theorem lanes (f : ImprovedArrowBloomFilter masks) : LaneWise f.num_blocks.toNat (mask_avx2 masks)
    f.block_id_avx2 (maskWord masks) f.topBlock where
  mask_eq v := SlidingMasks.mask_avx2_eq (by decide) (by decide) v
  block_eq v := by
    unfold block_id_avx2
    rw [f.block_shift_eq]
    exact f.srlv_topBlock v
  block_lt h := f.topBlock_lt h

theorem insertImpl_eq (f : ImprovedArrowBloomFilter masks) (hash : Word) :
    f.insertImpl hash = (fun t => { f with bitvector := t }) <$>
      orBlock f.bitvector (f.topBlock hash) (maskWord masks hash) := by
  unfold insertImpl
  rw [mask_eq, ok_bind, block_id_eq, ok_bind]
  rfl

/-- The answer to a hash. -/
def answer (f : ImprovedArrowBloomFilter masks) (hash : Word) : Bool :=
  maskWord masks hash &&& ~~~getElem f.bitvector (f.topBlock hash).toNat (f.topBlock_lt hash) == 0

theorem containsImpl_eq (f : ImprovedArrowBloomFilter masks) (hash : Word) :
    f.containsImpl hash = .ok (f.answer hash) := by
  unfold containsImpl
  rw [mask_eq, ok_bind, block_id_eq, ok_bind, loadFixed_ok (f.topBlock_lt hash)]
  rfl

theorem insertBatchImpl_eq (f : ImprovedArrowBloomFilter masks) (hash_array : Array Word) :
    f.insertBatchImpl hash_array = insertLoop insertImpl hash_array 0 f := by
  have hinsert : ∀ (t : Vector Word f.num_blocks.toNat) h,
      insertImpl { f with bitvector := t } h = (fun t => { f with bitvector := t }) <$>
        orBlock t (f.topBlock h) (maskWord masks h) :=
    fun t h => insertImpl_eq { f with bitvector := t } h
  unfold insertBatchImpl
  split
  · simp only [insertBatchImpl_avx2, bind_assoc, pure_eq_ok, ok_bind]
    exact insertLoop_avx2_tail f.lanes hinsert hash_array f.bitvector
  · rfl

/-- The vector probe writes the answers to the groups of eight. -/
theorem containsBatchImpl_avx2_eq (f : ImprovedArrowBloomFilter masks) {hash_array : Array Word}
    {result : Array Byte} {p : Nat → Bool}
    (hp : ∀ i, (hi : i < hash_array.size) → f.answer hash_array[i] = p i)
    (hsize : (hash_array.size + 7) / 8 ≤ result.size) :
    f.containsBatchImpl_avx2 hash_array result =
      .ok (packBits p (hash_array.size / 8) result, hash_array.size - hash_array.size % 8) := by
  rw [containsBatchImpl_avx2,
    probeLoop_avx2_groups (fun b m => m &&& ~~~b == 0) f.lanes missing_avx2_msb hp hsize, ok_bind]
  rfl

/-- The vector mode needs no bound on the length of the batch: it computes
    the index of its last byte from the number of hashes already done. -/
theorem containsBatchImpl_of_avx2 (f : ImprovedArrowBloomFilter masks)
    (hmode : f.impl_mode = .avx2) {hash_array : Array Word} {result : Array Byte} {p : Nat → Bool}
    (hp : ∀ i, (hi : i < hash_array.size) → f.answer hash_array[i] = p i)
    (hsize : (hash_array.size + 7) / 8 ≤ result.size) :
    f.containsBatchImpl hash_array result =
      .ok (packBits (answers p hash_array.size) ((hash_array.size + 7) / 8) result) := by
  have hscalar : ∀ i, (hi : i < hash_array.size) → f.containsImpl hash_array[i] = .ok (p i) :=
    fun i hi => (containsImpl_eq f _).trans (congrArg _ (hp i hi))
  have height : 8 * (hash_array.size / 8) = hash_array.size - hash_array.size % 8 := by omega
  unfold containsBatchImpl
  rw [if_pos hmode, containsBatchImpl_avx2_eq f hp hsize, ok_bind]
  simp only
  split
  · next hdone =>
    have hbytes : (hash_array.size + 7) / 8 = hash_array.size / 8 := by omega
    rw [hbytes, packBits_eq_answers (show 8 * (hash_array.size / 8) ≤ hash_array.size by omega)]
    rfl
  · next htail =>
    have hbytes : (hash_array.size + 7) / 8 = hash_array.size / 8 + 1 := by omega
    -- The cleared byte belongs to the padding and to the answers of the tail.
    rw [groups_shiftRight, store_ok (by simp; omega), ok_bind, set_zero_packBits (by omega),
      height, hbytes]
    exact probeLoop_ok hscalar (by omega) (by omega) (by omega)

theorem containsBatchImpl_eq (f : ImprovedArrowBloomFilter masks) {hash_array : Array Word}
    {result : Array Byte} {p : Nat → Bool}
    (hp : ∀ i, (hi : i < hash_array.size) → f.answer hash_array[i] = p i)
    (hcount : hash_array.size + 7 < 2 ^ 64) (hsize : result_bytes hash_array.size ≤ result.size) :
    f.containsBatchImpl hash_array result =
      .ok (packBits (answers p hash_array.size) (result_bytes hash_array.size) result) := by
  by_cases hmode : f.impl_mode = .avx2
  · rw [result_bytes_eq hcount] at hsize ⊢
    exact containsBatchImpl_of_avx2 f hmode hp hsize
  · -- The scalar mode is the plain fill and probe.
    unfold containsBatchImpl
    rw [if_neg hmode]
    exact fillAndProbe_ok (fun i hi => (containsImpl_eq f _).trans (congrArg _ (hp i hi)))
      hcount hsize

instance : BlockFilter (ImprovedArrowBloomFilter masks) where
  toTable f := f.toBlockTable
  put f t := { f with bitvector := t }
  toTable_put _ _ := rfl
  HasMask _ := True
  maskWord := maskWord masks
  blockWord := Geometry.topBlock
  block_lt := Geometry.topBlock_lt
  insert_eq f h _ := insertImpl_eq f h
  contains_spec f h _ := ⟨_, containsImpl_eq f h, and_not_beq_iff _⟩
  insertBatch_eq f hs := (insertBatchImpl_eq f hs).trans (insertLoop_eq_foldlM _ hs f)
  containsBatch_eq f _ _ _ hp hcount hsize := containsBatchImpl_eq f
    (fun i hi => Except.ok.inj ((containsImpl_eq f _).symm.trans (hp i hi))) hcount hsize

end ImprovedArrowBloomFilter

end BloomFilters
