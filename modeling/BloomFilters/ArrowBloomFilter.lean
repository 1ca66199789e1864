import BloomFilters.SlidingMasks

/-! # The Arrow filter

    `bloom_filter/ArrowBloomFilter.{h,cpp}`. A hash is divided into
    `[...][block id][6 bits - rotation][10 bits - mask id]`. The mask table
    is a static object, hence a parameter of the filter type.
-/

open Checked BitArray Words Lanes Window

namespace BloomFilters

open SlidingMasks

/-! ## The mask table -/

namespace BloomFilterMasks

abbrev bitsPerMask : Nat := 57
abbrev minBitsSet : Nat := 4
abbrev maxBitsSet : Nat := 5
abbrev fullMask : Word := (1#64 <<< bitsPerMask) - 1
abbrev logNumberMasks : Nat := 10
abbrev numberMasks : Nat := 1 <<< logNumberMasks
abbrev totalBytes : Nat := (numberMasks + 64) / 8

end BloomFilterMasks

structure BloomFilterMasks where
  masks : Vector Byte BloomFilterMasks.totalBytes

namespace BloomFilterMasks

/-- The constructor, over whatever the storage held. -/
def new (random : RandomDraws) (fuel : Nat) (storage : Vector Byte totalBytes) :
    Comp BloomFilterMasks := do
  -- `std::memset(masks, 0, totalBytes)`
  let masks := storage.map fun _ => 0
  return ⟨← fillTable random bitsPerMask minBitsSet maxBitsSet numberMasks fuel masks⟩

def mask (t : BloomFilterMasks) (bit_offset : Nat) : Comp Word := do
  let loaded_bits ← load64 t.masks (bit_offset / 8)
  let shift := bit_offset % 8
  return (← shr loaded_bits shift) &&& fullMask

theorem getLsbD_fullMask (j : Nat) :
    fullMask.getLsbD j = decide (j < bitsPerMask) :=
  getLsbD_lowMask (show bitsPerMask < 64 by decide)

theorem mask_eq (t : BloomFilterMasks) {k : Nat} (hk : k < numberMasks) :
    t.mask k = .ok (windowWord t.masks fullMask k) := by
  have hbyte : k / 8 + 8 ≤ totalBytes := by
    have : k < 1024 := hk
    show k / 8 + 8 ≤ 136
    omega
  exact load_window hbyte

end BloomFilterMasks

/-! ## Operations -/

structure ArrowBloomFilter (masks : BloomFilterMasks) extends BlockTable where
  impl_mode : ImplMode

namespace ArrowBloomFilter

open BloomFilterMasks (numberMasks logNumberMasks fullMask)

abbrev bitsPerKey : Word := 8
abbrev min_num_bits : Word := 512

/-- `std::max(min_num_bits, rows_to_insert * bitsPerKey)`; the product wraps. -/
def desired_num_bits (rows_to_insert : Word) : Word :=
  std_max min_num_bits (rows_to_insert * bitsPerKey)

theorem le_desired_num_bits (rows_to_insert : Word) :
    512 ≤ (desired_num_bits rows_to_insert).toNat :=
  le_std_max_left min_num_bits (rows_to_insert * bitsPerKey)

variable {masks : BloomFilterMasks}

/-- The constructor; `mode` defaults to `scalar`. -/
def new (masks : BloomFilterMasks) (rows_to_insert : Word) (mode : ImplMode) :
    ArrowBloomFilter masks where
  toBlockTable := .ofGeometry (.ofDesired _ (le_desired_num_bits rows_to_insert))
  impl_mode := mode

def mask (masks : BloomFilterMasks) (hash : Word) : Comp Word := do
  let mask_id := (hash &&& BitVec.ofNat 64 (numberMasks - 1)).toNat
  let result ← masks.mask mask_id
  let num_rotation := ((← shr hash logNumberMasks) &&& 63).toNat
  rotate_left result num_rotation

def block_id (f : ArrowBloomFilter masks) (hash : Word) : Comp Word := do
  return (← shr hash (logNumberMasks + 6 : Nat)) &&& (f.num_blocks - 1)

def insertImpl (f : ArrowBloomFilter masks) (hash : Word) : Comp (ArrowBloomFilter masks) := do
  let m ← mask masks hash
  return { f with bitvector := ← orBlock f.bitvector (← f.block_id hash) m }

def containsImpl (f : ArrowBloomFilter masks) (hash : Word) : Comp Bool := do
  let m ← mask masks hash
  let b ← loadFixed f.bitvector (← f.block_id hash).toNat
  return b &&& m == m

/-! ### AVX2 -/

def mask_avx2 (masks : BloomFilterMasks) (hash : M256i) : Comp M256i :=
  SlidingMasks.mask_avx2 masks.masks fullMask logNumberMasks hash

def block_id_avx2 (f : ArrowBloomFilter masks) (hash : M256i) : M256i :=
  let result := mm256_srli_epi64 hash (logNumberMasks + 6)
  mm256_and_si256 result (mm256_set1_epi64x (f.num_blocks - 1))

def insertBatchImpl_avx2 (f : ArrowBloomFilter masks) (hash_array : Array Word) :
    Comp (ArrowBloomFilter masks × Nat) := do
  let loop_count := hash_array.size - hash_array.size % 4
  let bitvector ←
    insertLoop_avx2 (mask_avx2 masks) f.block_id_avx2 hash_array loop_count f.bitvector
  return ({ f with bitvector := bitvector }, loop_count)

def containsBatchImpl_avx2 (f : ArrowBloomFilter masks) (hash_array : Array Word)
    (result : Array Byte) : Comp (Array Byte × Nat) := do
  let loop_count := hash_array.size - hash_array.size % 8
  let result ← probeLoop_avx2 (mask_avx2 masks) f.block_id_avx2 match_avx2 f.bitvector
    hash_array loop_count result
  return (result, loop_count)

/-! ### Batches -/

def insertBatchImpl (f : ArrowBloomFilter masks) (hash_array : Array Word) :
    Comp (ArrowBloomFilter masks) := do
  let (f, processed) ←
    if f.impl_mode = .avx2 then f.insertBatchImpl_avx2 hash_array else .ok (f, 0)
  insertLoop insertImpl hash_array processed f

def containsBatchImpl (f : ArrowBloomFilter masks) (hash_array : Array Word)
    (result : Array Byte) : Comp (Array Byte) := do
  let result ← fillZero result (result_bytes hash_array.size)
  let (result, processed) ←
    if f.impl_mode = .avx2 then f.containsBatchImpl_avx2 hash_array result else .ok (result, 0)
  probeLoop f.containsImpl hash_array processed result

instance : BloomFilter (ArrowBloomFilter masks) where
  insertImpl := insertImpl
  containsImpl := containsImpl
  insertBatchImpl := insertBatchImpl
  containsBatchImpl := containsBatchImpl

/-! ### Specifications -/

/-- The mask of a hash. -/
def maskWord (masks : BloomFilterMasks) : Word → Word :=
  rotatedWord masks.masks fullMask logNumberMasks

theorem mask_eq (hash : Word) : mask masks hash = .ok (maskWord masks hash) := by
  -- The mask id is below `numberMasks`, so the scalar lookup stays in the storage.
  have hid : (hash &&& BitVec.ofNat 64 (numberMasks - 1)).toNat = hash.toNat % 2 ^ logNumberMasks :=
    toNat_and_lowMask (show logNumberMasks < 64 by decide)
  have hlt : hash.toNat % 2 ^ logNumberMasks < numberMasks := Nat.mod_lt _ (by decide)
  rw [mask, hid, masks.mask_eq hlt, ok_bind, shr_ok (by decide), ok_bind]
  exact rotate_left_window hash

theorem block_id_eq (f : ArrowBloomFilter masks) (hash : Word) :
    f.block_id hash = .ok (f.lowBlock hash) := by
  unfold block_id
  rw [shr_ok (by decide)]
  rfl

/-- The vector functions in each lane. -/
theorem lanes (f : ArrowBloomFilter masks) : LaneWise f.num_blocks.toNat (mask_avx2 masks)
    f.block_id_avx2 (maskWord masks) f.lowBlock where
  mask_eq v := SlidingMasks.mask_avx2_eq (by decide) (by decide) v
  block_eq v := by
    apply Vector.ext
    intro i hi
    simp only [block_id_avx2, lane_and, lane_srli, lane_set1, Vector.getElem_map]
    rfl
  block_lt h := f.lowBlock_lt h

theorem insertImpl_eq (f : ArrowBloomFilter masks) (hash : Word) :
    f.insertImpl hash = (fun t => { f with bitvector := t }) <$>
      orBlock f.bitvector (f.lowBlock hash) (maskWord masks hash) := by
  unfold insertImpl
  rw [mask_eq, ok_bind, block_id_eq, ok_bind]
  rfl

/-- The answer to a hash. -/
def answer (f : ArrowBloomFilter masks) (hash : Word) : Bool :=
  getElem f.bitvector (f.lowBlock hash).toNat (f.lowBlock_lt hash) &&& maskWord masks hash ==
    maskWord masks hash

theorem containsImpl_eq (f : ArrowBloomFilter masks) (hash : Word) :
    f.containsImpl hash = .ok (f.answer hash) := by
  unfold containsImpl
  rw [mask_eq, ok_bind, block_id_eq, ok_bind, loadFixed_ok (f.lowBlock_lt hash)]
  rfl

theorem insertBatchImpl_eq (f : ArrowBloomFilter masks) (hash_array : Array Word) :
    f.insertBatchImpl hash_array = insertLoop insertImpl hash_array 0 f := by
  have hinsert : ∀ (t : Vector Word f.num_blocks.toNat) h,
      insertImpl { f with bitvector := t } h = (fun t => { f with bitvector := t }) <$>
        orBlock t (f.lowBlock h) (maskWord masks h) :=
    fun t h => insertImpl_eq { f with bitvector := t } h
  unfold insertBatchImpl
  -- The scalar mode starts the same loop at zero.
  split
  · simp only [insertBatchImpl_avx2, bind_assoc, pure_eq_ok, ok_bind]
    exact insertLoop_avx2_tail f.lanes hinsert hash_array f.bitvector
  · rfl

/-- The vector probe writes the answers to the groups of eight. -/
theorem containsBatchImpl_avx2_eq (f : ArrowBloomFilter masks) {hash_array : Array Word}
    {result : Array Byte} {p : Nat → Bool}
    (hp : ∀ i, (hi : i < hash_array.size) → f.answer hash_array[i] = p i)
    (hsize : (hash_array.size + 7) / 8 ≤ result.size) :
    f.containsBatchImpl_avx2 hash_array result =
      .ok (packBits p (hash_array.size / 8) result, hash_array.size - hash_array.size % 8) := by
  rw [containsBatchImpl_avx2,
    probeLoop_avx2_groups (fun b m => b &&& m == m) f.lanes match_avx2_msb hp hsize, ok_bind]
  rfl

theorem containsBatchImpl_eq (f : ArrowBloomFilter masks) {hash_array : Array Word}
    {result : Array Byte} {p : Nat → Bool}
    (hp : ∀ i, (hi : i < hash_array.size) → f.answer hash_array[i] = p i)
    (hcount : hash_array.size + 7 < 2 ^ 64) (hsize : result_bytes hash_array.size ≤ result.size) :
    f.containsBatchImpl hash_array result =
      .ok (packBits (answers p hash_array.size) (result_bytes hash_array.size) result) := by
  have hbytes : result_bytes hash_array.size = (hash_array.size + 7) / 8 := result_bytes_eq hcount
  have hscalar : ∀ i, (hi : i < hash_array.size) → f.containsImpl hash_array[i] = .ok (p i) :=
    fun i hi => (containsImpl_eq f _).trans (congrArg _ (hp i hi))
  unfold containsBatchImpl
  rw [fillZero_answers hsize, ok_bind]
  -- The vector mode writes the groups of eight; the loop of both modes does the rest.
  split
  · rw [containsBatchImpl_avx2_eq f hp (by simp; omega), ok_bind, packBits_answers (by omega),
      show 8 * (hash_array.size / 8) = hash_array.size - hash_array.size % 8 from by omega]
    exact probeLoop_ok hscalar (by omega) (by omega) hsize
  · exact probeLoop_ok hscalar (Nat.zero_le _) (by omega) hsize

instance : BlockFilter (ArrowBloomFilter masks) where
  toTable f := f.toBlockTable
  put f t := { f with bitvector := t }
  toTable_put _ _ := rfl
  HasMask _ := True
  maskWord := maskWord masks
  blockWord := Geometry.lowBlock
  block_lt := Geometry.lowBlock_lt
  insert_eq f h _ := insertImpl_eq f h
  contains_spec f h _ := ⟨_, containsImpl_eq f h, and_beq_iff _⟩
  insertBatch_eq f hs := (insertBatchImpl_eq f hs).trans (insertLoop_eq_foldlM _ hs f)
  containsBatch_eq f _ _ _ hp hcount hsize := containsBatchImpl_eq f
    (fun i hi => Except.ok.inj ((containsImpl_eq f _).symm.trans (hp i hi))) hcount hsize

end ArrowBloomFilter

end BloomFilters
