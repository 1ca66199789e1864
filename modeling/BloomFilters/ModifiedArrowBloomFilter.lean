import BloomFilters.Blocks

/-! # The modified Arrow filter

    `bloom_filter/ModifiedArrowBloomFilter.{h,cpp}`. The mask of a hash is
    an entry of a table of distinct masks, chosen by the low 11 bits; there
    is no rotation. The block is chosen by the top bits.
-/

open Checked BitArray Words Lanes

namespace BloomFilters

/-! ## The mask table -/

namespace ModifiedBloomFilterMasks

abbrev bitsPerMask : Nat := 5
abbrev logNumberMasks : Nat := 11
abbrev numberMasks : Nat := 1 <<< logNumberMasks
abbrev indexMask : Word := BitVec.ofNat 64 numberMasks - 1

end ModifiedBloomFilterMasks

structure ModifiedBloomFilterMasks where
  masks : Vector Word ModifiedBloomFilterMasks.numberMasks

namespace ModifiedBloomFilterMasks

/-! ### Construction -/

/-- The variables of the inner loop, with the number of generator calls. -/
structure MaskState where
  value : Word
  bits_set : Nat
  calls : Nat

/-- The variables of the outer loop, with the number of generator calls. -/
structure TableState where
  masks : Vector Word numberMasks
  used : Finset Word
  table_index : Nat
  calls : Nat

section construction

variable (rng : Nat → BitVec 32)

def drawBit (s : MaskState) : Comp MaskState := do
  let bit := (rng s.calls &&& 63).toNat
  let bit_mask ← shl 1#64 bit
  if s.value &&& bit_mask = 0 then
    return { value := s.value ||| bit_mask, bits_set := s.bits_set + 1, calls := s.calls + 1 }
  else
    return { s with calls := s.calls + 1 }

/-- `while (bits_set < bitsPerMask)` -/
def drawMask (fuel calls : Nat) : Comp MaskState :=
  whileLoop fuel (fun s => decide (s.bits_set < bitsPerMask)) (drawBit rng)
    { value := 0, bits_set := 0, calls := calls }

def addMask (fuel : Nat) (s : TableState) : Comp TableState := do
  let m ← drawMask rng fuel s.calls
  if m.value ∈ s.used then
    return { s with calls := m.calls }
  else
    return { masks := ← storeFixed s.masks s.table_index m.value
             used := Insert.insert m.value s.used
             table_index := s.table_index + 1
             calls := m.calls }

/-- The constructor; `rng` is the stream of generator outputs, and the fuel
    bounds every `while`. -/
def new (fuel : Nat) : Comp ModifiedBloomFilterMasks := do
  let s ← whileLoop fuel (fun s => decide (s.table_index < numberMasks)) (addMask rng fuel)
    { masks := Vector.replicate _ 0, used := ∅, table_index := 0, calls := 0 }
  return ⟨s.masks⟩

end construction

def mask (t : ModifiedBloomFilterMasks) (hash : Word) : Comp Word :=
  loadFixed t.masks (hash &&& indexMask).toNat

/-! ### The table invariant -/

/-- The first `table_index` entries are distinct masks of `bitsPerMask`
    bits, and they are what has been used. -/
structure Filled (s : TableState) : Prop where
  index_le : s.table_index ≤ numberMasks
  bits : ∀ i, (hi : i < numberMasks) → i < s.table_index → bitCount s.masks[i] = bitsPerMask
  distinct : ∀ i j, (hi : i < numberMasks) → (hj : j < numberMasks) → i < s.table_index →
    j < s.table_index → s.masks[i] = s.masks[j] → i = j
  used : ∀ i, (hi : i < numberMasks) → i < s.table_index → s.masks[i] ∈ s.used

/-- **Step lemma**: a generator output sets one clear bit or none. -/
theorem drawBit_spec {rng : Nat → BitVec 32} {s : MaskState}
    (hcount : bitCount s.value = s.bits_set) :
    Returns (drawBit rng s) fun s' => bitCount s'.value = s'.bits_set ∧
      s'.bits_set ≤ s.bits_set + 1 := by
  have hlt : (rng s.calls &&& 63).toNat < 64 := by
    rw [toNat_and_of_ones (k := 6) rfl]
    exact Nat.mod_lt _ (by decide)
  rw [drawBit, shl_ok (by omega), ok_bind, Int.toNat_natCast,
    show 1#64 <<< (rng s.calls &&& 63).toNat = BitVec.twoPow 64 (rng s.calls &&& 63).toNat from
      (BitVec.twoPow_eq 64 _).symm]
  -- A clear bit is taken and counted, a set one drawn again.
  split
  · next hclear =>
    refine returns_ok ⟨?_, Nat.le_refl _⟩
    rw [bitCount_or_twoPow hlt ((and_twoPow_eq_zero hlt).mp hclear), hcount]
  · exact returns_ok ⟨hcount, Nat.le_succ _⟩

theorem drawMask_spec {rng : Nat → BitVec 32} {fuel calls : Nat} :
    Safe (drawMask rng fuel calls) fun s => bitCount s.value = bitsPerMask := by
  refine (whileLoop_safe (fun s : MaskState =>
    bitCount s.value = s.bits_set ∧ s.bits_set ≤ bitsPerMask) ?_ fuel _ ⟨by simp, by simp⟩).mono ?_
  · intro s h hlt
    obtain ⟨hcount, -⟩ := h
    have hlt : s.bits_set < bitsPerMask := by simpa using hlt
    exact ((drawBit_spec hcount).mono fun s' hs' => ⟨hs'.1, by have := hs'.2; omega⟩).safe
  · intro s hinv
    obtain ⟨⟨hcount, hle⟩, hdone⟩ := hinv
    have hge : ¬ s.bits_set < bitsPerMask := by simpa using hdone
    -- The loop ends at `bitsPerMask` or above, the invariant keeps it at or below.
    omega

/-- **Step lemma**: a round adds one unused mask or changes nothing but the
    number of calls; the write is inside of the table. -/
theorem addMask_spec {rng : Nat → BitVec 32} {fuel : Nat} {s : TableState} (hs : Filled s)
    (hlt : s.table_index < numberMasks) : Safe (addMask rng fuel s) Filled := by
  apply drawMask_spec.bind
  intro m hm
  -- A mask that has been used is thrown away, with all of its bits.
  split
  · exact safe_ok ⟨hs.index_le, hs.bits, hs.distinct, hs.used⟩
  · next hfresh =>
    rw [storeFixed_ok hlt, ok_bind]
    have hold : ∀ i, (hi : i < numberMasks) → i < s.table_index →
        (s.masks.set s.table_index m.value)[i] = s.masks[i] := by
      intro i hi hlt'
      exact Vector.getElem_set_ne hlt hi (by omega)
    have hne : ∀ i, (hi : i < numberMasks) → i < s.table_index → s.masks[i] ≠ m.value := by
      intro i hi hlt' heq
      exact hfresh (heq ▸ hs.used i hi hlt')
    refine safe_ok ⟨hlt, ?_, ?_, ?_⟩
    · intro i hi hle
      rcases Nat.lt_succ_iff_lt_or_eq.mp hle with hlt' | rfl
      · simpa only [hold i hi hlt'] using hs.bits i hi hlt'
      · simpa using hm
    · intro i j hi hj hile hjle heq
      -- Two old entries, an old and the new one, or twice the new one.
      rcases Nat.lt_succ_iff_lt_or_eq.mp hile with hilt | rfl <;>
        rcases Nat.lt_succ_iff_lt_or_eq.mp hjle with hjlt | rfl
      · simp only [hold i hi hilt, hold j hj hjlt] at heq
        exact hs.distinct i j hi hj hilt hjlt heq
      · simp only [hold i hi hilt, Vector.getElem_set_self] at heq
        exact absurd heq (hne i hi hilt)
      · simp only [hold j hj hjlt, Vector.getElem_set_self] at heq
        exact absurd heq.symm (hne j hj hjlt)
      · rfl
    · intro i hi hle
      rcases Nat.lt_succ_iff_lt_or_eq.mp hle with hlt' | rfl
      · simpa only [hold i hi hlt'] using Finset.mem_insert_of_mem (hs.used i hi hlt')
      · simp

/-- **Run lemma**: a finished table holds distinct masks of `bitsPerMask` bits. -/
theorem new_spec {rng : Nat → BitVec 32} {fuel : Nat} :
    Safe (new rng fuel) fun t =>
      (∀ i, (hi : i < numberMasks) → bitCount t.masks[i] = bitsPerMask) ∧
      ∀ i j, (hi : i < numberMasks) → (hj : j < numberMasks) → t.masks[i] = t.masks[j] → i = j := by
  refine (whileLoop_safe Filled (fun s hs hlt => addMask_spec hs (by simpa using hlt)) fuel _
    ⟨Nat.zero_le _, ?_, ?_, ?_⟩).bind ?_
  · intro i _ hlt
    exact absurd hlt (Nat.not_lt_zero i)
  · intro i _ _ _ hlt
    exact absurd hlt (Nat.not_lt_zero i)
  · intro i _ hlt
    exact absurd hlt (Nat.not_lt_zero i)
  · intro s h
    obtain ⟨hs, hdone⟩ := h
    -- The loop ends with a full table, and there the invariant is the statement.
    have hfull : s.table_index = numberMasks := by
      have hge : ¬ s.table_index < numberMasks := by simpa using hdone
      have := hs.index_le
      omega
    exact safe_ok ⟨fun i hi => hs.bits i hi (by omega),
      fun i j hi hj heq => hs.distinct i j hi hj (by omega) (by omega) heq⟩

/-! ### Lookup -/

/-- The entry of the table for a hash: its low 11 bits are the index. -/
def maskWord (t : ModifiedBloomFilterMasks) (hash : Word) : Word :=
  getElem t.masks (hash.toNat % 2 ^ logNumberMasks) (Nat.mod_lt _ (Nat.two_pow_pos _))

theorem toNat_and_indexMask (hash : Word) :
    (hash &&& indexMask).toNat = hash.toNat % 2 ^ logNumberMasks :=
  toNat_and_lowMask (show logNumberMasks < 64 by decide)

theorem mask_eq (t : ModifiedBloomFilterMasks) (hash : Word) :
    t.mask hash = .ok (t.maskWord hash) := by
  have hlt : hash.toNat % 2 ^ logNumberMasks < numberMasks := Nat.mod_lt _ (Nat.two_pow_pos _)
  unfold mask
  rw [toNat_and_indexMask, loadFixed_ok hlt]
  rfl

end ModifiedBloomFilterMasks

/-! ## Operations -/

structure ModifiedArrowBloomFilter (masks : ModifiedBloomFilterMasks) extends BlockTable where
  block_shift : Int
  impl_mode : ImplMode
  block_shift_eq : block_shift = 64 - log_num_blocks

namespace ModifiedArrowBloomFilter

open ModifiedBloomFilterMasks (indexMask)

abbrev bitsPerKey : Word := 8
abbrev min_num_bits : Word := 512

/-- `std::max(min_num_bits, rows_to_insert * bitsPerKey)`; the product wraps. -/
def desired_num_bits (rows_to_insert : Word) : Word :=
  std_max min_num_bits (rows_to_insert * bitsPerKey)

theorem le_desired_num_bits (rows_to_insert : Word) :
    512 ≤ (desired_num_bits rows_to_insert).toNat :=
  le_std_max_left min_num_bits (rows_to_insert * bitsPerKey)

variable {masks : ModifiedBloomFilterMasks}

/-- The constructor; `mode` defaults to `scalar`. -/
def new (masks : ModifiedBloomFilterMasks) (rows_to_insert : Word) (mode : ImplMode) :
    ModifiedArrowBloomFilter masks :=
  let g := Geometry.ofDesired _ (le_desired_num_bits rows_to_insert)
  { toBlockTable := .ofGeometry g
    block_shift := 64 - g.log_num_blocks
    impl_mode := mode
    block_shift_eq := rfl }

def mask (masks : ModifiedBloomFilterMasks) (hash : Word) : Comp Word := masks.mask hash

def block_id (f : ModifiedArrowBloomFilter masks) (hash : Word) : Comp Word :=
  shr hash f.block_shift

def insertImpl (f : ModifiedArrowBloomFilter masks) (hash : Word) :
    Comp (ModifiedArrowBloomFilter masks) := do
  let m ← mask masks hash
  return { f with bitvector := ← orBlock f.bitvector (← f.block_id hash) m }

def containsImpl (f : ModifiedArrowBloomFilter masks) (hash : Word) : Comp Bool := do
  let m ← mask masks hash
  let b ← loadFixed f.bitvector (← f.block_id hash).toNat
  return m &&& ~~~b == 0

/-! ### AVX2 -/

def mask_avx2 (masks : ModifiedBloomFilterMasks) (hash : M256i) : Comp M256i :=
  let indices := mm256_and_si256 hash (mm256_set1_epi64x indexMask)
  mm256_i64gather_epi64 (fun index => loadFixed masks.masks index.toNat) indices

def block_id_avx2 (f : ModifiedArrowBloomFilter masks) (hash : M256i) : M256i :=
  mm256_srlv_epi64 hash (mm256_set1_epi64x (BitVec.ofInt 64 f.block_shift))

def containsBatchImpl_avx2 (f : ModifiedArrowBloomFilter masks) (hash_array : Array Word)
    (result : Array Byte) : Comp (Array Byte × Nat) := do
  let loop_count := hash_array.size - hash_array.size % 8
  let result ← probeLoop_avx2 (mask_avx2 masks) f.block_id_avx2 missing_avx2 f.bitvector
    hash_array loop_count result
  return (result, loop_count)

/-! ### Batches -/

def insertBatchImpl (f : ModifiedArrowBloomFilter masks) (hash_array : Array Word) :
    Comp (ModifiedArrowBloomFilter masks) :=
  insertLoop insertImpl hash_array 0 f

/-- One byte of answers: `for (i = first; i < last; i++)
    packed |= static_cast<std::uint8_t>(containsImpl(hash_array[i])) << (i - first);` -/
def packByte (f : ModifiedArrowBloomFilter masks) (hash_array : Array Word) (first last : Nat) :
    Comp Byte :=
  forLoop first last 1 (fun i packed => do
    let found ← f.containsImpl (← load hash_array i)
    let bit ← shl (BitVec.ofNat 32 found.toNat) (i - first : Nat)
    return packed ||| bit.setWidth 8) 0

def containsBatchImpl (f : ModifiedArrowBloomFilter masks) (hash_array : Array Word)
    (result : Array Byte) : Comp (Array Byte) := do
  if f.impl_mode = .avx2 then
    let (result, processed) ← f.containsBatchImpl_avx2 hash_array result
    if processed = hash_array.size then
      return result
    else
      let output_byte := processed >>> 3
      let packed ← f.packByte hash_array processed hash_array.size
      store result output_byte packed
  else
    let output_bytes := ((hash_array.size + 7) % 2 ^ 64) >>> 3
    forLoop 0 output_bytes 1 (fun byte result => do
      let first := byte <<< 3
      let last := min (first + 8) hash_array.size
      let packed ← f.packByte hash_array first last
      store result byte packed) result

instance : BloomFilter (ModifiedArrowBloomFilter masks) where
  insertImpl := insertImpl
  containsImpl := containsImpl
  insertBatchImpl := insertBatchImpl
  containsBatchImpl := containsBatchImpl

/-! ### Specifications -/

theorem mask_eq (hash : Word) : mask masks hash = .ok (masks.maskWord hash) := masks.mask_eq hash

theorem block_id_eq (f : ModifiedArrowBloomFilter masks) (hash : Word) :
    f.block_id hash = .ok (f.topBlock hash) := by
  unfold block_id
  rw [f.block_shift_eq, f.shr_topBlock]

theorem mask_avx2_eq (v : M256i) : mask_avx2 masks v = .ok (v.map masks.maskWord) := by
  unfold mask_avx2
  rw [gather_ok (g := fun index => masks.maskWord index)]
  · apply congrArg Except.ok
    apply Vector.ext
    intro i hi
    simp only [Vector.getElem_map, lane_and, lane_set1, ModifiedBloomFilterMasks.maskWord,
      ModifiedBloomFilterMasks.toNat_and_indexMask, Nat.mod_mod]
  · intro i hi
    -- The index is masked already; masking it again changes nothing.
    rw [← masks.mask_eq, ModifiedBloomFilterMasks.mask, lane_and, lane_set1, BitVec.and_assoc,
      BitVec.and_self]

/-- The vector functions in each lane. -/
theorem lanes (f : ModifiedArrowBloomFilter masks) : LaneWise f.num_blocks.toNat (mask_avx2 masks)
    f.block_id_avx2 masks.maskWord f.topBlock where
  mask_eq := mask_avx2_eq
  block_eq v := by
    unfold block_id_avx2
    rw [f.block_shift_eq]
    exact f.srlv_topBlock v
  block_lt h := f.topBlock_lt h

theorem insertImpl_eq (f : ModifiedArrowBloomFilter masks) (hash : Word) :
    f.insertImpl hash = (fun t => { f with bitvector := t }) <$>
      orBlock f.bitvector (f.topBlock hash) (masks.maskWord hash) := by
  unfold insertImpl
  rw [mask_eq, ok_bind, block_id_eq, ok_bind]
  rfl

/-- The answer to a hash. -/
def answer (f : ModifiedArrowBloomFilter masks) (hash : Word) : Bool :=
  masks.maskWord hash &&& ~~~getElem f.bitvector (f.topBlock hash).toNat (f.topBlock_lt hash) == 0

theorem containsImpl_eq (f : ModifiedArrowBloomFilter masks) (hash : Word) :
    f.containsImpl hash = .ok (f.answer hash) := by
  unfold containsImpl
  rw [mask_eq, ok_bind, block_id_eq, ok_bind, loadFixed_ok (f.topBlock_lt hash)]
  rfl

/-- A boolean shifted to bit `d` of a byte. -/
private theorem getLsbD_shifted {d k : Nat} (b : Bool) (hd : d < 8) (hk : k < 8) :
    ((BitVec.ofNat 32 b.toNat <<< (d : Int).toNat).setWidth 8).getLsbD k =
      (decide (k = d) && b) := by
  -- Two booleans and sixty-four pairs of positions.
  have hall : ∀ (b : Bool) (d k : Fin 8),
      ((BitVec.ofNat 32 b.toNat <<< d.val).setWidth 8).getLsbD k =
        (decide (k.val = d.val) && b) := by
    decide
  exact hall b ⟨d, hd⟩ ⟨k, hk⟩

/-- One byte of answers, the padding bits clear. -/
theorem packByte_ok (f : ModifiedArrowBloomFilter masks) {hash_array : Array Word}
    {p : Nat → Bool} (hp : ∀ i, (hi : i < hash_array.size) → f.answer hash_array[i] = p i)
    {first last : Nat} (hle : first ≤ last) (hlast : last ≤ first + 8)
    (hsize : last ≤ hash_array.size) :
    Returns (f.packByte hash_array first last) fun packed =>
      ∀ k, k < 8 → packed.getLsbD k = answers p last (first + k) := by
  -- After hash `i` the bits below `i - first` are the answers, the others are clear.
  apply forLoop_returns (fun i (packed : Byte) =>
    ∀ k, k < 8 → packed.getLsbD k = answers p i (first + k)) Nat.one_pos hle (Nat.one_dvd _)
    (fun k _ => by simp [answers])
  intro i packed hlo hhi _ hbits
  rw [load_ok (by omega), ok_bind, containsImpl_eq, ok_bind, hp i (by omega), shl_ok (by omega),
    ok_bind]
  apply returns_ok
  intro k hk
  rw [BitVec.getLsbD_or, hbits k hk, getLsbD_shifted _ (by omega) hk, answers_succ]
  have heq : (k = i - first) ↔ (first + k = i) := by omega
  -- A positive answer sets bit `i - first`, a negative one leaves the byte alone.
  by_cases hpi : p i = true
  · simp [hpi, heq, Bool.or_comm]
  · simp [hpi]

/-- The vector probe writes the answers to the groups of eight. -/
theorem containsBatchImpl_avx2_eq (f : ModifiedArrowBloomFilter masks) {hash_array : Array Word}
    {result : Array Byte} {p : Nat → Bool}
    (hp : ∀ i, (hi : i < hash_array.size) → f.answer hash_array[i] = p i)
    (hsize : (hash_array.size + 7) / 8 ≤ result.size) :
    f.containsBatchImpl_avx2 hash_array result =
      .ok (packBits p (hash_array.size / 8) result, hash_array.size - hash_array.size % 8) := by
  rw [containsBatchImpl_avx2,
    probeLoop_avx2_groups (fun b m => m &&& ~~~b == 0) f.lanes missing_avx2_msb hp hsize, ok_bind]
  rfl

/-- The vector mode: whole bytes by groups of eight, and one byte of tail. -/
theorem containsBatchImpl_of_avx2 (f : ModifiedArrowBloomFilter masks)
    (hmode : f.impl_mode = .avx2) {hash_array : Array Word} {result : Array Byte} {p : Nat → Bool}
    (hp : ∀ i, (hi : i < hash_array.size) → f.answer hash_array[i] = p i)
    (hsize : (hash_array.size + 7) / 8 ≤ result.size) :
    f.containsBatchImpl hash_array result =
      .ok (packBits (answers p hash_array.size) ((hash_array.size + 7) / 8) result) := by
  unfold containsBatchImpl
  rw [if_pos hmode, containsBatchImpl_avx2_eq f hp hsize, ok_bind,
    packBits_eq_answers (show 8 * (hash_array.size / 8) ≤ hash_array.size by omega)]
  simp only
  split
  · next hdone => rw [show (hash_array.size + 7) / 8 = hash_array.size / 8 from by omega]; rfl
  · next htail =>
    have hbytes : (hash_array.size + 7) / 8 = hash_array.size / 8 + 1 := by omega
    -- The last byte is packed in a variable and stored once.
    obtain ⟨packed, hpacked, hbits⟩ := f.packByte_ok hp
      (show hash_array.size - hash_array.size % 8 ≤ hash_array.size from by omega) (by omega)
      (Nat.le_refl _)
    rw [hpacked, ok_bind, groups_shiftRight, store_ok (by simp; omega), hbytes]
    apply congrArg Except.ok
    apply set_packBits (by omega)
    intro k hk
    rw [hbits k hk, show hash_array.size - hash_array.size % 8 = 8 * (hash_array.size / 8) from
      by omega]

/-- The scalar mode: one byte after the other, none before it is complete. -/
theorem containsBatchImpl_of_scalar (f : ModifiedArrowBloomFilter masks)
    (hmode : f.impl_mode ≠ .avx2) {hash_array : Array Word} {result : Array Byte} {p : Nat → Bool}
    (hp : ∀ i, (hi : i < hash_array.size) → f.answer hash_array[i] = p i)
    (hsize : result_bytes hash_array.size ≤ result.size) :
    f.containsBatchImpl hash_array result =
      .ok (packBits (answers p hash_array.size) (result_bytes hash_array.size) result) := by
  have houtput : ((hash_array.size + 7) % 2 ^ 64) >>> 3 = result_bytes hash_array.size := by
    rw [Nat.shiftRight_eq_div_pow, result_bytes]
  have hbelow := result_bytes_le hash_array.size
  unfold containsBatchImpl
  rw [if_neg hmode, houtput]
  apply forLoop_eq_ok (fun byte => packBits (answers p hash_array.size) byte result) Nat.one_pos
    (Nat.zero_le _) (Nat.one_dvd _) (packBits_zero _ _).symm
  intro byte _ hbyte _
  have hfirst : byte <<< 3 = 8 * byte := by rw [Nat.shiftLeft_eq, Nat.mul_comm]
  obtain ⟨packed, hpacked, hbits⟩ := f.packByte_ok hp
    (show 8 * byte ≤ min (8 * byte + 8) hash_array.size from by omega)
    (Nat.min_le_left _ _) (Nat.min_le_right _ _)
  simp only [hfirst, hpacked, ok_bind]
  rw [store_ok (by simp; omega)]
  apply congrArg Except.ok
  apply set_packBits (by omega)
  intro k hk
  rw [hbits k hk]
  -- Inside of the byte, the end of the byte and the end of the batch agree.
  have hiff : 8 * byte + k < min (8 * byte + 8) hash_array.size ↔
      8 * byte + k < hash_array.size := by
    omega
  simp only [answers, hiff]

theorem containsBatchImpl_eq (f : ModifiedArrowBloomFilter masks) {hash_array : Array Word}
    {result : Array Byte} {p : Nat → Bool}
    (hp : ∀ i, (hi : i < hash_array.size) → f.answer hash_array[i] = p i)
    (hcount : hash_array.size + 7 < 2 ^ 64) (hsize : result_bytes hash_array.size ≤ result.size) :
    f.containsBatchImpl hash_array result =
      .ok (packBits (answers p hash_array.size) (result_bytes hash_array.size) result) := by
  by_cases hmode : f.impl_mode = .avx2
  · rw [result_bytes_eq hcount] at hsize ⊢
    exact containsBatchImpl_of_avx2 f hmode hp hsize
  · exact containsBatchImpl_of_scalar f hmode hp hsize

instance : BlockFilter (ModifiedArrowBloomFilter masks) where
  toTable f := f.toBlockTable
  put f t := { f with bitvector := t }
  toTable_put _ _ := rfl
  HasMask _ := True
  maskWord := masks.maskWord
  blockWord := Geometry.topBlock
  block_lt := Geometry.topBlock_lt
  insert_eq f h _ := insertImpl_eq f h
  contains_spec f h _ := ⟨_, containsImpl_eq f h, and_not_beq_iff _⟩
  insertBatch_eq f hs := insertLoop_eq_foldlM insertImpl hs f
  containsBatch_eq f _ _ _ hp hcount hsize := containsBatchImpl_eq f
    (fun i hi => Except.ok.inj ((containsImpl_eq f _).symm.trans (hp i hi))) hcount hsize

end ModifiedArrowBloomFilter

end BloomFilters
