import BloomFilters.BasicBloomFilter
import BloomFilters.BlockedBloomFilter
import BloomFilters.ArrowBloomFilter
import BloomFilters.ImprovedArrowFilter
import BloomFilters.ModifiedArrowBloomFilter

/-! # Index and shift safety of the filters

    Every array access and every scalar shift of the model is checked, so a
    computation that is `Safe` has no access outside of its object and no
    undefined shift. This module has that for all operations of the four
    block filters, and exactly when the basic filter has it:

    * **Scalar operations**: the block index is inside of the table.
    * **Batches**: of any length, over a result buffer that has just the
      bytes for the answers; an access to any other byte would be a fault.
    * **Lanes**: of any vector.
    * **The basic filter**: safe for all sizes but zero bits and the few
      whose byte count wraps around.
-/

open Checked BitArray Words Lanes

namespace BloomFilters

/-! ## Statements -/

/-- No operation of `f` commits a fault. -/
structure InBounds {Impl : Type} [BloomFilter Impl] (f : Impl) (t : BlockTable)
    (mask block_id : Word → Comp Word) : Prop where
  log_range : 3 ≤ t.log_num_blocks ∧ t.log_num_blocks ≤ 58
  /-- `1ULL << log_num_blocks` -/
  shift_ok : shl 1#64 t.log_num_blocks = .ok t.num_blocks
  block_lt : ∀ h, Returns (block_id h) fun b => b.toNat < t.bitvector.toArray.size
  mask_safe : ∀ h, Safe (mask h) fun _ => True
  insert_safe : ∀ h, Safe (insert f h) fun _ => True
  contains_safe : ∀ h, Safe (contains f h) fun _ => True
  insertBatch_safe : ∀ hash_array, Safe (insertBatch f hash_array) fun _ => True
  containsBatch_safe : ∀ hash_array result, result.size = (hash_array.size + 7) / 8 →
    Safe (containsBatch f hash_array result) fun r => r.size = result.size

/-- No lane leaves the mask table or the blocks. -/
structure LanesInBounds (t : BlockTable) (mask_avx2 : M256i → Comp M256i)
    (block_id_avx2 : M256i → M256i) : Prop where
  block_lt : ∀ v k, (hk : k < 4) → (block_id_avx2 v)[k].toNat < t.bitvector.toArray.size
  mask_returns : ∀ v, Returns (mask_avx2 v) fun _ => True

theorem LaneWise.inBounds {t : BlockTable} {mask_avx2 : M256i → Comp M256i}
    {block_id_avx2 : M256i → M256i} {maskWord blockWord : Word → Word}
    (lanes : LaneWise t.num_blocks.toNat mask_avx2 block_id_avx2 maskWord blockWord) :
    LanesInBounds t mask_avx2 block_id_avx2 where
  block_lt v k hk := by
    simp only [lanes.block_eq, Vector.getElem_map, Vector.size_toArray]
    exact lanes.block_lt _
  mask_returns v := ⟨_, lanes.mask_eq v, trivial⟩

/-! ## Loops -/

theorem insertLoop_safe {σ : Type} {insertImpl : σ → Word → Comp σ}
    (hinsert : ∀ f h, Safe (insertImpl f h) fun _ => True) (hash_array : Array Word) (f : σ) :
    Safe (insertLoop insertImpl hash_array 0 f) fun _ => True := by
  apply forLoop_safe (fun _ _ => True) (Nat.zero_le _) trivial
  intro i f _ hi _
  rw [load_ok hi, ok_bind]
  exact hinsert f _

theorem fillAndProbe_safe {containsImpl : Word → Comp Bool} {hash_array : Array Word}
    {result : Array Byte} (hcontains : ∀ h, Safe (containsImpl h) fun _ => True)
    (hsize : result.size = (hash_array.size + 7) / 8) :
    Safe (fillAndProbe containsImpl hash_array result) fun r => r.size = result.size := by
  have hbytes := result_bytes_le hash_array.size
  unfold fillAndProbe
  rw [fillZero_ok (by omega), ok_bind]
  apply (probeLoop_safe hcontains (Nat.zero_le _) (by simp; omega)).mono
  intro r hr
  rw [hr, size_packBits]

/-! ## One class at a time -/

section blocks

variable {Impl : Type} [BloomFilter Impl] [BlockFilter Impl] {f : Impl}
         {mask block_id : Word → Comp Word}

open BlockFilter

theorem inBounds_of_safe (hmask : ∀ h, Safe (mask h) fun _ => True)
    (hblock : ∀ h, block_id h = .ok (blockWord Impl (toTable f).toGeometry h))
    (hinsert : ∀ (f : Impl) h, Safe (insert f h) fun _ => True)
    (hcontains : ∀ h, Safe (contains f h) fun _ => True)
    (hbatch : ∀ hash_array result, result.size = (hash_array.size + 7) / 8 →
      Safe (containsBatch f hash_array result) fun r => r.size = result.size) :
    InBounds f (toTable f) mask block_id where
  log_range := ⟨(toTable f).log_ge, (toTable f).log_le⟩
  shift_ok := (toTable f).shl_log_num_blocks
  block_lt h := ⟨_, hblock h, by simpa using block_lt (toTable f).toGeometry h⟩
  mask_safe := hmask
  insert_safe := hinsert f
  contains_safe := hcontains
  insertBatch_safe hash_array := by
    rw [insertBatch_eq, ← insertLoop_eq_foldlM]
    exact insertLoop_safe hinsert hash_array f
  containsBatch_safe := hbatch

/-- A filter whose `mask` returns on every hash owes only its batch probe. -/
theorem inBounds_of_total (hall : ∀ h, HasMask Impl h) (hmask : ∀ h, mask h = .ok (maskWord Impl h))
    (hblock : ∀ h, block_id h = .ok (blockWord Impl (toTable f).toGeometry h))
    (hbatch : ∀ hash_array result, result.size = (hash_array.size + 7) / 8 →
      Safe (containsBatch f hash_array result) fun r => r.size = result.size) :
    InBounds f (toTable f) mask block_id := by
  refine inBounds_of_safe (fun h => ?_) hblock (fun f h => ?_) (fun h => ?_) hbatch
  · rw [hmask]
    exact safe_ok trivial
  · exact ((insert_spec f h (hall h)).mono fun _ _ => trivial).safe
  · exact ((contains_spec f h (hall h)).mono fun _ _ => trivial).safe

end blocks

theorem inBounds_blocked (f : BlockedBloomFilter) :
    InBounds f f.toBlockTable BlockedBloomFilter.mask f.block_id := by
  have hmask : ∀ h, Safe (BlockedBloomFilter.mask h) fun _ => True :=
    fun h => (BlockedBloomFilter.mask_safe h).mono fun _ _ => trivial
  -- `mask` may run forever, but what follows it stays in the table.
  have hcontains : ∀ h, Safe (f.containsImpl h) fun _ => True := by
    intro h
    apply (hmask h).bind
    intro m _
    rw [f.block_id_eq, ok_bind, loadFixed_ok (f.topBlock_lt h)]
    exact safe_ok trivial
  refine inBounds_of_safe hmask f.block_id_eq (fun f h => ?_) hcontains
    fun hash_array result hsize => fillAndProbe_safe hcontains hsize
  apply (hmask h).bind
  intro m _
  rw [f.block_id_eq, ok_bind]
  exact ((orBlock_ok f.bitvector m (f.topBlock_lt h)).safe).bind fun t _ => safe_ok trivial

theorem inBounds_arrow {masks : BloomFilterMasks} (f : ArrowBloomFilter masks) :
    InBounds f f.toBlockTable (ArrowBloomFilter.mask masks) f.block_id := by
  apply inBounds_of_total (fun _ => trivial) ArrowBloomFilter.mask_eq f.block_id_eq
  intro hash_array result hsize
  have hcontains : ∀ h, Safe (f.containsImpl h) fun _ => True := by
    intro h
    rw [f.containsImpl_eq]
    exact safe_ok trivial
  have hbytes := result_bytes_le hash_array.size
  show Safe (f.containsBatchImpl hash_array result) _
  unfold ArrowBloomFilter.containsBatchImpl
  rw [fillZero_ok (by omega), ok_bind]
  split
  · -- Past the end of the batch the answers do not matter; there `getD` fills in.
    rw [f.containsBatchImpl_avx2_eq (p := fun i => f.answer (hash_array.getD i 0))
      (fun i hi => by simp [hi]) (by simp; omega), ok_bind]
    apply (probeLoop_safe hcontains (by omega) (by simp; omega)).mono
    intro r hr
    simpa using hr
  · apply (probeLoop_safe hcontains (Nat.zero_le _) (by simp; omega)).mono
    intro r hr
    simpa using hr

theorem inBounds_improved {masks : ImprovedBloomFilterMasks} (f : ImprovedArrowBloomFilter masks) :
    InBounds f f.toBlockTable (ImprovedArrowBloomFilter.mask masks) f.block_id := by
  apply inBounds_of_total (fun _ => trivial) ImprovedArrowBloomFilter.mask_eq f.block_id_eq
  intro hash_array result hsize
  show Safe (f.containsBatchImpl hash_array result) _
  by_cases hmode : f.impl_mode = .avx2
  · rw [f.containsBatchImpl_of_avx2 hmode (p := fun i => f.answer (hash_array.getD i 0))
      (fun i hi => by simp [hi]) hsize.ge]
    exact safe_ok (size_packBits _ _ _)
  · unfold ImprovedArrowBloomFilter.containsBatchImpl
    rw [if_neg hmode]
    apply fillAndProbe_safe _ hsize
    intro h
    rw [f.containsImpl_eq]
    exact safe_ok trivial

theorem inBounds_modified {masks : ModifiedBloomFilterMasks} (f : ModifiedArrowBloomFilter masks) :
    InBounds f f.toBlockTable (ModifiedArrowBloomFilter.mask masks) f.block_id := by
  apply inBounds_of_total (fun _ => trivial) ModifiedArrowBloomFilter.mask_eq f.block_id_eq
  intro hash_array result hsize
  have hbytes := result_bytes_le hash_array.size
  have hanswer : ∀ i, (hi : i < hash_array.size) →
      f.answer hash_array[i] = f.answer (hash_array.getD i 0) := fun i hi => by simp [hi]
  show Safe (f.containsBatchImpl hash_array result) _
  by_cases hmode : f.impl_mode = .avx2
  · rw [f.containsBatchImpl_of_avx2 hmode hanswer hsize.ge]
    exact safe_ok (size_packBits _ _ _)
  · rw [f.containsBatchImpl_of_scalar hmode hanswer (by omega)]
    exact safe_ok (size_packBits _ _ _)

/-! ## Block filters -/

/-- **Index and shift safety** of every object of the four classes, whatever
    was inserted into it. -/
theorem block_filters_in_bounds :
    (∀ rows_to_insert, -2 ^ 63 ≤ BlockedBloomFilter.product rows_to_insert →
      BlockedBloomFilter.product rows_to_insert < 2 ^ 63 →
      Returns (BlockedBloomFilter.new rows_to_insert) fun f =>
        f.log_num_blocks = ceil_log2 (BitVec.ofInt 64
          (max BlockedBloomFilter.min_num_bits (BlockedBloomFilter.product rows_to_insert))) - 6) ∧
    (∀ f : BlockedBloomFilter, InBounds f f.toBlockTable BlockedBloomFilter.mask f.block_id) ∧
    (∀ masks, ∀ f : ArrowBloomFilter masks,
      InBounds f f.toBlockTable (ArrowBloomFilter.mask masks) f.block_id ∧
      LanesInBounds f.toBlockTable (ArrowBloomFilter.mask_avx2 masks) f.block_id_avx2) ∧
    (∀ masks, ∀ f : ImprovedArrowBloomFilter masks,
      InBounds f f.toBlockTable (ImprovedArrowBloomFilter.mask masks) f.block_id ∧
      LanesInBounds f.toBlockTable (ImprovedArrowBloomFilter.mask_avx2 masks) f.block_id_avx2) ∧
    (∀ masks, ∀ f : ModifiedArrowBloomFilter masks,
      InBounds f f.toBlockTable (ModifiedArrowBloomFilter.mask masks) f.block_id ∧
      LanesInBounds f.toBlockTable (ModifiedArrowBloomFilter.mask_avx2 masks) f.block_id_avx2) := by
  exact ⟨fun rows => BlockedBloomFilter.new_returns, inBounds_blocked,
    fun masks f => ⟨inBounds_arrow f, f.lanes.inBounds⟩,
    fun masks f => ⟨inBounds_improved f, f.lanes.inBounds⟩,
    fun masks f => ⟨inBounds_modified f, f.lanes.inBounds⟩⟩

/-- The blocked filter for one row is constructed. -/
theorem block_filters_in_bounds_small :
    Returns (BlockedBloomFilter.new 1) fun f => f.log_num_blocks = ceil_log2 (BitVec.ofInt 64
      (max BlockedBloomFilter.min_num_bits (BlockedBloomFilter.product 1))) - 6 :=
  block_filters_in_bounds.1 1 (by decide) (by decide)

/-! ## The basic filter -/

section basic

open BasicBloomFilter

/-- The largest sizes leave the filter without any byte. -/
theorem bytes_eq_zero {num_bits : Word} (h : 2 ^ 64 - 8 < num_bits.toNat) :
    ((num_bits + 7) / 8).toNat = 0 := by
  have hlt := num_bits.isLt
  have hadd : (num_bits + 7).toNat = num_bits.toNat + 7 - 2 ^ 64 := by
    rw [BitVec.toNat_add]
    show (num_bits.toNat + 7) % 2 ^ 64 = _
    omega
  -- `num_bits + 7` wraps around to less than a byte.
  rw [BitVec.toNat_udiv, hadd]
  show (num_bits.toNat + 7 - 2 ^ 64) / 8 = 0
  omega

/-- Outside of the admissible sizes already the first probe is a fault: the
    remainder is by zero, or there is no byte to touch. -/
theorem probe_faults {α : Type} {num_bits : Word} (hbad : ¬ Sized num_bits) (hash : Word) (i : Nat)
    {touch : Word → Comp α}
    (htouch : ((num_bits + 7) / 8).toNat = 0 → ∀ idx, touch idx = .error .bounds) :
    ∃ e, e ≠ .diverges ∧ (generate_bit hash i num_bits >>= touch) = .error e := by
  -- No bits: `%` faults. Too many: the byte is missing.
  by_cases hzero : num_bits = 0
  · refine ⟨.divZero, by decide, ?_⟩
    unfold generate_bit
    rw [if_pos hzero]
    rfl
  · have hpos : 0 < num_bits.toNat := by
      have hne : num_bits.toNat ≠ 0 := fun h => hzero (BitVec.eq_of_toNat_eq h)
      omega
    have hlarge : 2 ^ 64 - 8 < num_bits.toNat := by
      by_contra hle
      exact hbad ⟨hpos, Nat.not_lt.mp hle⟩
    obtain ⟨idx, hidx, -⟩ := generate_bit_eq hash i hpos
    refine ⟨.bounds, by decide, ?_⟩
    rw [hidx, ok_bind, htouch (bytes_eq_zero hlarge)]

theorem loadFixed_empty {α : Type} {n : Nat} (hn : n = 0) (a : Vector α n) (i : Nat) :
    loadFixed a i = .error .bounds := by
  unfold loadFixed
  rw [dif_neg (by omega)]

/-- An operation whose first probe can end it with a fault. -/
theorem probes_safe_iff {α β : Type} {f : BasicBloomFilter} {hash : Word} {c : Comp β}
    (touch : Word → Comp α)
    (htouch : ((f.num_bits + 7) / 8).toNat = 0 → ∀ idx, touch idx = .error .bounds)
    (hfirst : ∀ e, 0 < f.num_hashes.toNat →
      (generate_bit hash 0 f.num_bits >>= touch) = .error e → c = .error e)
    (hnone : f.num_hashes = 0 → Safe c fun _ => True)
    (hsized : Sized f.num_bits → Safe c fun _ => True) :
    Safe c (fun _ => True) ↔ f.num_hashes = 0 ∨ Sized f.num_bits := by
  constructor
  · intro hsafe
    by_contra hnot
    obtain ⟨hhashes, hbad⟩ := not_or.mp hnot
    have hpos : 0 < f.num_hashes.toNat :=
      Nat.pos_of_ne_zero fun h => hhashes (BitVec.eq_of_toNat_eq h)
    obtain ⟨e, he, hround⟩ := probe_faults hbad hash 0 htouch
    exact not_safe_of_fault (hfirst e hpos hround) he hsafe
  · intro hok
    rcases hok with hzero | hsize
    · exact hnone hzero
    · exact hsized hsize

theorem basic_insert_safe_iff (f : BasicBloomFilter) (hash : Word) :
    Safe (insert f hash) (fun _ => True) ↔ f.num_hashes = 0 ∨ Sized f.num_bits := by
  show Safe (f.insertImpl hash) _ ↔ _
  apply probes_safe_iff fun idx => f.setBit idx.toNat
  · intro hbytes idx
    unfold BasicBloomFilter.setBit orBitAt
    rw [loadFixed_empty hbytes]
    rfl
  · intro e hpos hround
    unfold insertImpl
    rw [forLoop_step Nat.one_pos hpos, hround]
    rfl
  · intro hzero
    unfold insertImpl
    rw [forLoop_done (by rw [hzero]; decide)]
    exact safe_ok trivial
  · intro hsized
    exact ((insertImpl_spec hsized).mono fun _ _ => trivial).safe

theorem basic_contains_safe_iff (f : BasicBloomFilter) (hash : Word) :
    Safe (contains f hash) (fun _ => True) ↔ f.num_hashes = 0 ∨ Sized f.num_bits := by
  show Safe (f.containsImpl hash) _ ↔ _
  apply probes_safe_iff fun idx => f.getBit idx.toNat
  · intro hbytes idx
    unfold BasicBloomFilter.getBit testBitAt
    rw [loadFixed_empty hbytes]
    rfl
  · intro e hpos hround
    obtain ⟨n, hn⟩ := Nat.exists_eq_succ_of_ne_zero hpos.ne'
    unfold containsImpl
    rw [hn, allLoop, hround]
    rfl
  · intro hzero
    unfold containsImpl
    rw [hzero]
    exact safe_ok trivial
  · intro hsized
    exact ((containsImpl_spec hsized).mono fun _ _ => trivial).safe

/-- The sizes that `calculate_arrow_equivalent_bits` computes are admissible
    unless it wraps to zero. -/
theorem sized_calculate_iff (rows_to_insert bits_per_key min_num_bits : Word) :
    Sized (calculate_arrow_equivalent_bits rows_to_insert bits_per_key min_num_bits) ↔
      1 ≤ (std_max min_num_bits (rows_to_insert * bits_per_key)).toNat ∧
        (std_max min_num_bits (rows_to_insert * bits_per_key)).toNat ≤ 2 ^ 63 := by
  constructor
  · intro hsized
    -- Outside of the range the rounding wraps to zero, which is not admissible.
    by_contra hnot
    have hzero : (calculate_arrow_equivalent_bits rows_to_insert bits_per_key
        min_num_bits).toNat = 0 := calculate_arrow_equivalent_bits_wraps (by omega)
    have hpos := hsized.1
    omega
  · intro hrange
    have hlog : ceil_log2 (std_max min_num_bits (rows_to_insert * bits_per_key)) ≤ 63 :=
      ceil_log2_le_iff.mpr hrange.2
    have hle := Nat.pow_le_pow_right (show 0 < 2 by decide) hlog
    unfold Sized
    rw [calculate_arrow_equivalent_bits_eq hrange.1 hrange.2]
    exact ⟨Nat.one_le_two_pow, hle.trans (by decide)⟩

/-- **Safety of the basic filter**: exactly for the admissible sizes, or
    without any probe. -/
theorem basic_in_bounds_iff (f : BasicBloomFilter)
    (rows_to_insert bits_per_key min_num_bits num_hashes hash : Word) :
    ((Safe (insert f hash) (fun _ => True) ∧ Safe (contains f hash) fun _ => True) ↔
      f.num_hashes = 0 ∨ (1 ≤ f.num_bits.toNat ∧ f.num_bits.toNat ≤ 2 ^ 64 - 8)) ∧
    ((Safe (insert (BasicBloomFilter.new (calculate_arrow_equivalent_bits rows_to_insert
          bits_per_key min_num_bits) num_hashes) hash) (fun _ => True) ∧
        Safe (contains (BasicBloomFilter.new (calculate_arrow_equivalent_bits rows_to_insert
          bits_per_key min_num_bits) num_hashes) hash) fun _ => True) ↔
      num_hashes = 0 ∨ (1 ≤ (std_max min_num_bits (rows_to_insert * bits_per_key)).toNat ∧
        (std_max min_num_bits (rows_to_insert * bits_per_key)).toNat ≤ 2 ^ 63)) := by
  have hboth : ∀ f : BasicBloomFilter,
      (Safe (insert f hash) (fun _ => True) ∧ Safe (contains f hash) fun _ => True) ↔
        f.num_hashes = 0 ∨ Sized f.num_bits := by
    intro f
    rw [basic_insert_safe_iff, basic_contains_safe_iff, and_self]
  refine ⟨hboth f, ?_⟩
  rw [hboth, ← sized_calculate_iff]
  rfl

/-- A filter of zero bits divides by zero, one of `2 ^ 64 - 1` bits has no
    byte; and `2 ^ 60 + 1` rows of eight bits ask for zero bits. -/
theorem basic_out_of_bounds :
    insert (BasicBloomFilter.new 0 4) 1 = .error .divZero ∧
    (¬ Safe (insert (BasicBloomFilter.new 0 4) 1) fun _ => True) ∧
    contains (BasicBloomFilter.new (BitVec.ofNat 64 (2 ^ 64 - 1)) 4) 1 = .error .bounds ∧
    (¬ Safe (contains (BasicBloomFilter.new (BitVec.ofNat 64 (2 ^ 64 - 1)) 4) 1)
      fun _ => True) ∧
    calculate_arrow_equivalent_bits (BitVec.ofNat 64 (2 ^ 60 + 1)) 8 512 = 0 := by
  have hinsert : insert (BasicBloomFilter.new 0 4) 1 = .error .divZero := rfl
  have hcontains : contains (BasicBloomFilter.new (BitVec.ofNat 64 (2 ^ 64 - 1)) 4) 1 =
      .error .bounds := by decide
  exact ⟨hinsert, not_safe_of_fault hinsert (by decide), hcontains,
    not_safe_of_fault hcontains (by decide), by decide⟩

end basic

end BloomFilters
