import BloomFilters.Histories
import BloomFilters.MaskTables

/-! # Fresh filters

    A newly constructed filter reports nothing. Its table is clear, so this
    says that no hash has an empty set of positions: no mask of any
    generated table is zero, under any rotation.
-/

open Checked BitArray Words Footprint

namespace BloomFilters

/-- `f` reports none of the hashes that satisfy `ok`, one by one or in a
    batch. -/
structure ReportsNothing {Impl : Type} [BloomFilter Impl] (f : Impl) (ok : Word → Prop) :
    Prop where
  contains_false : ∀ h, ok h → contains f h = .ok false
  batch_zero : ∀ hash_array result, (∀ h ∈ hash_array, ok h) → hash_array.size + 7 < 2 ^ 64 →
    (hash_array.size + 7) / 8 ≤ result.size →
    Returns (containsBatch f hash_array result) fun r =>
      ∀ i, i < (hash_array.size + 7) / 8 → r[i]? = some 0

section lawful

variable {Impl : Type} [BloomFilter Impl] [LawfulBloomFilter Impl] {f : Impl}

open LawfulBloomFilter

theorem reportsNothing_of_fresh (hvalid : Valid (shape f)) (hfresh : bitSet (table f) = ∅)
    {ok : Word → Prop} (hok : ∀ h, ok h → HasMask Impl h)
    (hpositions : ∀ h, ok h → (footprint (shape f) h).Nonempty) : ReportsNothing f ok := by
  have hfalse : ∀ h, ok h → contains f h = .ok false := by
    intro h hh
    obtain ⟨b, hb, hiff⟩ := contains_spec f h hvalid (hok h hh)
    -- An empty table covers the empty footprint only.
    rw [hfresh, reports_empty_iff] at hiff
    have hnot : ¬ b = true := fun hbt => (hpositions h hh).ne_empty (hiff.mp hbt)
    rw [hb, Bool.eq_false_iff.mpr hnot]
  refine ⟨hfalse, fun hash_array result hall hcount hsize => ?_⟩
  rw [← result_bytes_eq hcount] at hsize ⊢
  rw [containsBatch_eq f hash_array result (fun _ => false)
    (fun i hi => hfalse _ (hall _ (Array.getElem_mem hi))) hcount hsize]
  apply returns_ok
  intro i hi
  -- Eight negative answers, or padding: a zero byte.
  have hbyte : byteOf (fun k => answers (fun _ => false) hash_array.size (8 * i + k)) =
      byteOf fun _ => false := byteOf_congr fun k _ => by simp [answers]
  rw [Array.getElem?_eq_getElem (by simp; omega), getElem_packBits, if_pos hi, hbyte]
  rfl

end lawful

section blocks

variable {Impl : Type} [BloomFilter Impl] [BlockFilter Impl] {f : Impl}

open BlockFilter

theorem reportsNothing_of_blocks {g : Geometry} (hnew : toTable f = .ofGeometry g)
    (hbits : ∀ h, HasMask Impl h → 0 < bitCount (maskWord Impl h)) :
    ReportsNothing f (HasMask Impl) := by
  apply reportsNothing_of_fresh (valid f) (fresh_of_new hnew)
  · exact fun _ h => h
  · intro h hh
    exact footprint_nonempty (hbits h hh)

end blocks

theorem reportsNothing_basic {num_bits num_hashes : Word} (hsized : BasicBloomFilter.Sized num_bits)
    (hhashes : 1 ≤ num_hashes.toNat) :
    ReportsNothing (BasicBloomFilter.new num_bits num_hashes) (fun _ => True) := by
  apply reportsNothing_of_fresh (BasicBloomFilter.valid_new hsized num_hashes)
    (BasicBloomFilter.fresh_new num_bits num_hashes)
  · exact fun _ _ => trivial
  · intro h _
    exact ⟨probeBit h 0 num_bits, 0, hhashes, rfl⟩

/-- **Fresh filters report nothing**, for every table that a run of its
    constructor can produce. -/
theorem fresh_reports_nothing :
    (∀ num_bits num_hashes, BasicBloomFilter.Sized num_bits → 1 ≤ num_hashes.toNat →
      ReportsNothing (BasicBloomFilter.new num_bits num_hashes) (fun _ => True)) ∧
    (∀ rows_to_insert f, BlockedBloomFilter.new rows_to_insert = .ok f →
      ReportsNothing f (fun h => ∃ m, BlockedBloomFilter.mask h = .ok m)) ∧
    (∀ h m, BlockedBloomFilter.mask h = .ok m → bitCount m = BlockedBloomFilter.num_hashes) ∧
    (∀ random fuel storage, Safe (BloomFilterMasks.new random fuel storage) fun masks =>
      ∀ rows_to_insert mode,
        ReportsNothing (ArrowBloomFilter.new masks rows_to_insert mode) (fun _ => True)) ∧
    (∀ random fuel, Safe (ImprovedBloomFilterMasks.new random fuel) fun masks =>
      ∀ rows_to_insert mode,
        ReportsNothing (ImprovedArrowBloomFilter.new masks rows_to_insert mode) (fun _ => True)) ∧
    (∀ rng fuel, Safe (ModifiedBloomFilterMasks.new rng fuel) fun masks =>
      ∀ rows_to_insert mode,
        ReportsNothing (ModifiedArrowBloomFilter.new masks rows_to_insert mode)
          (fun _ => True)) := by
  have hblocked : ∀ h m, BlockedBloomFilter.mask h = .ok m →
      bitCount m = BlockedBloomFilter.num_hashes :=
    fun h m hm => (BlockedBloomFilter.mask_safe h).1 m hm
  refine ⟨fun _ _ => reportsNothing_basic, fun rows f hf => ?_, hblocked,
    fun random fuel storage => ?_, fun random fuel => ?_, fun rng fuel => ?_⟩
  · obtain ⟨g, rfl⟩ := BlockedBloomFilter.eq_ofGeometry_of_new hf
    apply reportsNothing_of_blocks rfl
    intro h hmask
    -- A mask that `mask` returns has four bits.
    have hbits := hblocked h _ (BlockedBloomFilter.mask_eq hmask)
    show 0 < bitCount (BlockedBloomFilter.maskWord h)
    rw [hbits]
    decide
  · apply (BloomFilterMasks.new_spec random fuel storage).mono
    intro masks ht rows mode
    apply reportsNothing_of_blocks rfl
    intro h _
    exact ht.bitCount_pos (by decide) (ArrowBloomFilter.mask_eq h)
  · apply (ImprovedBloomFilterMasks.new_spec random fuel).mono
    intro masks ht rows mode
    apply reportsNothing_of_blocks rfl
    intro h _
    exact ht.bitCount_pos (by decide) (ImprovedArrowBloomFilter.mask_eq h)
  · apply ModifiedBloomFilterMasks.new_spec.mono
    intro masks ht rows mode
    apply reportsNothing_of_blocks rfl
    intro h _
    show 0 < bitCount (masks.maskWord h)
    unfold ModifiedBloomFilterMasks.maskWord
    -- Every entry of the table has five bits.
    rw [ht.1]
    decide

/-- A basic filter of one byte, a hash with a mask in a blocked filter, and tables
    of the two kinds. -/
theorem fresh_reports_nothing_small :
    contains (BasicBloomFilter.new 8 1) 5 = .ok false ∧
    Returns (containsBatch (BasicBloomFilter.new 8 1) #[1, 2, 3] #[0xff]) (fun r =>
      ∀ i, i < (#[1, 2, 3].size + 7) / 8 → r[i]? = some 0) ∧
    (BlockedBloomFilter.new 1 >>= fun f => contains f 1) = .ok false ∧
    (∃ fuel masks, BloomFilterMasks.new countingDraws fuel (.replicate _ 0xff) = .ok masks ∧
      contains (ArrowBloomFilter.new masks 1 .avx2) 5 = .ok false) ∧
    ∃ fuel masks, ModifiedBloomFilterMasks.new ModifiedBloomFilterMasks.digitDraws fuel =
      .ok masks ∧ contains (ModifiedArrowBloomFilter.new masks 1 .avx2) 5 = .ok false := by
  have hfresh := fresh_reports_nothing.1 8 1 ⟨by decide, by decide⟩ (by decide)
  refine ⟨hfresh.contains_false 5 trivial,
    hfresh.batch_zero #[1, 2, 3] #[0xff] (fun _ _ => trivial) (by decide) (by decide), ?_, ?_, ?_⟩
  · obtain ⟨f, hf, -⟩ := @BlockedBloomFilter.new_returns 1 (by decide) (by decide)
    rw [hf, ok_bind]
    exact (fresh_reports_nothing.2.1 1 f hf).contains_false 1 ⟨_, BlockedBloomFilter.mask_one⟩
  · obtain ⟨fuel, masks, hmasks⟩ := BloomFilterMasks.exists_new_counting (.replicate _ 0xff)
    have hnothing := (fresh_reports_nothing.2.2.2.1 countingDraws fuel _).1 masks hmasks 1 .avx2
    exact ⟨fuel, masks, hmasks, hnothing.contains_false 5 trivial⟩
  · obtain ⟨fuel, masks, hmasks⟩ := ModifiedBloomFilterMasks.exists_new_digitDraws
    have hnothing := (fresh_reports_nothing.2.2.2.2.2 _ fuel).1 masks hmasks 1 .avx2
    exact ⟨fuel, masks, hmasks, hnothing.contains_false 5 trivial⟩

end BloomFilters
