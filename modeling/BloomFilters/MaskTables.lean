import BloomFilters.ArrowBloomFilter
import BloomFilters.ImprovedArrowFilter
import BloomFilters.ModifiedArrowBloomFilter

/-! # The generated mask tables

    What every run of the three table constructors leaves behind, over all
    streams of random numbers: the windows of `BloomFilterMasks` and
    `ImprovedBloomFilterMasks` have four or five set bits, the entries of
    `ModifiedBloomFilterMasks` are distinct and have five. No mask is zero.
-/

open Checked BitArray Words Lanes Window

namespace BloomFilters

/-! ## Sliding windows -/

/-- A finished sliding-window table, with the lookups `mask` (one window)
    and `rotated` (the mask of a hash). -/
structure WindowTable {n : Nat} (masks : Vector Byte n) (mask : Nat → Comp Word)
    (rotated : Word → Comp Word) (bitsPerMask minBitsSet maxBitsSet numberMasks : Nat) : Prop where
  windows : ∀ k, k < numberMasks → minBitsSet ≤ count (bitAt masks.toArray) k bitsPerMask ∧
    count (bitAt masks.toArray) k bitsPerMask ≤ maxBitsSet
  lookup : ∀ k, k < numberMasks → Returns (mask k) fun m =>
    ∀ j, j < 64 → m.getLsbD j = (decide (j < bitsPerMask) && bitAt masks.toArray (k + j))
  clear_beyond : ∀ p, numberMasks + bitsPerMask - 1 ≤ p → bitAt masks.toArray p = false
  rotated_bits : ∀ hash, Returns (rotated hash) fun m =>
    minBitsSet ≤ bitCount m ∧ bitCount m ≤ maxBitsSet

/-- No hash gets an empty mask. -/
theorem WindowTable.bitCount_pos {n : Nat} {masks : Vector Byte n} {mask : Nat → Comp Word}
    {rotated : Word → Comp Word} {bitsPerMask minBitsSet maxBitsSet numberMasks : Nat}
    (h : WindowTable masks mask rotated bitsPerMask minBitsSet maxBitsSet numberMasks)
    (hmin : 0 < minBitsSet) {hash m : Word} (hm : rotated hash = .ok m) : 0 < bitCount m := by
  obtain ⟨m', hm', hbits, _⟩ := h.rotated_bits hash
  rw [hm] at hm'
  cases hm'
  exact Nat.lt_of_lt_of_le hmin hbits

/-- The loop over the remaining masks: after iteration `i` the counter is the
    number of set bits of the window that ends at `i`. -/
def CountsWindow {n : Nat} (bitsPerMask minBitsSet maxBitsSet i : Nat)
    (s : SlidingMasks.State n) : Prop :=
  s.num_bits_set = count s.row (i + 1 - bitsPerMask) bitsPerMask ∧
    minBitsSet ≤ s.num_bits_set ∧ s.num_bits_set ≤ maxBitsSet

theorem windowTable_of_filled (logNumberMasks : Nat) {n : Nat} {s : SlidingMasks.State n}
    {mask : Nat → Comp Word} {rotated : Word → Comp Word} {bitsPerMask minBitsSet maxBitsSet : Nat}
    {fullMask : Word} (hbits : bitsPerMask ≤ 57)
    (hfull : ∀ j, j < 64 → fullMask.getLsbD j = decide (j < bitsPerMask))
    (hs : SlidingMasks.Filled bitsPerMask minBitsSet maxBitsSet
      (2 ^ logNumberMasks + bitsPerMask - 1) s)
    (hmask : ∀ k, k < 2 ^ logNumberMasks →
      mask k = .ok (SlidingMasks.windowWord s.masks fullMask k))
    (hrotated : ∀ h, rotated h = .ok (SlidingMasks.rotatedWord s.masks fullMask logNumberMasks h)) :
    WindowTable s.masks mask rotated bitsPerMask minBitsSet maxBitsSet (2 ^ logNumberMasks) where
  windows k hk := hs.windows k (by omega)
  lookup k hk := ⟨_, hmask k hk, fun _ hj => SlidingMasks.getLsbD_windowWord hbits hfull hj⟩
  clear_beyond := hs.clear_beyond
  rotated_bits h := by
    -- The rotation keeps the number of bits, and the mask id is one of the windows.
    have hlt : h.toNat % 2 ^ logNumberMasks < 2 ^ logNumberMasks := Nat.mod_lt _ (Nat.two_pow_pos _)
    rw [hrotated]
    apply returns_ok
    rw [SlidingMasks.bitCount_rotatedWord hbits hfull]
    exact hs.windows _ (by omega)

theorem bitAt_memset {n : Nat} (storage : Vector Byte n) (p : Nat) :
    bitAt (storage.map fun _ => (0 : Byte)).toArray p = false := by
  unfold bitAt
  rw [Vector.toArray_map, Array.getD_eq_getD_getElem?, Array.getElem?_map]
  cases storage.toArray[p / 8]? <;> simp

theorem BloomFilterMasks.new_spec (random : RandomDraws) (fuel : Nat)
    (storage : Vector Byte totalBytes) : Safe (new random fuel storage) fun t =>
      WindowTable t.masks t.mask (ArrowBloomFilter.mask t) bitsPerMask minBitsSet maxBitsSet
        numberMasks := by
  have hzero := bitAt_memset storage
  apply (SlidingMasks.fillTable_spec (by decide) (by decide) (by decide) (by decide) hzero).bind
  intro masks hmasks
  obtain ⟨s, rfl, hs⟩ := hmasks
  have hbits : bitsPerMask ≤ 57 := by decide
  exact safe_ok (windowTable_of_filled logNumberMasks hbits (fun j _ => getLsbD_fullMask j) hs
    (fun _ => mask_eq ⟨s.masks⟩) (fun h => ArrowBloomFilter.mask_eq h))

theorem ImprovedBloomFilterMasks.new_spec (random : RandomDraws) (fuel : Nat) :
    Safe (new random fuel) fun t =>
      WindowTable t.masks t.mask (ImprovedArrowBloomFilter.mask t) bitsPerMask minBitsSet
        maxBitsSet numberMasks := by
  have hzero : ∀ p, bitAt (Vector.replicate totalBytes (0 : Byte)).toArray p = false :=
    bitAt_replicate_zero totalBytes
  apply (SlidingMasks.fillTable_spec (by decide) (by decide) (by decide) (by decide) hzero).bind
  intro masks hmasks
  obtain ⟨s, rfl, hs⟩ := hmasks
  have hbits : bitsPerMask ≤ 57 := by decide
  exact safe_ok (windowTable_of_filled logNumberMasks hbits (fun j _ => getLsbD_fullMask j) hs
    (fun _ => mask_eq ⟨s.masks⟩) (fun h => ImprovedArrowBloomFilter.mask_eq h))

/-- The counter of the main loop, started on a finished first mask. -/
theorem countsWindow_run {random : RandomDraws} {bitsPerMask minBitsSet maxBitsSet n i fuel : Nat}
    (hpos : 0 < bitsPerMask) (hle : minBitsSet ≤ maxBitsSet) (hi : bitsPerMask ≤ i)
    (hn : i < 8 * n) {storage : Vector Byte n} (hzero : ∀ p, bitAt storage.toArray p = false)
    {s : SlidingMasks.State n}
    (hs : SlidingMasks.firstMask random bitsPerMask minBitsSet maxBitsSet fuel storage = .ok s) :
    Returns (forLoop bitsPerMask (i + 1) 1
      (SlidingMasks.nextBit random bitsPerMask minBitsSet maxBitsSet) s)
      (CountsWindow bitsPerMask minBitsSet maxBitsSet i) := by
  have hfilled := (SlidingMasks.firstMask_spec hpos (by omega) hle hzero).1 s hs
  apply (hfilled.run random hpos (by omega) (by omega)).mono
  intro t ht
  exact ⟨ht.counts, ht.min_le, ht.le_max⟩

/-- **Sliding-window tables**: for every random stream on which the first mask
    gets done, and whatever the storage of `BloomFilterMasks` held. -/
theorem sliding_window_tables (random : RandomDraws) (fuel : Nat) :
    (∀ storage s,
      SlidingMasks.firstMask random BloomFilterMasks.bitsPerMask BloomFilterMasks.minBitsSet
        BloomFilterMasks.maxBitsSet fuel (storage.map fun _ => (0 : Byte)) = .ok s →
      (∀ i, BloomFilterMasks.bitsPerMask ≤ i →
        i < BloomFilterMasks.numberMasks + BloomFilterMasks.bitsPerMask - 1 →
        Returns (forLoop BloomFilterMasks.bitsPerMask (i + 1) 1
          (SlidingMasks.nextBit random BloomFilterMasks.bitsPerMask BloomFilterMasks.minBitsSet
            BloomFilterMasks.maxBitsSet) s)
          (CountsWindow BloomFilterMasks.bitsPerMask BloomFilterMasks.minBitsSet
            BloomFilterMasks.maxBitsSet i)) ∧
      Returns (BloomFilterMasks.new random fuel storage) fun t =>
        WindowTable t.masks t.mask (ArrowBloomFilter.mask t) BloomFilterMasks.bitsPerMask
          BloomFilterMasks.minBitsSet BloomFilterMasks.maxBitsSet BloomFilterMasks.numberMasks) ∧
    (∀ s,
      SlidingMasks.firstMask random ImprovedBloomFilterMasks.bitsPerMask
        ImprovedBloomFilterMasks.minBitsSet ImprovedBloomFilterMasks.maxBitsSet fuel
        (Vector.replicate ImprovedBloomFilterMasks.totalBytes (0 : Byte)) = .ok s →
      (∀ i, ImprovedBloomFilterMasks.bitsPerMask ≤ i →
        i < ImprovedBloomFilterMasks.numberMasks + ImprovedBloomFilterMasks.bitsPerMask - 1 →
        Returns (forLoop ImprovedBloomFilterMasks.bitsPerMask (i + 1) 1
          (SlidingMasks.nextBit random ImprovedBloomFilterMasks.bitsPerMask
            ImprovedBloomFilterMasks.minBitsSet ImprovedBloomFilterMasks.maxBitsSet) s)
          (CountsWindow ImprovedBloomFilterMasks.bitsPerMask ImprovedBloomFilterMasks.minBitsSet
            ImprovedBloomFilterMasks.maxBitsSet i)) ∧
      Returns (ImprovedBloomFilterMasks.new random fuel) fun t =>
        WindowTable t.masks t.mask (ImprovedArrowBloomFilter.mask t)
          ImprovedBloomFilterMasks.bitsPerMask ImprovedBloomFilterMasks.minBitsSet
          ImprovedBloomFilterMasks.maxBitsSet ImprovedBloomFilterMasks.numberMasks) := by
  constructor
  · intro storage s hs
    have hzero := bitAt_memset storage
    constructor
    · intro i hlo hhi
      exact countsWindow_run (by decide) (by decide) hlo (Nat.lt_trans hhi (by decide)) hzero hs
    · have hpos : 0 < BloomFilterMasks.numberMasks := by decide
      obtain ⟨masks, hmasks⟩ :=
        SlidingMasks.exists_fillTable (by decide) (by decide) hpos (by decide) hzero hs
      -- The constructor is safe, and once its first mask is done it returns.
      apply (BloomFilterMasks.new_spec random fuel storage).returns
      refine ⟨⟨masks⟩, ?_⟩
      rw [BloomFilterMasks.new, hmasks]
      rfl
  · intro s hs
    have hzero : ∀ p, bitAt (Vector.replicate ImprovedBloomFilterMasks.totalBytes
        (0 : Byte)).toArray p = false := bitAt_replicate_zero _
    constructor
    · intro i hlo hhi
      exact countsWindow_run (by decide) (by decide) hlo (Nat.lt_trans hhi (by decide)) hzero hs
    · have hpos : 0 < ImprovedBloomFilterMasks.numberMasks := by decide
      obtain ⟨masks, hmasks⟩ :=
        SlidingMasks.exists_fillTable (by decide) (by decide) hpos (by decide) hzero hs
      apply (ImprovedBloomFilterMasks.new_spec random fuel).returns
      refine ⟨⟨masks⟩, ?_⟩
      rw [ImprovedBloomFilterMasks.new, hmasks]
      rfl

/-- Draws that count upwards inside of the requested range. -/
def countingDraws : RandomDraws where
  value n min_value max_value := max min_value (min n max_value)
  in_range n min_value max_value h := by omega

/-- They finish the first mask. -/
theorem sliding_window_tables_counting :
    Returns (ImprovedBloomFilterMasks.new countingDraws 2) fun t =>
      WindowTable t.masks t.mask (ImprovedArrowBloomFilter.mask t)
        ImprovedBloomFilterMasks.bitsPerMask ImprovedBloomFilterMasks.minBitsSet
        ImprovedBloomFilterMasks.maxBitsSet ImprovedBloomFilterMasks.numberMasks := by
  -- Two tries for each bit are enough: the first mask is computed.
  have hdone : (SlidingMasks.firstMask countingDraws ImprovedBloomFilterMasks.bitsPerMask
      ImprovedBloomFilterMasks.minBitsSet ImprovedBloomFilterMasks.maxBitsSet 2
      (Vector.replicate ImprovedBloomFilterMasks.totalBytes (0 : Byte))).toOption.isSome =
        true := by
    decide
  cases hs : SlidingMasks.firstMask countingDraws ImprovedBloomFilterMasks.bitsPerMask
      ImprovedBloomFilterMasks.minBitsSet ImprovedBloomFilterMasks.maxBitsSet 2
      (Vector.replicate ImprovedBloomFilterMasks.totalBytes (0 : Byte)) with
  | error e => rw [hs] at hdone; cases hdone
  | ok s => exact ((sliding_window_tables countingDraws 2).2 s hs).2

/-! ## Direct masks -/

/-- A table of distinct masks tells two hashes apart by their indices. -/
theorem maskWord_eq_iff {t : ModifiedBloomFilterMasks}
    (hdistinct : ∀ i j, (hi : i < ModifiedBloomFilterMasks.numberMasks) →
      (hj : j < ModifiedBloomFilterMasks.numberMasks) → t.masks[i] = t.masks[j] → i = j)
    (h h' : Word) : t.maskWord h = t.maskWord h' ↔
      h.toNat % 2 ^ ModifiedBloomFilterMasks.logNumberMasks =
        h'.toNat % 2 ^ ModifiedBloomFilterMasks.logNumberMasks := by
  constructor
  · exact fun heq => hdistinct _ _ _ _ heq
  · intro heq
    simp only [ModifiedBloomFilterMasks.maskWord, heq]

/-- **Direct mask table**: for every generator stream the constructor either
    still runs, or it has filled the table with distinct masks of five bits,
    having written nowhere else. -/
theorem direct_mask_table (rng : Nat → BitVec 32) (fuel : Nat) :
    Safe (ModifiedBloomFilterMasks.new rng fuel) fun t =>
      (∀ i, (hi : i < ModifiedBloomFilterMasks.numberMasks) →
        bitCount t.masks[i] = ModifiedBloomFilterMasks.bitsPerMask) ∧
      (∀ i j, (hi : i < ModifiedBloomFilterMasks.numberMasks) →
        (hj : j < ModifiedBloomFilterMasks.numberMasks) → t.masks[i] = t.masks[j] → i = j) ∧
      (∀ h h', Returns (ModifiedArrowBloomFilter.mask t h) fun m =>
        Returns (ModifiedArrowBloomFilter.mask t h') fun m' =>
          (m = m' ↔ h.toNat % 2 ^ 11 = h'.toNat % 2 ^ 11)) ∧
      (∀ v v' : M256i, Returns (ModifiedArrowBloomFilter.mask_avx2 t v) fun m =>
        Returns (ModifiedArrowBloomFilter.mask_avx2 t v') fun m' =>
          ∀ k k', (hk : k < 4) → (hk' : k' < 4) →
            (m[k] = m'[k'] ↔ v[k].toNat % 2 ^ 11 = v'[k'].toNat % 2 ^ 11)) := by
  refine ModifiedBloomFilterMasks.new_spec.mono fun t ht => ⟨ht.1, ht.2, fun h h' => ?_,
    fun v v' => ?_⟩
  · -- The scalar lookup, and the four lanes of the vector one.
    rw [ModifiedArrowBloomFilter.mask_eq, ModifiedArrowBloomFilter.mask_eq]
    exact returns_ok (returns_ok (maskWord_eq_iff ht.2 h h'))
  · rw [ModifiedArrowBloomFilter.mask_avx2_eq, ModifiedArrowBloomFilter.mask_avx2_eq]
    apply returns_ok
    apply returns_ok
    intro k k' hk hk'
    rw [Vector.getElem_map, Vector.getElem_map]
    exact maskWord_eq_iff ht.2 _ _

/-! ## Empty masks -/

section filled

variable {random : RandomDraws} {rng : Nat → BitVec 32} {fuel : Nat}

theorem BloomFilterMasks.filled {storage : Vector Byte totalBytes} {masks : BloomFilterMasks}
    (h : new random fuel storage = .ok masks) (hash : Word) :
    0 < bitCount (BlockFilter.maskWord (ArrowBloomFilter masks) hash) :=
  ((new_spec random fuel storage).1 _ h).bitCount_pos (by decide) (ArrowBloomFilter.mask_eq hash)

theorem ImprovedBloomFilterMasks.filled {masks : ImprovedBloomFilterMasks}
    (h : new random fuel = .ok masks) (hash : Word) :
    0 < bitCount (BlockFilter.maskWord (ImprovedArrowBloomFilter masks) hash) :=
  ((new_spec random fuel).1 _ h).bitCount_pos (by decide) (ImprovedArrowBloomFilter.mask_eq hash)

theorem ModifiedBloomFilterMasks.filled {masks : ModifiedBloomFilterMasks}
    (h : new rng fuel = .ok masks) (hash : Word) :
    0 < bitCount (BlockFilter.maskWord (ModifiedArrowBloomFilter masks) hash) := by
  show 0 < bitCount (masks.maskWord hash)
  unfold maskWord
  rw [(new_spec.1 _ h).1]
  decide

end filled

end BloomFilters
