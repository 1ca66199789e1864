import BloomFilters.Blocks
import BloomFilters.Framework.Window

/-! # Sliding-window mask tables

    `BloomFilterMasks` and `ImprovedBloomFilterMasks` are built and read by
    the same steps: one long row of bits in which every window of
    `bitsPerMask` positions is a mask. This module has these steps with the
    constants as parameters; each class applies them to its own constants
    and its own storage.

    * **Random source**: a draw is any value of the requested range, chosen
      separately for every call.
    * **Construction**: a first window, then one bit at a time.
    * **Lookup**: a 64-bit load, a shift, and a rotation; on one hash and
      on four lanes.

    Source: `bloom_filter/{ArrowBloomFilter,ImprovedArrowFilter}.{h,cpp}`.
-/

open Checked BitArray Words Lanes Window

namespace BloomFilters

/-- What `std::uniform_int_distribution` may yield: the result of call
    number `n` with the bounds `min_value` and `max_value`. -/
structure RandomDraws where
  value : Nat → Nat → Nat → Nat
  in_range : ∀ n min_value max_value, min_value ≤ max_value →
    min_value ≤ value n min_value max_value ∧ value n min_value max_value ≤ max_value

namespace SlidingMasks

/-! ## Construction -/

/-- The variables of the constructor, with the number of draws so far. -/
structure State (n : Nat) where
  masks : Vector Byte n
  num_bits_set : Nat
  draws : Nat

/-- The bits of the table under construction. -/
def State.row {n : Nat} (s : State n) : Nat → Bool := bitAt s.masks.toArray

section construction

variable (random : RandomDraws) (bitsPerMask minBitsSet maxBitsSet : Nat) {n : Nat}

/-- One round of the `while (true)` of the first mask. -/
def drawBit (s : State n) : Comp (State n ⊕ State n) := do
  let bit_pos := random.value s.draws 0 (bitsPerMask - 1)
  let s := { s with draws := s.draws + 1 }
  if ← getBit s.masks bit_pos then return .inl s
  else return .inr { s with masks := ← setBit s.masks bit_pos }

/-- The first mask. The fuel bounds each `while (true)`. -/
def firstMask (fuel : Nat) (storage : Vector Byte n) : Comp (State n) :=
  let num_bits_set := random.value 0 minBitsSet maxBitsSet
  forLoop 0 num_bits_set 1 (fun _ s => whileTrue (drawBit random bitsPerMask) fuel s)
    { masks := storage, num_bits_set := num_bits_set, draws := 1 }

/-- The loop body of the remaining masks; `continue` and the end of the
    body both yield the state of the next round. -/
def nextBit (i : Nat) (s : State n) : Comp (State n) := do
  let bit_leaving := if ← getBit s.masks (i - bitsPerMask) then 1 else 0
  if bit_leaving = 1 ∧ s.num_bits_set = minBitsSet then
    return { s with masks := ← setBit s.masks i }
  else if bit_leaving = 0 ∧ s.num_bits_set = maxBitsSet then
    return s
  else
    let draw := random.value s.draws 0 (bitsPerMask * 2 - 1)
    let s := { s with draws := s.draws + 1 }
    if draw < minBitsSet + maxBitsSet then
      let s := { s with masks := ← setBit s.masks i }
      if bit_leaving = 0 then return { s with num_bits_set := s.num_bits_set + 1 } else return s
    else
      if bit_leaving = 1 then return { s with num_bits_set := s.num_bits_set - 1 } else return s

/-- The constructor after the clearing of its storage. -/
def fillTable (numberMasks fuel : Nat) (storage : Vector Byte n) : Comp (Vector Byte n) := do
  let s ← firstMask random bitsPerMask minBitsSet maxBitsSet fuel storage
  let num_bits_total := numberMasks + bitsPerMask - 1
  let s ← forLoop bitsPerMask num_bits_total 1
    (nextBit random bitsPerMask minBitsSet maxBitsSet) s
  return s.masks

end construction

/-! ## The window invariant -/

section invariant

variable {random : RandomDraws} {bitsPerMask minBitsSet maxBitsSet : Nat} {n : Nat}

/-- After `i` bits: nothing is set from `i` on, the counter counts the last
    window, and every window so far has an admissible number of bits. -/
structure Filled (bitsPerMask minBitsSet maxBitsSet i : Nat) (s : State n) : Prop where
  clear_beyond : ∀ p, i ≤ p → s.row p = false
  counts : s.num_bits_set = count s.row (i - bitsPerMask) bitsPerMask
  min_le : minBitsSet ≤ s.num_bits_set
  le_max : s.num_bits_set ≤ maxBitsSet
  windows : ∀ k, k + bitsPerMask ≤ i →
    minBitsSet ≤ count s.row k bitsPerMask ∧ count s.row k bitsPerMask ≤ maxBitsSet

theorem setBit_row {s : State n} {i : Nat} (hi : i / 8 < n) :
    Returns (setBit s.masks i) fun masks =>
      ∀ p, bitAt masks.toArray p = true ↔ s.row p = true ∨ p = i := by
  apply (setBit_ok hi).mono
  intro masks hmasks p
  rw [← mem_bitSet, hmasks]
  rfl

/-- **Step lemma of the first mask**: a round either tries again or sets a
    clear position of the first window. -/
theorem drawBit_spec (hpos : 0 < bitsPerMask) (hn : bitsPerMask ≤ 8 * n) (s : State n) :
    Returns (drawBit random bitsPerMask s) (Sum.elim
      (fun s' => s'.masks = s.masks ∧ s'.num_bits_set = s.num_bits_set)
      (fun s' => s'.num_bits_set = s.num_bits_set ∧ ∃ i, i < bitsPerMask ∧ s.row i = false ∧
        ∀ p, s'.row p = true ↔ s.row p = true ∨ p = i)) := by
  obtain ⟨bit_pos, hdraw⟩ : ∃ bit_pos, random.value s.draws 0 (bitsPerMask - 1) = bit_pos :=
    ⟨_, rfl⟩
  have hlt : bit_pos < bitsPerMask := by
    have := random.in_range s.draws 0 (bitsPerMask - 1) (Nat.zero_le _)
    omega
  have hbyte : bit_pos / 8 < n := by omega
  obtain ⟨masks, hset, hrow⟩ := setBit_row (s := s) hbyte
  rw [drawBit, hdraw, getBit_ok hbyte, ok_bind]
  -- A position that is set already is drawn again.
  cases hbit : bitAt s.masks.toArray bit_pos with
  | true => exact returns_ok ⟨rfl, rfl⟩
  | false =>
    simp only [Bool.false_eq_true, if_false, hset, ok_bind]
    exact returns_ok ⟨rfl, bit_pos, hlt, hbit, hrow⟩

/-- The first mask: `num_bits_set` distinct positions of the first window. -/
theorem firstMask_spec (hpos : 0 < bitsPerMask) (hn : bitsPerMask ≤ 8 * n)
    (hle : minBitsSet ≤ maxBitsSet) {fuel : Nat} {storage : Vector Byte n}
    (hzero : ∀ p, bitAt storage.toArray p = false) :
    Safe (firstMask random bitsPerMask minBitsSet maxBitsSet fuel storage)
      (Filled bitsPerMask minBitsSet maxBitsSet bitsPerMask) := by
  have hdraw := random.in_range 0 minBitsSet maxBitsSet hle
  have hstart : ∀ num, ∀ p, State.row (⟨storage, num, 1⟩ : State n) p = false := fun _ => hzero
  -- After `j` rounds `j` positions of the first window are set.
  refine (forLoop_safe (fun j (s : State n) =>
    s.num_bits_set = random.value 0 minBitsSet maxBitsSet ∧
      count s.row 0 bitsPerMask = j ∧ ∀ p, bitsPerMask ≤ p → s.row p = false)
    (Nat.zero_le _) ⟨rfl, count_eq_zero fun p _ _ => hstart _ p, fun p _ => hstart _ p⟩ ?_).mono ?_
  · intro j s _ _ h
    obtain ⟨hnum, hcount, hclear⟩ := h
    -- Draws that hit a set bit change neither the masks nor the counter.
    refine whileTrue_safe (fun s' : State n =>
      s'.masks = s.masks ∧ s'.num_bits_set = s.num_bits_set) _ ?_ fuel s ⟨rfl, rfl⟩
    intro s' hsame
    obtain ⟨hmasks, hnum'⟩ := hsame
    have hrow : s'.row = s.row := by rw [State.row, State.row, hmasks]
    apply (drawBit_spec hpos hn s').safe.mono
    intro r hr
    cases r with
    | inl s'' => exact ⟨hr.1.trans hmasks, hr.2.trans hnum'⟩
    | inr s'' =>
      obtain ⟨hnum'', i, hi, hclr, hset⟩ := hr
      rw [hrow] at hclr hset
      refine ⟨by rw [hnum'', hnum', hnum], ?_, fun p hp => ?_⟩
      · -- The new position is clear, so it adds one to the first window.
        rw [count_set ⟨Nat.zero_le i, by omega⟩ hclr hset, hcount]
      · have hne : p ≠ i := by omega
        have hnot : ¬ s''.row p = true := by rw [hset p, hclear p hp]; simp [hne]
        simpa using hnot
  · intro s hinv
    obtain ⟨hnum, hcount, hclear⟩ := hinv
    refine ⟨hclear, by rw [Nat.sub_self, hcount, hnum], by omega, by omega, fun k hk => ?_⟩
    -- The only window that is complete is the first one.
    have hk0 : k = 0 := by omega
    subst hk0
    omega

/-- **Step lemma of the window**: whatever branch is taken, the counter
    moves with the bit that enters and the bit that leaves, and stays in its
    range. -/
theorem nextBit_spec (bitsPerMask : Nat) {i : Nat} {s : State n} (hi : i / 8 < n)
    (hmin : minBitsSet ≤ s.num_bits_set) (hmax : s.num_bits_set ≤ maxBitsSet) :
    Returns (nextBit random bitsPerMask minBitsSet maxBitsSet i s) fun s' =>
      minBitsSet ≤ s'.num_bits_set ∧ s'.num_bits_set ≤ maxBitsSet ∧
      ∃ entering : Bool,
        (∀ p, s'.row p = true ↔ s.row p = true ∨ (p = i ∧ entering = true)) ∧
        s'.num_bits_set + (s.row (i - bitsPerMask)).toNat =
          s.num_bits_set + entering.toNat := by
  obtain ⟨masks, hset, hrow⟩ := setBit_row (s := s) hi
  have hsame : ∀ p, s.row p = true ↔ s.row p = true ∨ (p = i ∧ false = true) := by simp
  have hentered : ∀ p, bitAt masks.toArray p = true ↔ s.row p = true ∨ (p = i ∧ true = true) := by
    simpa using hrow
  unfold nextBit
  rw [getBit_ok (by omega), ok_bind]
  -- The leaving bit decides which of the two bounds the window can break.
  cases hleave : s.row (i - bitsPerMask) with
  | true =>
    simp only [show bitAt s.masks.toArray (i - bitsPerMask) = true from hleave, if_true, true_and]
    by_cases hnum : s.num_bits_set = minBitsSet
    · -- The leaving bit has to be replaced.
      rw [if_pos hnum, hset, ok_bind]
      exact returns_ok ⟨hmin, hmax, true, hentered, rfl⟩
    · rw [if_neg hnum]
      simp only [Nat.one_ne_zero, false_and, if_false, hset, ok_bind]
      split
      · exact returns_ok ⟨hmin, hmax, true, hentered, rfl⟩
      · refine returns_ok ⟨?_, ?_, false, hsame, ?_⟩ <;> simp <;> omega
  | false =>
    simp only [show bitAt s.masks.toArray (i - bitsPerMask) = false from hleave,
      Bool.false_eq_true, if_false, true_and, Nat.zero_ne_one, false_and]
    by_cases hnum : s.num_bits_set = maxBitsSet
    · -- No further bit fits into the window.
      rw [if_pos hnum]
      exact returns_ok ⟨hmin, hmax, false, hsame, rfl⟩
    · rw [if_neg hnum, hset]
      simp only [ok_bind, if_true]
      split
      · refine returns_ok ⟨?_, ?_, true, hentered, ?_⟩ <;> simp <;> omega
      · exact returns_ok ⟨hmin, hmax, false, hsame, rfl⟩

/-- A round of the main loop extends the filled part by one bit. -/
theorem Filled.next (hpos : 0 < bitsPerMask) {i : Nat} {s : State n} (hi : i / 8 < n)
    (hw : bitsPerMask ≤ i)
    (h : Filled bitsPerMask minBitsSet maxBitsSet i s) :
    Returns (nextBit random bitsPerMask minBitsSet maxBitsSet i s)
      (Filled bitsPerMask minBitsSet maxBitsSet (i + 1)) := by
  apply (nextBit_spec bitsPerMask hi h.min_le h.le_max).mono
  intro s' hs'
  obtain ⟨hmin, hmax, entering, hrow, hnum⟩ := hs'
  have hold : ∀ p, p < i → s.row p = s'.row p := by
    intro p hp
    have hne : p ≠ i := by omega
    rw [Bool.eq_iff_iff, hrow p]
    simp [hne]
  have hi' : s'.row i = entering := by
    rw [Bool.eq_iff_iff, hrow i, h.clear_beyond i (Nat.le_refl i)]
    simp
  -- The window slides by one: the counter follows the bit that leaves and the one that enters.
  have hcount : s'.num_bits_set = count s'.row (i + 1 - bitsPerMask) bitsPerMask := by
    have hslide := count_slide (b := s'.row) (k := i - bitsPerMask) (w := bitsPerMask)
    rw [show i - bitsPerMask + bitsPerMask = i from by omega, hi',
      show i - bitsPerMask + 1 = i + 1 - bitsPerMask from by omega] at hslide
    have hprev := count_congr (k := i - bitsPerMask) (w := bitsPerMask)
      fun p _ hp => hold p (by omega)
    have hcounts := h.counts
    rw [hold (i - bitsPerMask) (by omega)] at hnum
    omega
  refine ⟨fun p hp => ?_, hcount, hmin, hmax, fun k hk => ?_⟩
  · have hne : p ≠ i := by omega
    have hnot : ¬ s'.row p = true := by rw [hrow p, h.clear_beyond p (by omega)]; simp [hne]
    simpa using hnot
  · -- Either the window that has just been completed, or an old one.
    rcases Nat.eq_or_lt_of_le hk with heq | hlt
    · rw [show k = i + 1 - bitsPerMask from by omega, ← hcount]
      exact ⟨hmin, hmax⟩
    · rw [← count_congr fun p _ hp => hold p (by omega)]
      exact h.windows k (by omega)

/-- **Run lemma**: the invariant holds after every prefix of the main loop. -/
theorem Filled.run (random : RandomDraws) (hpos : 0 < bitsPerMask) {m : Nat}
    (hw : bitsPerMask ≤ m) (hm : m ≤ 8 * n) {s : State n}
    (h : Filled bitsPerMask minBitsSet maxBitsSet bitsPerMask s) :
    Returns (forLoop bitsPerMask m 1 (nextBit random bitsPerMask minBitsSet maxBitsSet) s)
      (Filled bitsPerMask minBitsSet maxBitsSet m) :=
  forLoop_returns (Filled bitsPerMask minBitsSet maxBitsSet) Nat.one_pos hw (Nat.one_dvd _) h
    fun _ _ hlo hhi _ hs => hs.next hpos (by omega) hlo

/-- What the constructor leaves behind, if its first mask gets done. -/
theorem fillTable_spec (hpos : 0 < bitsPerMask) (hle : minBitsSet ≤ maxBitsSet)
    {numberMasks fuel : Nat} (hmasks : 0 < numberMasks)
    (hn : numberMasks + bitsPerMask - 1 ≤ 8 * n) {storage : Vector Byte n}
    (hzero : ∀ p, bitAt storage.toArray p = false) :
    Safe (fillTable random bitsPerMask minBitsSet maxBitsSet numberMasks fuel storage)
      fun masks => ∃ s : State n, s.masks = masks ∧
        Filled bitsPerMask minBitsSet maxBitsSet (numberMasks + bitsPerMask - 1) s := by
  apply (firstMask_spec hpos (by omega) hle hzero).bind
  intro s hs
  apply (hs.run random hpos (by omega) hn).safe.bind
  intro s' hs'
  exact safe_ok ⟨s', rfl, hs'⟩

/-- Once the first mask is done, the constructor returns. -/
theorem exists_fillTable (hpos : 0 < bitsPerMask) (hle : minBitsSet ≤ maxBitsSet)
    {numberMasks fuel : Nat} (hmasks : 0 < numberMasks)
    (hn : numberMasks + bitsPerMask - 1 ≤ 8 * n) {storage : Vector Byte n}
    (hzero : ∀ p, bitAt storage.toArray p = false) {s : State n}
    (hs : firstMask random bitsPerMask minBitsSet maxBitsSet fuel storage = .ok s) :
    ∃ masks, fillTable random bitsPerMask minBitsSet maxBitsSet numberMasks fuel storage =
      .ok masks := by
  have hfilled := (firstMask_spec hpos (by omega) hle hzero).1 s hs
  -- No round of the main loop can fault or run forever.
  obtain ⟨s', hs', -⟩ := hfilled.run random hpos
    (show bitsPerMask ≤ numberMasks + bitsPerMask - 1 from by omega) hn
  refine ⟨s'.masks, ?_⟩
  unfold fillTable
  rw [hs, ok_bind]
  simp only [hs', ok_bind, pure_eq_ok]

end invariant

/-! ## Lookup -/

section lookup

variable {n : Nat}

/-- The mask at bit `k`: a 64-bit load, a shift and the mask of the low
    bits. -/
def windowWord (masks : Vector Byte n) (fullMask : Word) (k : Nat) : Word :=
  (bits64 masks (k / 8) >>> (k % 8)) &&& fullMask

/-- The mask of a hash: its low bits choose a window, the next six bits a
    rotation. -/
def rotatedWord (masks : Vector Byte n) (fullMask : Word) (logNumberMasks : Nat) (hash : Word) :
    Word :=
  (windowWord masks fullMask (hash.toNat % 2 ^ logNumberMasks)).rotateLeft
    (hash.toNat / 2 ^ logNumberMasks % 64)

/-- The six bits of the rotation. -/
theorem toNat_rotation (logNumberMasks : Nat) (hash : Word) :
    ((hash >>> logNumberMasks) &&& 63).toNat = hash.toNat / 2 ^ logNumberMasks % 64 := by
  rw [toNat_and_of_ones (k := 6) rfl, BitVec.toNat_ushiftRight, Nat.shiftRight_eq_div_pow]
  rfl

/-- The scalar lookup, given the window. -/
theorem rotate_left_window {masks : Vector Byte n} {fullMask : Word} {logNumberMasks : Nat}
    (hash : Word) :
    rotate_left (windowWord masks fullMask (hash.toNat % 2 ^ logNumberMasks))
        ((hash >>> logNumberMasks) &&& 63).toNat =
      .ok (rotatedWord masks fullMask logNumberMasks hash) := by
  rw [toNat_rotation, rotate_left_eq (Nat.mod_lt _ (by omega)), rotatedWord]

theorem load_window {masks : Vector Byte n} {fullMask : Word} {k : Nat} (h : k / 8 + 8 ≤ n) :
    (do let loaded_bits ← load64 masks (k / 8)
        return (← shr loaded_bits (k % 8 : Nat)) &&& fullMask) =
      .ok (windowWord masks fullMask k) := by
  rw [load64_ok h, ok_bind, shr_ok (by omega), ok_bind, Int.toNat_natCast, windowWord]
  rfl

/-- The AVX2 lookup. -/
def mask_avx2 (masks : Vector Byte n) (fullMask : Word) (logNumberMasks : Nat) (hash : M256i) :
    Comp M256i := do
  let full_mask := mm256_set1_epi64x fullMask
  let mask_id := mm256_and_si256 hash (mm256_set1_epi64x (1#64 <<< logNumberMasks - 1))
  let mask_byte_index := mm256_srli_epi64 mask_id 3
  let bit_shift := mm256_and_si256 mask_id (mm256_set1_epi64x 7)
  let loaded_bits ← mm256_i64gather_epi64 (fun index => load64 masks index.toNat) mask_byte_index
  let result := mm256_srlv_epi64 loaded_bits bit_shift
  let result := mm256_and_si256 result full_mask
  let rotation := mm256_srli_epi64 hash logNumberMasks
  let rotation := mm256_and_si256 rotation (mm256_set1_epi64x 63)
  return mm256_or_si256
    (mm256_sllv_epi64 result rotation)
    (mm256_srlv_epi64 result (mm256_sub_epi64 (mm256_set1_epi64x 64) rotation))

/-- Each lane computes the mask of its hash. -/
theorem mask_avx2_eq {masks : Vector Byte n} {fullMask : Word} {logNumberMasks : Nat}
    (hlog : logNumberMasks < 64) (hn : 2 ^ logNumberMasks / 8 + 8 ≤ n) (hash : M256i) :
    mask_avx2 masks fullMask logNumberMasks hash =
      .ok (hash.map (rotatedWord masks fullMask logNumberMasks)) := by
  have hid : ∀ h : Word, (h &&& (1#64 <<< logNumberMasks - 1)).toNat =
      h.toNat % 2 ^ logNumberMasks := fun h => toNat_and_lowMask hlog
  have hbyte : ∀ h : Word, ((h &&& (1#64 <<< logNumberMasks - 1)) >>> 3).toNat =
      h.toNat % 2 ^ logNumberMasks / 8 := by
    intro h
    rw [BitVec.toNat_ushiftRight, hid, Nat.shiftRight_eq_div_pow]
  have hshift : ∀ h : Word, (h &&& (1#64 <<< logNumberMasks - 1) &&& 7).toNat =
      h.toNat % 2 ^ logNumberMasks % 8 := by
    intro h
    rw [toNat_and_of_ones (k := 3) rfl, hid]
    rfl
  rw [mask_avx2, gather_ok (g := fun index => bits64 masks index.toNat)]
  · apply congrArg Except.ok
    apply Vector.ext
    intro i hi
    have hlt : hash[i].toNat / 2 ^ logNumberMasks % 64 < 64 := Nat.mod_lt _ (by omega)
    -- The rotation of zero shifts back by 64, which leaves zero in a lane.
    have hback : (64 - ((hash[i] >>> logNumberMasks) &&& 63)).toNat =
        64 - hash[i].toNat / 2 ^ logNumberMasks % 64 := by
      have hle : (hash[i] >>> logNumberMasks) &&& 63 ≤ 64 := by
        rw [BitVec.le_def, toNat_rotation]
        exact Nat.le_of_lt hlt
      rw [BitVec.toNat_sub_of_le hle, toNat_rotation]
      rfl
    simp only [lane_or, lane_sllv, lane_srlv, lane_and, lane_sub, lane_srli, lane_set1,
      Vector.getElem_map]
    simp only [hbyte, hshift, toNat_rotation, hback]
    exact shl_or_shr_eq_rotateLeft hlt
  · intro i hi
    -- The last window starts 8 bytes before the end of the storage at the latest.
    simp only [lane_srli, lane_and, lane_set1, hbyte]
    apply load64_ok
    have := Nat.mod_lt hash[i].toNat (Nat.two_pow_pos logNumberMasks)
    omega

/-- No window starts so late in its byte that the load loses a bit of it. -/
theorem getLsbD_windowWord {masks : Vector Byte n} {fullMask : Word} {bitsPerMask k j : Nat}
    (hbits : bitsPerMask ≤ 57)
    (hfull : ∀ j, j < 64 → fullMask.getLsbD j = decide (j < bitsPerMask)) (hj : j < 64) :
    (windowWord masks fullMask k).getLsbD j =
      (decide (j < bitsPerMask) && bitAt masks.toArray (k + j)) := by
  unfold windowWord
  rw [BitVec.getLsbD_and, hfull j hj, BitVec.getLsbD_ushiftRight, Bool.and_comm]
  -- At most 57 bits behind a shift of at most 7: they fit into the eight loaded bytes.
  by_cases hlt : j < bitsPerMask
  · rw [getLsbD_bits64 _ _ (by omega), show 8 * (k / 8) + (k % 8 + j) = k + j from by omega]
  · simp [hlt]

theorem bitCount_windowWord {masks : Vector Byte n} {fullMask : Word} {bitsPerMask : Nat}
    (hbits : bitsPerMask ≤ 57)
    (hfull : ∀ j, j < 64 → fullMask.getLsbD j = decide (j < bitsPerMask)) (k : Nat) :
    bitCount (windowWord masks fullMask k) = count (bitAt masks.toArray) k bitsPerMask :=
  bitCount_eq_count (by omega) fun _ hj => getLsbD_windowWord hbits hfull hj

theorem bitCount_rotatedWord {masks : Vector Byte n} {fullMask : Word} {bitsPerMask : Nat}
    (hbits : bitsPerMask ≤ 57)
    (hfull : ∀ j, j < 64 → fullMask.getLsbD j = decide (j < bitsPerMask)) (logNumberMasks : Nat)
    (hash : Word) :
    bitCount (rotatedWord masks fullMask logNumberMasks hash) =
      count (bitAt masks.toArray) (hash.toNat % 2 ^ logNumberMasks) bitsPerMask := by
  unfold rotatedWord
  rw [bitCount_rotateLeft (Nat.mod_lt _ (by omega)), bitCount_windowWord hbits hfull]

end lookup

end SlidingMasks

end BloomFilters
