import BloomFilters.Relabelling
import BloomFilters.Sizes
import BloomFilters.Framework.Balance

/-! # How full a filter gets, and what it then reports

    A filter has eight bits for each row and sets at most five of them for
    one, so that a table built for its rows is never more than five eighths
    full. What it reports follows from the balance of its probe positions:

    * **Load**: the bits set by a history are bounded by the number of
      different hashes that it inserts.
    * **Reports by chance**: the first probe of the basic filter, and any bit
      of a rotated mask, falls on each position for equally many hashes. So
      the fraction of hashes that is reported is at most the fill ratio.
    * **Exact count**: block and mask of a hash are balanced together. The
      number of reported hashes is read off the table.
-/

open Checked BitArray Words Footprint Balance

namespace BloomFilters

/-! ## Load -/

/-- A mask has as many positions as set bits. -/
theorem ncard_wordBits (i : Nat) (m : Word) : (wordBits i m).ncard = bitCount m := by
  have himage : wordBits i m = Set.image (fun j => 64 * i + j) (setBits m : Set Nat) := by
    ext p
    simp only [mem_wordBits, Set.mem_image, Finset.mem_coe, mem_setBits]
    constructor
    · intro hp
      obtain ⟨rfl, hbit⟩ := hp
      exact ⟨p % 64, hbit, Nat.div_add_mod p 64⟩
    · intro hp
      obtain ⟨j, hbit, rfl⟩ := hp
      have hj := BitVec.lt_of_getLsbD hbit
      rw [show (64 * i + j) / 64 = i from by omega, show (64 * i + j) % 64 = j from by omega]
      exact ⟨rfl, hbit⟩
  rw [himage, Set.ncard_image_of_injective _ (fun _ _ h => Nat.add_left_cancel h),
    Set.ncard_coe_finset]
  rfl

theorem finite_bitSet {w : Nat} (hw : 0 < w) (a : Array (BitVec w)) : (bitSet a).Finite := by
  apply (Set.finite_lt_nat (w * a.size)).subset
  intro p hp
  -- Beyond its words an array has no bits.
  have hlt : p / w < a.size := by
    by_contra hge
    have hclear := bitAt_of_ge (Nat.not_lt.mp hge)
    rw [mem_bitSet, hclear] at hp
    cases hp
  exact (Nat.div_lt_iff_lt_mul hw).mp hlt |>.trans_eq (Nat.mul_comm _ _)

section lawful

variable {Impl : Type} [BloomFilter Impl] {w : Nat}

/-- After a history that inserts at most `rows` different hashes, all with
    `ok`, at most `c` of eight bits of the table are set. -/
def LoadAtMost (table : Impl → Array (BitVec w)) (f : Impl) (ok : Word → Prop) (rows c : Nat) :
    Prop :=
  ∀ history : List Op, (∀ h ∈ inserted history, ok h) →
    {h | h ∈ inserted history}.ncard ≤ rows →
    Returns (run f history) fun f' => 8 * (bitSet (table f')).ncard ≤ c * (w * (table f').size)

variable [LawfulBloomFilter Impl]

open LawfulBloomFilter

theorem loadAtMost_of_fresh {f : Impl} {rows c : Nat} (hvalid : Valid (shape f))
    (hfresh : bitSet (table f) = ∅) (hsize : 8 * rows ≤ width Impl * tableSize (shape f))
    (hfoot : ∀ h, HasMask Impl h → (footprint (shape f) h).ncard ≤ c) :
    LoadAtMost table f (HasMask Impl) rows c := by
  intro history hmask hrows
  apply (run_fresh hvalid hfresh hmask).mono
  intro f' hf'
  obtain ⟨hshape, hbits⟩ := hf'
  have hfinite : {h | h ∈ inserted history}.Finite := Set.toFinite _
  -- Each of the different hashes brings at most `c` positions.
  have hload := ncard_occupied_le hfinite fun h hh => hfoot h (hmask h hh)
  rw [hbits, size_table, hshape]
  calc 8 * (occupied (footprint (shape f)) {h | h ∈ inserted history}).ncard
      ≤ 8 * (c * {h | h ∈ inserted history}.ncard) := Nat.mul_le_mul_left 8 hload
    _ ≤ 8 * (c * rows) := Nat.mul_le_mul_left 8 (Nat.mul_le_mul_left c hrows)
    _ = c * (8 * rows) := Nat.mul_left_comm 8 c rows
    _ ≤ c * (width Impl * tableSize (shape f)) := Nat.mul_le_mul_left c hsize

end lawful

section blocks

variable {Impl : Type} [BloomFilter Impl] [BlockFilter Impl]

open BlockFilter

/-- The blocks of a filter sized for its rows have eight bits for each. -/
theorem le_bits_ofDesired {rows_to_insert : Word} (hrows : rows_to_insert.toNat < 2 ^ 61)
    (h : 512 ≤ (std_max 512 (rows_to_insert * 8)).toNat) :
    8 * rows_to_insert.toNat ≤
      64 * (Geometry.ofDesired (std_max 512 (rows_to_insert * 8)) h).num_blocks.toNat := by
  have hreach := (isLeast_ceil_log2 (std_max 512 (rows_to_insert * 8))).1.2
  have hmax := toNat_desired hrows
  rw [bits_ofDesired]
  omega

theorem loadAtMost_of_blocks {f : Impl} {g : Geometry} {rows c : Nat}
    (hnew : toTable f = .ofGeometry g) (hsize : 8 * rows ≤ 64 * g.num_blocks.toNat)
    (hcount : ∀ h, HasMask Impl h → bitCount (maskWord Impl h) ≤ c) :
    LoadAtMost (fun f : Impl => (toTable f).bitvector.toArray) f (HasMask Impl) rows c := by
  apply loadAtMost_of_fresh (valid f) (fresh_of_new hnew)
  · show 8 * rows ≤ 64 * (toTable f).num_blocks.toNat
    rw [hnew]
    exact hsize
  · intro h hh
    show (wordBits _ (maskWord Impl h)).ncard ≤ c
    rw [ncard_wordBits]
    exact hcount h hh

end blocks

namespace BasicBloomFilter

theorem ncard_positions_le (num_bits num_hashes hash : Word) :
    (positions num_bits num_hashes hash).ncard ≤ num_hashes.toNat := by
  have himage : positions num_bits num_hashes hash =
      Set.image (fun i => probeBit hash i num_bits) (Finset.range num_hashes.toNat : Set Nat) := by
    ext p
    simp [positions, eq_comm]
  rw [himage]
  calc (Set.image (fun i => probeBit hash i num_bits) _).ncard
      ≤ (Finset.range num_hashes.toNat : Set Nat).ncard :=
        Set.ncard_image_le (Finset.finite_toSet _)
    _ = num_hashes.toNat := by rw [Set.ncard_coe_finset, Finset.card_range]

/-- The size that `main` gives the basic filter. -/
theorem sized_equivalent {rows_to_insert : Word} (hrows : rows_to_insert.toNat < 2 ^ 60) :
    Sized (calculate_arrow_equivalent_bits rows_to_insert 8 512) := by
  have hrange := calculate_arrow_equivalent_bits_range hrows
  exact ⟨by omega, by omega⟩

/-- Whole bytes have a bit for each position. -/
theorem bytes_bits {num_bits : Word} (hle : num_bits.toNat ≤ 2 ^ 63) (hdvd : 8 ∣ num_bits.toNat) :
    8 * ((num_bits + 7) / 8).toNat = num_bits.toNat := by
  have hsize : 8 * (new num_bits 0).bitvector.toArray.size = num_bits.toNat := basic_bits hle hdvd
  rwa [Vector.size_toArray] at hsize

theorem equivalent_bits {rows_to_insert : Word} (hrows : rows_to_insert.toNat < 2 ^ 60) :
    8 * ((calculate_arrow_equivalent_bits rows_to_insert 8 512 + 7) / 8).toNat =
      2 ^ ceil_log2 (std_max 512 (rows_to_insert * 8)) := by
  have hbits := calculate_arrow_equivalent_bits_main hrows
  have hrange := calculate_arrow_equivalent_bits_range hrows
  have hdvd : 8 ∣ (calculate_arrow_equivalent_bits rows_to_insert 8 512).toNat := by
    have hmax := toNat_desired (show rows_to_insert.toNat < 2 ^ 61 by omega)
    rw [hbits, show 8 = 2 ^ 3 from rfl]
    exact Nat.pow_dvd_pow 2 (le_ceil_log2 (by omega))
  rw [← hbits]
  exact bytes_bits hrange.2 hdvd

theorem loadAtMost {rows_to_insert : Word} (hrows : rows_to_insert.toNat < 2 ^ 60)
    (num_hashes : Word) : LoadAtMost (fun f : BasicBloomFilter => f.bitvector.toArray)
      (new (calculate_arrow_equivalent_bits rows_to_insert 8 512) num_hashes) (fun _ => True)
      rows_to_insert.toNat num_hashes.toNat := by
  apply loadAtMost_of_fresh (valid_new (sized_equivalent hrows) num_hashes)
    (fresh_new _ num_hashes)
  · show 8 * rows_to_insert.toNat ≤
      8 * ((calculate_arrow_equivalent_bits rows_to_insert 8 512 + 7) / 8).toNat
    have hreach := (isLeast_ceil_log2 (std_max 512 (rows_to_insert * 8))).1.2
    have hmax := toNat_desired (show rows_to_insert.toNat < 2 ^ 61 by omega)
    rw [equivalent_bits hrows]
    omega
  · exact fun h _ => ncard_positions_le _ num_hashes h

end BasicBloomFilter

theorem ArrowBloomFilter.loadAtMost {masks : BloomFilterMasks}
    (ht : WindowTable masks.masks masks.mask (mask masks) BloomFilterMasks.bitsPerMask
      BloomFilterMasks.minBitsSet BloomFilterMasks.maxBitsSet BloomFilterMasks.numberMasks)
    {rows_to_insert : Word} (hrows : rows_to_insert.toNat < 2 ^ 61) (mode : ImplMode) :
    LoadAtMost (fun f : ArrowBloomFilter masks => f.bitvector.toArray)
      (new masks rows_to_insert mode) (fun _ => True) rows_to_insert.toNat
      BloomFilterMasks.maxBitsSet := by
  apply loadAtMost_of_blocks rfl (le_bits_ofDesired hrows _)
  intro h _
  obtain ⟨m, hm, -, hle⟩ := ht.rotated_bits h
  rw [mask_eq] at hm
  obtain rfl := Except.ok.inj hm
  exact hle

theorem ImprovedArrowBloomFilter.loadAtMost {masks : ImprovedBloomFilterMasks}
    (ht : WindowTable masks.masks masks.mask (mask masks) ImprovedBloomFilterMasks.bitsPerMask
      ImprovedBloomFilterMasks.minBitsSet ImprovedBloomFilterMasks.maxBitsSet
      ImprovedBloomFilterMasks.numberMasks)
    {rows_to_insert : Word} (hrows : rows_to_insert.toNat < 2 ^ 61) (mode : ImplMode) :
    LoadAtMost (fun f : ImprovedArrowBloomFilter masks => f.bitvector.toArray)
      (new masks rows_to_insert mode) (fun _ => True) rows_to_insert.toNat
      ImprovedBloomFilterMasks.maxBitsSet := by
  apply loadAtMost_of_blocks rfl (le_bits_ofDesired hrows _)
  intro h _
  obtain ⟨m, hm, -, hle⟩ := ht.rotated_bits h
  rw [mask_eq] at hm
  obtain rfl := Except.ok.inj hm
  exact hle

/-- **Load**: filters built for their rows by the constructors, over every mask
    table that these generate. -/
theorem load_bounded :
    (∀ rows_to_insert num_hashes : Word, rows_to_insert.toNat < 2 ^ 60 →
      LoadAtMost (fun f : BasicBloomFilter => f.bitvector.toArray)
        (BasicBloomFilter.new (calculate_arrow_equivalent_bits rows_to_insert 8 512) num_hashes)
        (fun _ => True) rows_to_insert.toNat num_hashes.toNat) ∧
    (∀ rows_to_insert f, rows_to_insert.toNat < 2 ^ 60 →
      BlockedBloomFilter.new rows_to_insert = .ok f →
      LoadAtMost (fun f : BlockedBloomFilter => f.bitvector.toArray) f
        (fun h => ∃ m, BlockedBloomFilter.mask h = .ok m) rows_to_insert.toNat
        BlockedBloomFilter.num_hashes) ∧
    (∀ random fuel storage, Safe (BloomFilterMasks.new random fuel storage) fun masks =>
      ∀ rows_to_insert mode, rows_to_insert.toNat < 2 ^ 61 →
        LoadAtMost (fun f : ArrowBloomFilter masks => f.bitvector.toArray)
          (ArrowBloomFilter.new masks rows_to_insert mode) (fun _ => True) rows_to_insert.toNat
          BloomFilterMasks.maxBitsSet) ∧
    (∀ random fuel, Safe (ImprovedBloomFilterMasks.new random fuel) fun masks =>
      ∀ rows_to_insert mode, rows_to_insert.toNat < 2 ^ 61 →
        LoadAtMost (fun f : ImprovedArrowBloomFilter masks => f.bitvector.toArray)
          (ImprovedArrowBloomFilter.new masks rows_to_insert mode) (fun _ => True)
          rows_to_insert.toNat ImprovedBloomFilterMasks.maxBitsSet) ∧
    (∀ rng fuel, Safe (ModifiedBloomFilterMasks.new rng fuel) fun masks =>
      ∀ rows_to_insert mode, rows_to_insert.toNat < 2 ^ 61 →
        LoadAtMost (fun f : ModifiedArrowBloomFilter masks => f.bitvector.toArray)
          (ModifiedArrowBloomFilter.new masks rows_to_insert mode) (fun _ => True)
          rows_to_insert.toNat ModifiedBloomFilterMasks.bitsPerMask) := by
  refine ⟨fun rows num_hashes hrows => ?_, fun rows f hrows hf => ?_,
    fun random fuel storage => ?_, fun random fuel => ?_, fun rng fuel => ?_⟩
  · exact BasicBloomFilter.loadAtMost hrows num_hashes
  · have hproduct := blocked_product hrows
    have hlo : -2 ^ 63 ≤ BlockedBloomFilter.product rows := by omega
    have hhi : BlockedBloomFilter.product rows < 2 ^ 63 := by omega
    have hdesired := BlockedBloomFilter.le_desired_num_bits hhi
    rw [BlockedBloomFilter.new_eq hlo hhi] at hf
    obtain rfl := Except.ok.inj hf
    apply loadAtMost_of_blocks rfl
    · -- The signed computation arrives at the same number of bits.
      have hbits := bits_ofDesired _ hdesired
      have hreach := (isLeast_ceil_log2 (BitVec.ofInt 64 (max BlockedBloomFilter.min_num_bits
        (BlockedBloomFilter.product rows)))).1.2
      have hmax := congrArg BitVec.toNat (blocked_desired hrows)
      rw [toNat_desired (by omega)] at hmax
      omega
    · intro h hmask
      exact ((BlockedBloomFilter.mask_safe h).1 _ (BlockedBloomFilter.mask_eq hmask)).le
  · apply (BloomFilterMasks.new_spec random fuel storage).mono
    intro masks ht rows mode hrows
    exact ArrowBloomFilter.loadAtMost ht hrows mode
  · apply (ImprovedBloomFilterMasks.new_spec random fuel).mono
    intro masks ht rows mode hrows
    exact ImprovedArrowBloomFilter.loadAtMost ht hrows mode
  · apply ModifiedBloomFilterMasks.new_spec.mono
    intro masks ht rows mode hrows
    apply loadAtMost_of_blocks rfl (le_bits_ofDesired hrows _)
    intro h _
    exact (ht.1 _ _).le

/-- A basic filter for a hundred rows that has been given one hash twice and
    another one once. -/
theorem load_bounded_hundred_rows :
    Returns (run (BasicBloomFilter.new (calculate_arrow_equivalent_bits 100 8 512) 5)
      [.insertBatch #[7, 7], .insert 9]) fun f =>
        8 * (bitSet f.bitvector.toArray).ncard ≤ 5 * (8 * f.bitvector.toArray.size) := by
  apply load_bounded.1 100 5 (by decide) _ (fun _ _ => trivial)
  have hset : {h | h ∈ inserted [.insertBatch #[7, 7], .insert 9]} = ({7, 9} : Set Word) := by
    ext h
    simp [inserted, Op.hashes]
  rw [hset]
  exact (Set.ncard_pair (by decide)).trans_le (by decide)

/-! ## Exact count -/

/-- A block, and low bits of a hash whose mask this block contains. -/
def coveredSlots {n : Nat} (a : Nat) (mask : Word → Comp Word) (bitvector : Vector Word n) :
    Set (Fin n × BitVec a) :=
  {t | ∃ m, mask (t.2.setWidth 64) = .ok m ∧ bitvector[t.1] &&& m = m}

section slots

variable {g : Geometry} {block : Word → Word} {a s : Nat}

theorem Geometry.toNat_topBlock_mod (g : Geometry) (hash : Word) : (g.topBlock hash).toNat =
    hash.toNat / 2 ^ (64 - g.log_num_blocks.toNat) % 2 ^ g.log_num_blocks.toNat := by
  have hlt := g.topBlock_lt hash
  rw [g.toNat_num_blocks, g.toNat_topBlock] at hlt
  rw [g.toNat_topBlock, Nat.mod_eq_of_lt hlt]

/-- Block and low bits of a hash do not overlap, and are balanced together. -/
theorem balanced_slot (ha : a ≤ s) (hs : s + g.log_num_blocks.toNat ≤ 64)
    (hblock : ∀ h, (block h).toNat = h.toNat / 2 ^ s % 2 ^ g.log_num_blocks.toNat)
    (hlt : ∀ h, (block h).toNat < g.num_blocks.toNat) :
    Balanced fun h : Word => (Fin.mk (block h).toNat (hlt h), h.setWidth a) := by
  have hn : ∀ b : BitVec g.log_num_blocks.toNat, b.toNat < g.num_blocks.toNat := by
    intro b
    rw [g.toNat_num_blocks]
    exact b.isLt
  -- The numbers of the blocks are the values of the block bits.
  have hbij : Function.Bijective fun x : BitVec a × BitVec g.log_num_blocks.toNat =>
      (Fin.mk x.2.toNat (hn x.2), x.1) := by
    constructor
    · intro x y hxy
      obtain ⟨hfst, hsnd⟩ := Prod.mk.inj hxy
      exact Prod.ext hsnd (BitVec.eq_of_toNat_eq (Fin.mk.inj hfst))
    · intro y
      have hy : y.1.val < 2 ^ g.log_num_blocks.toNat := g.toNat_num_blocks ▸ y.1.isLt
      refine ⟨(y.2, BitVec.ofNat _ y.1.val), ?_⟩
      apply Prod.ext
      · apply Fin.ext
        show (BitVec.ofNat _ y.1.val).toNat = y.1.val
        rw [BitVec.toNat_ofNat, Nat.mod_eq_of_lt hy]
      · rfl
  have hcomp := (balanced_of_bijective hbij).comp (balanced_fields (w := 64) ha hs)
  have hfun : (fun h : Word => (Fin.mk (block h).toNat (hlt h), h.setWidth a)) =
      (fun x : BitVec a × BitVec g.log_num_blocks.toNat => (Fin.mk x.2.toNat (hn x.2), x.1)) ∘
        fields a s g.log_num_blocks.toNat := by
    funext h
    apply Prod.ext
    · apply Fin.ext
      show (block h).toNat = (h.extractLsb' s _).toNat
      rw [hblock, BitVec.extractLsb'_toNat, Nat.shiftRight_eq_div_pow]
    · apply BitVec.eq_of_getLsbD_eq
      intro i hi
      simp [fields, hi]
  rw [hfun]
  exact hcomp

variable {Impl : Type} [BloomFilter Impl] [BlockFilter Impl]

open BlockFilter

theorem reported_eq {f : Impl} (hall : ∀ h, HasMask Impl h) : reported f =
    {h | Reports (footprint Impl (toTable f).toGeometry) (bitSet (toTable f).bitvector.toArray)
      h} := by
  ext h
  obtain ⟨b, hb, hiff⟩ := contains_spec f h (hall h)
  rw [reported, Set.mem_ofPred_eq, Set.mem_ofPred_eq, Reports, footprint, ← hiff, hb]
  exact Except.ok.injEq b true ▸ Iff.rfl

/-- **Exact count**: each covered slot accounts for the same number of reported
    hashes. -/
theorem ncard_reported_slots {f : Impl} {mask : Word → Comp Word} (hall : ∀ h, HasMask Impl h)
    (hmask : ∀ h, mask h = .ok (maskWord Impl h))
    (hlow : ∀ h, maskWord Impl ((h.setWidth a).setWidth 64) = maskWord Impl h)
    (ha : a ≤ s) (hs : s + (toTable f).log_num_blocks.toNat ≤ 64)
    (hblock : ∀ h, (blockWord Impl (toTable f).toGeometry h).toNat =
      h.toNat / 2 ^ s % 2 ^ (toTable f).log_num_blocks.toNat) :
    (reported f).ncard = 2 ^ (64 - a - (toTable f).log_num_blocks.toNat) *
      (coveredSlots a mask (toTable f).bitvector).ncard := by
  have hslot := balanced_slot ha hs hblock (block_lt (toTable f).toGeometry)
  -- The footprint of a hash depends on its slot only.
  have hcount := ncard_reports_eq hslot (F := footprint Impl (toTable f).toGeometry)
    (G := fun t => wordBits t.1.val (maskWord Impl (t.2.setWidth 64)))
    (fun h => by rw [hlow]; rfl) (bitSet (toTable f).bitvector.toArray)
  have hcovered : {t : Fin (toTable f).num_blocks.toNat × BitVec a |
      Reports (fun t => wordBits t.1.val (maskWord Impl (t.2.setWidth 64)))
        (bitSet (toTable f).bitvector.toArray) t} =
      coveredSlots a mask (toTable f).bitvector := by
    ext t
    rw [Set.mem_ofPred_eq, Reports, ← and_beq_iff t.1.isLt, beq_iff_eq, coveredSlots,
      Set.mem_ofPred_eq, hmask]
    simp
  have hcard : Nat.card (Fin (toTable f).num_blocks.toNat × BitVec a) =
      2 ^ (toTable f).log_num_blocks.toNat * 2 ^ a := by
    rw [Nat.card_prod, Nat.card_fin, (toTable f).toNat_num_blocks, card_bitVec]
  have hwords : 2 ^ 64 = 2 ^ (64 - a - (toTable f).log_num_blocks.toNat) *
      (2 ^ (toTable f).log_num_blocks.toNat * 2 ^ a) := by
    rw [← pow_add, ← pow_add]
    congr 1
    omega
  rw [← reported_eq hall, hcovered, hcard, card_bitVec, hwords] at hcount
  -- The slots cancel.
  have hpos : 0 < 2 ^ (toTable f).log_num_blocks.toNat * 2 ^ a :=
    Nat.mul_pos (Nat.two_pow_pos _) (Nat.two_pow_pos _)
  rw [Nat.mul_comm (2 ^ _)]
  exact Nat.eq_of_mul_eq_mul_right hpos (hcount.trans (Nat.mul_assoc _ _ _).symm)

end slots

/-- Mask id and rotation are in the low 16 bits. -/
theorem rotatedWord_low {n : Nat} {masks : Vector Byte n} {fullMask : Word} (hash : Word) :
    SlidingMasks.rotatedWord masks fullMask 10 ((hash.setWidth 16).setWidth 64) =
      SlidingMasks.rotatedWord masks fullMask 10 hash := by
  have hlow : ((hash.setWidth 16).setWidth 64).toNat = hash.toNat % 2 ^ 16 := by
    rw [BitVec.toNat_setWidth, BitVec.toNat_setWidth]
    exact Nat.mod_eq_of_lt ((Nat.mod_lt _ (Nat.two_pow_pos 16)).trans (by decide))
  have hid : hash.toNat % 2 ^ 16 % 2 ^ 10 = hash.toNat % 2 ^ 10 := by omega
  have hrot : hash.toNat % 2 ^ 16 / 2 ^ 10 % 64 = hash.toNat / 2 ^ 10 % 64 := by omega
  rw [SlidingMasks.rotatedWord, hlow, hid, hrot, SlidingMasks.rotatedWord]

theorem ModifiedBloomFilterMasks.maskWord_low (masks : ModifiedBloomFilterMasks) (hash : Word) :
    masks.maskWord ((hash.setWidth 11).setWidth 64) = masks.maskWord hash := by
  have hlow : ((hash.setWidth 11).setWidth 64).toNat = hash.toNat % 2 ^ 11 := by
    rw [BitVec.toNat_setWidth, BitVec.toNat_setWidth]
    exact Nat.mod_eq_of_lt ((Nat.mod_lt _ (Nat.two_pow_pos 11)).trans (by decide))
  unfold ModifiedBloomFilterMasks.maskWord
  simp only [hlow, logNumberMasks, Nat.mod_mod]

/-- **Exact count** for the three Arrow filters, whatever their tables hold: the
    hashes with one block and one mask are equally many, so the reported hashes
    are counted by the masks that the blocks contain. -/
theorem reported_count :
    (∀ masks (f : ArrowBloomFilter masks), f.log_num_blocks ≤ 48 →
      (reported f).ncard = 2 ^ (48 - f.log_num_blocks.toNat) *
        (coveredSlots 16 (ArrowBloomFilter.mask masks) f.bitvector).ncard) ∧
    (∀ masks (f : ImprovedArrowBloomFilter masks), f.log_num_blocks ≤ 48 →
      (reported f).ncard = 2 ^ (48 - f.log_num_blocks.toNat) *
        (coveredSlots 16 (ImprovedArrowBloomFilter.mask masks) f.bitvector).ncard) ∧
    (∀ masks (f : ModifiedArrowBloomFilter masks), f.log_num_blocks ≤ 53 →
      (reported f).ncard = 2 ^ (53 - f.log_num_blocks.toNat) *
        (coveredSlots 11 (ModifiedArrowBloomFilter.mask masks) f.bitvector).ncard) := by
  refine ⟨fun masks f hk => ?_, fun masks f hk => ?_, fun masks f hk => ?_⟩
  · exact ncard_reported_slots (f := f) (s := 16) (fun _ => trivial)
      (fun h => ArrowBloomFilter.mask_eq h) rotatedWord_low (by omega)
      (show 16 + f.log_num_blocks.toNat ≤ 64 by omega) f.toNat_lowBlock
  · have hge := f.log_ge
    exact ncard_reported_slots (f := f) (s := 64 - f.log_num_blocks.toNat) (fun _ => trivial)
      (fun h => ImprovedArrowBloomFilter.mask_eq h) rotatedWord_low (by omega)
      (show 64 - f.log_num_blocks.toNat + f.log_num_blocks.toNat ≤ 64 by omega)
      f.toNat_topBlock_mod
  · have hge := f.log_ge
    exact ncard_reported_slots (f := f) (s := 64 - f.log_num_blocks.toNat) (fun _ => trivial)
      (fun h => ModifiedArrowBloomFilter.mask_eq h) masks.maskWord_low (by omega)
      (show 64 - f.log_num_blocks.toNat + f.log_num_blocks.toNat ≤ 64 by omega)
      f.toNat_topBlock_mod

/-- A modified filter of eight blocks after a batch, over a table of its
    constructor. -/
theorem reported_count_eight :
    ∃ fuel masks, ∃ f : ModifiedArrowBloomFilter masks,
      ModifiedBloomFilterMasks.new ModifiedBloomFilterMasks.digitDraws fuel = .ok masks ∧
      run (ModifiedArrowBloomFilter.new masks 1 .avx2) [.insertBatch #[1, 2, 3, 4, 5]] = .ok f ∧
      contains f 5 = .ok true ∧ contains f 0x8000000000000005 = .ok false ∧
      (reported f).ncard = 2 ^ 50 *
        (coveredSlots 11 (ModifiedArrowBloomFilter.mask masks) f.bitvector).ncard := by
  obtain ⟨fuel, masks, hmasks⟩ := ModifiedBloomFilterMasks.exists_new_digitDraws
  have hblocks : ∀ h ∈ inserted [.insertBatch #[1, 2, 3, 4, 5]],
      h.toNat / 2 ^ 61 ≠ (0x8000000000000005 : Word).toNat / 2 ^ 61 := by
    simp [inserted, Op.hashes]
  obtain ⟨f, hf, hgeometry, htrue, hfalse⟩ := run_tells_apart
    (f := ModifiedArrowBloomFilter.new masks 1 .avx2) rfl (fun _ => trivial)
    (show (5 : Word) ∈ inserted [.insertBatch #[1, 2, 3, 4, 5]] by decide)
    (ModifiedBloomFilterMasks.filled hmasks 0x8000000000000005)
    fun h hh => Geometry.topBlock_ne _ (hblocks h hh)
  have hlog : f.log_num_blocks = 3 := by
    have hle : ceil_log2 (ModifiedArrowBloomFilter.desired_num_bits 1) ≤ 9 :=
      ceil_log2_le_iff.mpr (by decide)
    have hge : 9 ≤ ceil_log2 (ModifiedArrowBloomFilter.desired_num_bits 1) :=
      le_ceil_log2 (ModifiedArrowBloomFilter.le_desired_num_bits 1)
    have heq : f.log_num_blocks = (ceil_log2 (ModifiedArrowBloomFilter.desired_num_bits 1) : Int) -
      6 := congrArg Geometry.log_num_blocks hgeometry
    omega
  have hcount := reported_count.2.2 masks f (by omega)
  rw [hlog] at hcount
  exact ⟨fuel, masks, f, hmasks, hf, htrue, hfalse, hcount⟩

/-! ## Reports by chance -/

/-- At most as many of all hashes are reported as bits of the table are set. -/
def ReportsByChance {Impl : Type} [BloomFilter Impl] {w : Nat} (table : Impl → Array (BitVec w))
    (f : Impl) : Prop :=
  (reported f).ncard * (w * (table f).size) ≤ (bitSet (table f)).ncard * 2 ^ 64

section rotations

/-- Mask id, block and rotation of a hash. -/
def rotationFields (s k : Nat) (hash : Word) : BitVec 10 × (BitVec k × BitVec 6) :=
  (hash.extractLsb' 0 10, (hash.extractLsb' s k, hash.extractLsb' 10 6))

theorem balanced_rotationFields {s k : Nat} (hs : 16 ≤ s) (hk : s + k ≤ 64) :
    Balanced (rotationFields s k) := by
  apply balanced_of_xor
  · intro t
    obtain ⟨id, block, rotation⟩ := t
    -- Mask id and rotation make up the low 16 bits.
    obtain ⟨low, hlow⟩ := fields_surjective (w := 16) (show 10 ≤ 10 by omega)
      (show 10 + 6 ≤ 16 by omega) (id, rotation)
    obtain ⟨hash, hhash⟩ := fields_surjective (w := 64) hs hk (low, block)
    obtain ⟨hid, hrotation⟩ := Prod.mk.inj hlow
    obtain ⟨hsixteen, hblock⟩ := Prod.mk.inj hhash
    refine ⟨hash, ?_⟩
    rw [← hid, ← hrotation, ← hblock, ← hsixteen, rotationFields,
      BitVec.extractLsb'_extractLsb'_of_le (by omega),
      BitVec.extractLsb'_extractLsb'_of_le (by omega)]
  · intro x y z hxy
    simp only [rotationFields, Prod.mk.injEq] at hxy ⊢
    simp only [BitVec.extractLsb'_xor, hxy, and_self]

/-- Which position of which block a rotation takes the set bit `o` to. -/
def rotatedPosition {k : Nat} (o : BitVec 10 → BitVec 6) (t : BitVec 10 × (BitVec k × BitVec 6)) :
    BitVec k × BitVec 6 :=
  (t.2.1, t.2.2 + o t.1)

theorem balanced_rotatedPosition {s k : Nat} (hs : 16 ≤ s) (hk : s + k ≤ 64)
    (o : BitVec 10 → BitVec 6) :
    Balanced fun hash => rotatedPosition o (rotationFields s k hash) := by
  -- For a fixed mask the rotation only moves its bit.
  apply (balanced_rotationFields hs hk).twist (g := fun id t => (t.1, t.2 + o id))
  intro id
  apply Finite.injective_iff_bijective.mp
  intro x y hxy
  obtain ⟨hblock, hsum⟩ := Prod.mk.inj hxy
  exact Prod.ext hblock ((BitVec.add_left_inj _).mp hsum)

variable {Impl : Type} [BloomFilter Impl] [BlockFilter Impl]

open BlockFilter

theorem reportsByChance_of_rotation {f : Impl} (hall : ∀ h, HasMask Impl h) {s : Nat}
    (hs : 16 ≤ s) (hk : s + (toTable f).log_num_blocks.toNat ≤ 64)
    (hblock : ∀ h, (blockWord Impl (toTable f).toGeometry h).toNat =
      h.toNat / 2 ^ s % 2 ^ (toTable f).log_num_blocks.toNat) {window : Nat → Word}
    (hmask : ∀ h, maskWord Impl h =
      (window (h.toNat % 2 ^ 10)).rotateLeft (h.toNat / 2 ^ 10 % 64))
    (hpos : ∀ h, 0 < bitCount (maskWord Impl h)) :
    ReportsByChance (fun f : Impl => (toTable f).bitvector.toArray) f := by
  -- Every window has a set bit.
  have hset : ∀ id : BitVec 10, ∃ o : BitVec 6, (window id.toNat).getLsbD o.toNat = true := by
    intro id
    have hid : (id.setWidth 64).toNat % 2 ^ 10 = id.toNat := by
      have hlt := id.isLt
      rw [BitVec.toNat_setWidth]
      omega
    have hcount := hpos (id.setWidth 64)
    rw [hmask, bitCount_rotateLeft (Nat.mod_lt _ (by decide)), hid] at hcount
    obtain ⟨i, hi⟩ := Finset.card_pos.mp hcount
    have hbit := mem_setBits.mp hi
    have hlt := BitVec.lt_of_getLsbD hbit
    refine ⟨BitVec.ofNat 6 i, ?_⟩
    rwa [BitVec.toNat_ofNat, Nat.mod_eq_of_lt hlt]
  choose o ho using hset
  have hplace : Function.Injective fun p : BitVec (toTable f).log_num_blocks.toNat × BitVec 6 =>
      p.1.toNat * 64 + p.2.toNat := by
    intro p q hpq
    have hp := p.2.isLt
    have hq := q.2.isLt
    have hsum : p.1.toNat * 64 + p.2.toNat = q.1.toNat * 64 + q.2.toNat := hpq
    exact Prod.ext (BitVec.eq_of_toNat_eq (by omega)) (BitVec.eq_of_toNat_eq (by omega))
  have hcount := ncard_reports_le (balanced_rotatedPosition hs hk o) hplace
    (F := footprint Impl (toTable f).toGeometry) ?_
    (finite_bitSet (show 0 < 64 by decide) (toTable f).bitvector.toArray)
  · rw [← reported_eq hall, card_bitVec, Nat.card_prod, card_bitVec, card_bitVec] at hcount
    show (reported f).ncard * (64 * (toTable f).bitvector.toArray.size) ≤ _
    rw [Vector.size_toArray, (toTable f).toNat_num_blocks, Nat.mul_comm 64]
    exact hcount
  · intro h
    have hid : (h.extractLsb' 0 10).toNat = h.toNat % 2 ^ 10 := by
      rw [BitVec.extractLsb'_toNat, Nat.shiftRight_zero]
    have hrotation : (h.extractLsb' 10 6).toNat = h.toNat / 2 ^ 10 % 64 := by
      rw [BitVec.extractLsb'_toNat, Nat.shiftRight_eq_div_pow]
    have hlt := (h.extractLsb' 10 6 + o (h.extractLsb' 0 10)).isLt
    have hblockbits : (h.extractLsb' s (toTable f).log_num_blocks.toNat).toNat =
        (blockWord Impl (toTable f).toGeometry h).toNat := by
      rw [hblock, BitVec.extractLsb'_toNat, Nat.shiftRight_eq_div_pow]
    -- The rotation takes bit `o` of the window to this position of the block.
    have hbit := getLsbD_rotateLeft_add (x := window (h.toNat % 2 ^ 10))
      (Nat.mod_lt (h.toNat / 2 ^ 10) (show 0 < 64 by decide)) (o (h.extractLsb' 0 10)).isLt
    rw [← hid, ho, hid, ← hmask] at hbit
    show _ * 64 + _ ∈ wordBits _ _
    rw [mem_wordBits, rotatedPosition, rotationFields, hblockbits]
    constructor
    · omega
    · rw [Nat.mul_add_mod', Nat.mod_eq_of_lt hlt, BitVec.toNat_add, hrotation, Nat.add_comm]
      exact hbit

end rotations

namespace BasicBloomFilter

/-- The first probe of a filter with a power of two of bits. -/
theorem reportsByChance {f : BasicBloomFilter} {k : Nat} (hbits : f.num_bits.toNat = 2 ^ k)
    (hk : 3 ≤ k) (hhashes : 0 < f.num_hashes.toNat) :
    ReportsByChance (fun f : BasicBloomFilter => f.bitvector.toArray) f := by
  have hk64 : k < 64 := by
    apply (Nat.pow_lt_pow_iff_right (show 1 < 2 by decide)).mp
    rw [← hbits]
    exact f.num_bits.isLt
  have hle : 2 ^ k ≤ 2 ^ 63 := Nat.pow_le_pow_right (by decide) (by omega)
  have hsized : Sized f.num_bits := ⟨hbits ▸ Nat.one_le_two_pow, by omega⟩
  have hpos : Balanced fun h : Word => (probeWord 0 h).setWidth k :=
    (balanced_setWidth hk64.le).comp (balanced_of_bijective (probeWord_bijective 0))
  have hcount := ncard_reports_le hpos (fun _ _ h => BitVec.eq_of_toNat_eq h)
    (F := positions f.num_bits f.num_hashes) ?_
    (finite_bitSet (show 0 < 8 by decide) f.bitvector.toArray)
  · have hreported : reported f =
        {h | Reports (positions f.num_bits f.num_hashes) (bitSet f.bitvector.toArray) h} := by
      ext h
      obtain ⟨b, hb, hiff⟩ := @containsImpl_spec f h hsized
      rw [reported, Set.mem_ofPred_eq, Set.mem_ofPred_eq, Reports, ← hiff]
      show f.containsImpl h = .ok true ↔ _
      rw [hb, Except.ok.injEq]
    have hdvd : 8 ∣ f.num_bits.toNat := hbits ▸ Nat.pow_dvd_pow 2 hk
    rw [← hreported, card_bitVec, card_bitVec, ← hbits] at hcount
    show (reported f).ncard * (8 * f.bitvector.toArray.size) ≤ _
    rw [Vector.size_toArray, bytes_bits (by omega) hdvd]
    exact hcount
  · intro h
    refine ⟨0, hhashes, ?_⟩
    show ((probeWord 0 h).setWidth k).toNat = (probeWord 0 h).toNat % f.num_bits.toNat
    rw [BitVec.toNat_setWidth, hbits]

end BasicBloomFilter

theorem ArrowBloomFilter.reportsByChance {masks : BloomFilterMasks}
    (ht : WindowTable masks.masks masks.mask (ArrowBloomFilter.mask masks)
      BloomFilterMasks.bitsPerMask BloomFilterMasks.minBitsSet BloomFilterMasks.maxBitsSet
      BloomFilterMasks.numberMasks) {f : ArrowBloomFilter masks} (hk : f.log_num_blocks ≤ 48) :
    ReportsByChance (fun f : ArrowBloomFilter masks => f.bitvector.toArray) f :=
  reportsByChance_of_rotation (f := f) (s := 16) (fun _ => trivial) (by decide)
    (show 16 + f.log_num_blocks.toNat ≤ 64 by omega) f.toNat_lowBlock (fun _ => rfl)
    (fun h => ht.bitCount_pos (by decide) (ArrowBloomFilter.mask_eq h))

theorem ImprovedArrowBloomFilter.reportsByChance {masks : ImprovedBloomFilterMasks}
    (ht : WindowTable masks.masks masks.mask (ImprovedArrowBloomFilter.mask masks)
      ImprovedBloomFilterMasks.bitsPerMask ImprovedBloomFilterMasks.minBitsSet
      ImprovedBloomFilterMasks.maxBitsSet ImprovedBloomFilterMasks.numberMasks)
    {f : ImprovedArrowBloomFilter masks} (hk : f.log_num_blocks ≤ 48) :
    ReportsByChance (fun f : ImprovedArrowBloomFilter masks => f.bitvector.toArray) f := by
  have hge := f.log_ge
  exact reportsByChance_of_rotation (f := f) (s := 64 - f.log_num_blocks.toNat)
    (fun _ => trivial) (by omega)
    (show 64 - f.log_num_blocks.toNat + f.log_num_blocks.toNat ≤ 64 by omega)
    f.toNat_topBlock_mod (fun _ => rfl)
    (fun h => ht.bitCount_pos (by decide) (ImprovedArrowBloomFilter.mask_eq h))

/-- **Reports by chance**: whatever a filter holds, the fraction of all hashes
    that it reports is at most the fraction of its bits that are set. -/
theorem reported_le_fill_ratio :
    (∀ (f : BasicBloomFilter) k, f.num_bits.toNat = 2 ^ k → 3 ≤ k → 0 < f.num_hashes.toNat →
      ReportsByChance (fun f : BasicBloomFilter => f.bitvector.toArray) f) ∧
    (∀ random fuel storage, Safe (BloomFilterMasks.new random fuel storage) fun masks =>
      ∀ f : ArrowBloomFilter masks, f.log_num_blocks ≤ 48 →
        ReportsByChance (fun f : ArrowBloomFilter masks => f.bitvector.toArray) f) ∧
    (∀ random fuel, Safe (ImprovedBloomFilterMasks.new random fuel) fun masks =>
      ∀ f : ImprovedArrowBloomFilter masks, f.log_num_blocks ≤ 48 →
        ReportsByChance (fun f : ImprovedArrowBloomFilter masks => f.bitvector.toArray) f) := by
  refine ⟨fun f k => BasicBloomFilter.reportsByChance, fun random fuel storage => ?_,
    fun random fuel => ?_⟩
  · exact (BloomFilterMasks.new_spec random fuel storage).mono fun masks ht f =>
      ArrowBloomFilter.reportsByChance ht
  · exact (ImprovedBloomFilterMasks.new_spec random fuel).mono fun masks ht f =>
      ImprovedArrowBloomFilter.reportsByChance ht

/-- A basic filter of 256 bits. -/
theorem reported_le_fill_ratio_256 :
    (reported (BasicBloomFilter.new 256 3)).ncard *
        (8 * (BasicBloomFilter.new 256 3).bitvector.toArray.size) ≤
      (bitSet (BasicBloomFilter.new 256 3).bitvector.toArray).ncard * 2 ^ 64 :=
  reported_le_fill_ratio.1 (BasicBloomFilter.new 256 3) 8 (by decide) (by decide) (by decide)

/-! ## Whole runs -/

/-- After a history that inserts at most `rows` different hashes, at most `c`
    of eight hashes are reported. -/
def ReportsAtMost {Impl : Type} [BloomFilter Impl] (f : Impl) (rows c : Nat) : Prop :=
  ∀ history : List Op, {h | h ∈ inserted history}.ncard ≤ rows →
    Returns (run f history) fun f' => 8 * (reported f').ncard ≤ c * 2 ^ 64

/-- Load and chance together. -/
theorem reportsAtMost_of_load {Impl : Type} [BloomFilter Impl] {w rows c : Nat}
    {table : Impl → Array (BitVec w)} {f : Impl}
    (hload : LoadAtMost table f (fun _ => True) rows c)
    (hchance : ∀ history, Returns (run f history) fun f' =>
      0 < w * (table f').size ∧ ReportsByChance table f') : ReportsAtMost f rows c := by
  intro history hrows
  obtain ⟨f', hf', hbits⟩ := hload history (fun _ _ => trivial) hrows
  obtain ⟨f'', hf'', hpos, hreported⟩ := hchance history
  rw [hf'] at hf''
  obtain rfl := Except.ok.inj hf''
  rw [hf']
  apply returns_ok
  -- `8 * reported * size ≤ 8 * set * 2 ^ 64 ≤ c * size * 2 ^ 64`
  apply Nat.le_of_mul_le_mul_right _ hpos
  calc 8 * (reported f').ncard * (w * (table f').size)
      = 8 * ((reported f').ncard * (w * (table f').size)) := Nat.mul_assoc _ _ _
    _ ≤ 8 * ((bitSet (table f')).ncard * 2 ^ 64) := Nat.mul_le_mul_left 8 hreported
    _ = 8 * (bitSet (table f')).ncard * 2 ^ 64 := (Nat.mul_assoc _ _ _).symm
    _ ≤ c * (w * (table f').size) * 2 ^ 64 := Nat.mul_le_mul_right _ hbits
    _ = c * 2 ^ 64 * (w * (table f').size) := Nat.mul_right_comm _ _ _

section blocks

variable {Impl : Type} [BloomFilter Impl] [BlockFilter Impl]

open BlockFilter

/-- A block filter that reports by chance in every state of its geometry. -/
theorem chance_of_blocks {f : Impl} {g : Geometry} (hnew : toTable f = .ofGeometry g)
    (hall : ∀ h, HasMask Impl h)
    (hchance : ∀ f' : Impl, (toTable f').toGeometry = g →
      ReportsByChance (fun f : Impl => (toTable f).bitvector.toArray) f') (history : List Op) :
    Returns (run f history) fun f' => 0 < 64 * (toTable f').bitvector.toArray.size ∧
      ReportsByChance (fun f : Impl => (toTable f).bitvector.toArray) f' := by
  apply (run_ofGeometry hnew fun h _ => hall h).mono
  intro f' hf'
  refine ⟨?_, hchance f' hf'.1⟩
  rw [Vector.size_toArray, (toTable f').toNat_num_blocks]
  exact Nat.mul_pos (by decide) (Nat.two_pow_pos _)

/-- Up to `2 ^ 51` rows the block index fits above the low 16 bits. -/
theorem log_ofDesired_le {rows_to_insert : Word} (hrows : rows_to_insert.toNat ≤ 2 ^ 51)
    (h : 512 ≤ (std_max 512 (rows_to_insert * 8)).toNat) :
    (Geometry.ofDesired (std_max 512 (rows_to_insert * 8)) h).log_num_blocks ≤ 48 := by
  have hmax := toNat_desired (show rows_to_insert.toNat < 2 ^ 61 by omega)
  have hlog : ceil_log2 (std_max 512 (rows_to_insert * 8)) ≤ 54 :=
    ceil_log2_le_iff.mpr (by omega)
  show (ceil_log2 (std_max 512 (rows_to_insert * 8)) : Int) - 6 ≤ 48
  omega

end blocks

/-- **Reports after a run**: filters built for their rows, whatever these are
    and however they were inserted, report at most five of eight hashes. -/
theorem reported_at_most :
    (∀ rows_to_insert num_hashes : Word, rows_to_insert.toNat < 2 ^ 60 → 0 < num_hashes.toNat →
      ReportsAtMost
        (BasicBloomFilter.new (calculate_arrow_equivalent_bits rows_to_insert 8 512) num_hashes)
        rows_to_insert.toNat num_hashes.toNat) ∧
    (∀ random fuel storage, Safe (BloomFilterMasks.new random fuel storage) fun masks =>
      ∀ rows_to_insert mode, rows_to_insert.toNat ≤ 2 ^ 51 →
        ReportsAtMost (ArrowBloomFilter.new masks rows_to_insert mode) rows_to_insert.toNat 5) ∧
    (∀ random fuel, Safe (ImprovedBloomFilterMasks.new random fuel) fun masks =>
      ∀ rows_to_insert mode, rows_to_insert.toNat ≤ 2 ^ 51 →
        ReportsAtMost (ImprovedArrowBloomFilter.new masks rows_to_insert mode)
          rows_to_insert.toNat 5) := by
  refine ⟨fun rows num_hashes hrows hhashes => ?_, fun random fuel storage => ?_,
    fun random fuel => ?_⟩
  · have hsized := BasicBloomFilter.sized_equivalent hrows
    have hbits := calculate_arrow_equivalent_bits_main hrows
    apply reportsAtMost_of_load (BasicBloomFilter.loadAtMost hrows num_hashes)
    intro history
    apply (run_spec _ history (BasicBloomFilter.valid_new hsized num_hashes)
      fun _ _ => trivial).mono
    intro f' hf'
    obtain ⟨hnum_bits, hnum_hashes⟩ := Prod.mk.inj hf'.1
    have hmax := toNat_desired (show rows.toNat < 2 ^ 61 by omega)
    have hlog : 3 ≤ ceil_log2 (std_max 512 (rows * 8)) := le_ceil_log2 (by omega)
    constructor
    · show 0 < 8 * f'.bitvector.toArray.size
      rw [Vector.size_toArray, hnum_bits]
      exact (BasicBloomFilter.equivalent_bits hrows).symm ▸ Nat.two_pow_pos _
    · exact BasicBloomFilter.reportsByChance (hnum_bits.symm ▸ hbits) hlog
        (hnum_hashes.symm ▸ hhashes)
  · apply (BloomFilterMasks.new_spec random fuel storage).mono
    intro masks ht rows mode hrows
    apply reportsAtMost_of_load (ArrowBloomFilter.loadAtMost ht (by omega) mode)
    apply chance_of_blocks rfl (fun _ => trivial)
    intro f' hf'
    have hgeometry : f'.toGeometry = _ := hf'
    apply ArrowBloomFilter.reportsByChance ht
    rw [hgeometry]
    exact log_ofDesired_le hrows _
  · apply (ImprovedBloomFilterMasks.new_spec random fuel).mono
    intro masks ht rows mode hrows
    apply reportsAtMost_of_load (ImprovedArrowBloomFilter.loadAtMost ht (by omega) mode)
    apply chance_of_blocks rfl (fun _ => trivial)
    intro f' hf'
    have hgeometry : f'.toGeometry = _ := hf'
    apply ImprovedArrowBloomFilter.reportsByChance ht
    rw [hgeometry]
    exact log_ofDesired_le hrows _

/-- A basic filter for a hundred rows, after two of them. -/
theorem reported_at_most_hundred_rows :
    Returns (run (BasicBloomFilter.new (calculate_arrow_equivalent_bits 100 8 512) 5)
      [.insertBatch #[7, 7], .insert 9]) fun f => 8 * (reported f).ncard ≤ 5 * 2 ^ 64 := by
  apply reported_at_most.1 100 5 (by decide) (by decide)
  have hset : {h | h ∈ inserted [.insertBatch #[7, 7], .insert 9]} = ({7, 9} : Set Word) := by
    ext h
    simp [inserted, Op.hashes]
  rw [hset]
  exact (Set.ncard_pair (by decide)).trans_le (by decide)

end BloomFilters
