import BloomFilters.BasicBloomFilter
import BloomFilters.BlockedBloomFilter
import BloomFilters.ArrowBloomFilter
import BloomFilters.ImprovedArrowFilter
import BloomFilters.ModifiedArrowBloomFilter

/-! # Sizes of the filters

    Every filter rounds the number of bits that its rows ask for up to a
    power of two: the block filters through `ceil_log2` and a shift, the
    basic filter through the or-ed shifts of `calculate_arrow_equivalent_bits`.

    * **Equal sizes**: the two computations agree, so the benchmark compares
      filters with the same number of bits.
    * **Enough bits**: a block filter has eight bits for each row, as long as
      the product of rows and bits fits into its type.
-/

open BitArray

namespace BloomFilters

open Checked

/-! ## Rounding up -/

/-- The powers of two that reach `n`. -/
def powersFrom (n : Nat) : Set Nat := {p | (∃ k, p = 2 ^ k) ∧ n ≤ p}

theorem isLeast_ceil_log2 (x : Word) : IsLeast (powersFrom x.toNat) (2 ^ ceil_log2 x) := by
  constructor
  · exact ⟨⟨ceil_log2 x, rfl⟩, ceil_log2_le_iff.mp (Nat.le_refl _)⟩
  · intro p hp
    obtain ⟨⟨k, rfl⟩, hle⟩ := hp
    exact Nat.pow_le_pow_right (by decide) (ceil_log2_le_iff.mpr hle)

/-- The blocks of a table have as many bits as the rounded size. -/
theorem bits_ofDesired (desired_num_bits : Word) (h : 512 ≤ desired_num_bits.toNat) :
    64 * (Geometry.ofDesired desired_num_bits h).num_blocks.toNat =
      2 ^ ceil_log2 desired_num_bits := by
  have hge : 9 ≤ ceil_log2 desired_num_bits := le_ceil_log2 h
  have hlog : (Geometry.ofDesired desired_num_bits h).log_num_blocks.toNat =
      ceil_log2 desired_num_bits - 6 := by
    show ((ceil_log2 desired_num_bits : Int) - 6).toNat = _
    omega
  rw [Geometry.toNat_num_blocks, hlog, show 64 = 2 ^ 6 from rfl, ← pow_add,
    Nat.add_sub_cancel' (by omega)]

/-! ## Equal sizes -/

/-- The maximum of the constructors, for rows that the callers let through. -/
theorem toNat_desired {rows_to_insert : Word} (hrows : rows_to_insert.toNat < 2 ^ 61) :
    (std_max 512 (rows_to_insert * 8)).toNat = max 512 (rows_to_insert.toNat * 8) := by
  have hproduct : (rows_to_insert * 8).toNat = rows_to_insert.toNat * 8 := by
    rw [BitVec.toNat_mul]
    exact Nat.mod_eq_of_lt (by simp; omega)
  rw [toNat_std_max, hproduct]
  rfl

/-- The size that `main` gives the basic filter. -/
theorem calculate_arrow_equivalent_bits_main {rows_to_insert : Word}
    (hrows : rows_to_insert.toNat < 2 ^ 60) :
    (calculate_arrow_equivalent_bits rows_to_insert 8 512).toNat =
      2 ^ ceil_log2 (std_max 512 (rows_to_insert * 8)) := by
  have hmax := toNat_desired (show rows_to_insert.toNat < 2 ^ 61 by omega)
  exact calculate_arrow_equivalent_bits_eq (by omega) (by omega)

theorem calculate_arrow_equivalent_bits_range {rows_to_insert : Word}
    (hrows : rows_to_insert.toNat < 2 ^ 60) :
    512 ≤ (calculate_arrow_equivalent_bits rows_to_insert 8 512).toNat ∧
      (calculate_arrow_equivalent_bits rows_to_insert 8 512).toNat ≤ 2 ^ 63 := by
  have hmax := toNat_desired (show rows_to_insert.toNat < 2 ^ 61 by omega)
  have hlog : ceil_log2 (std_max 512 (rows_to_insert * 8)) ≤ 63 :=
    ceil_log2_le_iff.mpr (by omega)
  have hleast := (isLeast_ceil_log2 (std_max 512 (rows_to_insert * 8))).1.2
  rw [calculate_arrow_equivalent_bits_main hrows]
  exact ⟨by omega, Nat.pow_le_pow_right (by decide) hlog⟩

/-- The bytes of the basic filter have exactly the bits that were asked for. -/
theorem basic_bits {num_bits num_hashes : Word} (hle : num_bits.toNat ≤ 2 ^ 63)
    (hdvd : 8 ∣ num_bits.toNat) :
    8 * (BasicBloomFilter.new num_bits num_hashes).bitvector.toArray.size = num_bits.toNat := by
  have hadd : (num_bits + 7).toNat = num_bits.toNat + 7 := by
    rw [BitVec.toNat_add]
    exact Nat.mod_eq_of_lt (by simp; omega)
  rw [Vector.size_toArray]
  show 8 * ((num_bits + 7) / 8).toNat = num_bits.toNat
  -- A multiple of eight is rounded up to itself.
  rw [BitVec.toNat_udiv, hadd]
  show 8 * ((num_bits.toNat + 7) / 8) = num_bits.toNat
  omega

theorem blocked_product {rows_to_insert : BitVec 64} (hrows : rows_to_insert.toNat < 2 ^ 60) :
    BlockedBloomFilter.product rows_to_insert = rows_to_insert.toNat * 8 := by
  unfold BlockedBloomFilter.product
  rw [BitVec.toInt_eq_toNat_of_lt (by omega)]

/-- The blocked filter computes the same size over signed numbers. -/
theorem blocked_desired {rows_to_insert : BitVec 64} (hrows : rows_to_insert.toNat < 2 ^ 60) :
    BitVec.ofInt 64 (max BlockedBloomFilter.min_num_bits
        (BlockedBloomFilter.product rows_to_insert)) = std_max 512 (rows_to_insert * 8) := by
  have hproduct := blocked_product hrows
  have hmin : BlockedBloomFilter.min_num_bits = 512 := rfl
  have hmax := toNat_desired (show rows_to_insert.toNat < 2 ^ 61 by omega)
  -- The signed maximum is not negative, so it is the unsigned one.
  have hcast : max BlockedBloomFilter.min_num_bits (BlockedBloomFilter.product rows_to_insert) =
      ((max 512 (rows_to_insert.toNat * 8) : Nat) : Int) := by
    omega
  rw [hcast, BitVec.ofInt_natCast, ← hmax, BitVec.ofNat_toNat, BitVec.setWidth_eq]

/-- **Equal sizes**: the helper rounds up to the least power of two, and for
    the rows that reach the benchmark that is the size of every filter. -/
theorem equal_sizes :
    (∀ rows_to_insert bits_per_key min_num_bits : Word,
      rows_to_insert.toNat * bits_per_key.toNat < 2 ^ 64 →
      1 ≤ max min_num_bits.toNat (rows_to_insert.toNat * bits_per_key.toNat) →
      max min_num_bits.toNat (rows_to_insert.toNat * bits_per_key.toNat) ≤ 2 ^ 63 →
      IsLeast (powersFrom (max min_num_bits.toNat (rows_to_insert.toNat * bits_per_key.toNat)))
        (calculate_arrow_equivalent_bits rows_to_insert bits_per_key min_num_bits).toNat ∧
      (calculate_arrow_equivalent_bits rows_to_insert bits_per_key min_num_bits).toNat =
        2 ^ ceil_log2 (BitVec.ofNat 64
          (max min_num_bits.toNat (rows_to_insert.toNat * bits_per_key.toNat)))) ∧
    (∀ rows_to_insert : Word, rows_to_insert.toNat < 2 ^ 60 →
      (∀ masks mode, (calculate_arrow_equivalent_bits rows_to_insert 8 512).toNat =
        64 * (ArrowBloomFilter.new masks rows_to_insert mode).num_blocks.toNat) ∧
      (∀ masks mode, (calculate_arrow_equivalent_bits rows_to_insert 8 512).toNat =
        64 * (ImprovedArrowBloomFilter.new masks rows_to_insert mode).num_blocks.toNat) ∧
      (∀ masks mode, (calculate_arrow_equivalent_bits rows_to_insert 8 512).toNat =
        64 * (ModifiedArrowBloomFilter.new masks rows_to_insert mode).num_blocks.toNat) ∧
      Returns (BlockedBloomFilter.new rows_to_insert) (fun f =>
        (calculate_arrow_equivalent_bits rows_to_insert 8 512).toNat =
          64 * f.num_blocks.toNat) ∧
      ∀ num_hashes, (calculate_arrow_equivalent_bits rows_to_insert 8 512).toNat =
        8 * (BasicBloomFilter.new (calculate_arrow_equivalent_bits rows_to_insert 8 512)
          num_hashes).bitvector.toArray.size) := by
  constructor
  · intro rows bits min hproduct hpos hle
    have hmul : (rows * bits).toNat = rows.toNat * bits.toNat := by
      rw [BitVec.toNat_mul, Nat.mod_eq_of_lt hproduct]
    have hmax : (std_max min (rows * bits)).toNat =
        max min.toNat (rows.toNat * bits.toNat) := by
      rw [toNat_std_max, hmul]
    have hbits : (calculate_arrow_equivalent_bits rows bits min).toNat =
        2 ^ ceil_log2 (std_max min (rows * bits)) :=
      calculate_arrow_equivalent_bits_eq (hmax ▸ hpos) (hmax ▸ hle)
    rw [hbits, ← hmax, BitVec.ofNat_toNat, BitVec.setWidth_eq]
    exact ⟨isLeast_ceil_log2 _, rfl⟩
  · intro rows hrows
    have hbits := calculate_arrow_equivalent_bits_main hrows
    have hblocks : ∀ h, (calculate_arrow_equivalent_bits rows 8 512).toNat =
        64 * (Geometry.ofDesired (std_max 512 (rows * 8)) h).num_blocks.toNat := by
      intro h
      rw [hbits, bits_ofDesired]
    refine ⟨fun _ _ => hblocks (ArrowBloomFilter.le_desired_num_bits rows),
      fun _ _ => hblocks (ImprovedArrowBloomFilter.le_desired_num_bits rows),
      fun _ _ => hblocks (ModifiedArrowBloomFilter.le_desired_num_bits rows), ?_, fun n => ?_⟩
    · have hproduct := blocked_product hrows
      have hhi : BlockedBloomFilter.product rows < 2 ^ 63 := by omega
      have hdesired := BlockedBloomFilter.le_desired_num_bits hhi
      rw [BlockedBloomFilter.new_eq (by omega) hhi]
      apply returns_ok
      rw [hbits, ← blocked_desired hrows]
      exact (bits_ofDesired _ hdesired).symm
    · have hrange := calculate_arrow_equivalent_bits_range hrows
      refine (basic_bits hrange.2 ?_).symm
      -- A power of two from 512 on is a multiple of eight.
      rw [hbits, show 8 = 2 ^ 3 from rfl]
      apply Nat.pow_dvd_pow 2
      apply le_ceil_log2
      rw [toNat_desired (by omega)]
      omega

/-- A hundred rows of ten bits, and of the eight that the benchmark uses. -/
theorem equal_sizes_hundred_rows :
    IsLeast (powersFrom 1000) (calculate_arrow_equivalent_bits 100 10 512).toNat ∧
    ∀ masks mode, (calculate_arrow_equivalent_bits 100 8 512).toNat =
      64 * (ArrowBloomFilter.new masks 100 mode).num_blocks.toNat :=
  ⟨(equal_sizes.1 100 10 512 (by decide) (by decide) (by decide)).1,
    (equal_sizes.2 100 (by decide)).1⟩

/-! ## Enough bits -/

/-- The number of blocks is the least power of two that has the minimum of
    512 bits and eight bits for each row, over unbounded integers. -/
def SizedFor (rows : Int) (g : Geometry) : Prop :=
  IsLeast {n : Nat | (∃ k, n = 2 ^ k) ∧ max 512 (8 * rows) ≤ 64 * (n : Int)} g.num_blocks.toNat

/-- The constructors size a table for the maximum that they compute. -/
theorem sizedFor_ofDesired {desired_num_bits : Word} (h : 512 ≤ desired_num_bits.toNat)
    {rows : Int} (hrows : (desired_num_bits.toNat : Int) = max 512 (8 * rows)) :
    SizedFor rows (Geometry.ofDesired desired_num_bits h) := by
  have hbits := bits_ofDesired desired_num_bits h
  have hleast := isLeast_ceil_log2 desired_num_bits
  constructor
  · refine ⟨⟨_, Geometry.toNat_num_blocks _⟩, ?_⟩
    have hreach : desired_num_bits.toNat ≤ 2 ^ ceil_log2 desired_num_bits := hleast.1.2
    omega
  · intro n hn
    obtain ⟨⟨k, rfl⟩, hle⟩ := hn
    -- The same power of two, counted in bits, reaches the maximum.
    have hpow : 2 ^ (6 + k) = 64 * 2 ^ k := by rw [pow_add]; rfl
    have hmem : 2 ^ (6 + k) ∈ powersFrom desired_num_bits.toNat :=
      ⟨⟨6 + k, rfl⟩, by rw [hpow]; omega⟩
    have hmin : 2 ^ ceil_log2 desired_num_bits ≤ 2 ^ (6 + k) := hleast.2 hmem
    omega

/-- The outcome of a constructor with an unsigned parameter: its product is
    the true one, and the table has the bits for it. -/
structure NotUndersized (rows_to_insert product : Word) (g : Geometry) : Prop where
  product_exact : product.toNat = rows_to_insert.toNat * 8
  sized : SizedFor rows_to_insert.toNat g

/-- Once the product wraps, the table is smaller than its rows ask for. -/
theorem undersized_of_wrap {rows_to_insert : Word} (hrows : 2 ^ 61 ≤ rows_to_insert.toNat)
    (h : 512 ≤ (std_max 512 (rows_to_insert * 8)).toNat) :
    64 * (Geometry.ofDesired (std_max 512 (rows_to_insert * 8)) h).num_blocks.toNat <
      8 * rows_to_insert.toNat := by
  have hlog : ceil_log2 (std_max 512 (rows_to_insert * 8)) ≤ 64 := ceil_log2_le_64 _
  have hle : 2 ^ ceil_log2 (std_max 512 (rows_to_insert * 8)) ≤ 2 ^ 64 :=
    Nat.pow_le_pow_right (by decide) hlog
  rw [bits_ofDesired]
  rcases Nat.eq_or_lt_of_le hrows with heq | hlt
  · -- The product is zero, so the filter gets its minimum.
    have hval : rows_to_insert = BitVec.ofNat 64 (2 ^ 61) := BitVec.eq_of_toNat_eq heq.symm
    have hmin : ceil_log2 (std_max 512 (rows_to_insert * 8)) ≤ 9 := by
      rw [hval]
      exact ceil_log2_le_iff.mpr (by decide)
    have hsmall : 2 ^ ceil_log2 (std_max 512 (rows_to_insert * 8)) ≤ 2 ^ 9 :=
      Nat.pow_le_pow_right (by decide) hmin
    omega
  · -- Beyond `2 ^ 61` rows even `2 ^ 64` bits are too few.
    omega

theorem notUndersized_iff {rows_to_insert : Word}
    (h : 512 ≤ (std_max 512 (rows_to_insert * 8)).toNat) :
    NotUndersized rows_to_insert (rows_to_insert * 8)
        (Geometry.ofDesired (std_max 512 (rows_to_insert * 8)) h) ↔
      rows_to_insert.toNat < 2 ^ 61 := by
  constructor
  · intro hsized
    by_contra hge
    -- An exact product would need more bits than the table has.
    have hsmall := undersized_of_wrap (Nat.not_lt.mp hge) h
    have henough : max 512 (8 * (rows_to_insert.toNat : Int)) ≤ 64 *
      ((Geometry.ofDesired (std_max 512 (rows_to_insert * 8)) h).num_blocks.toNat : Int) :=
      hsized.sized.1.2
    omega
  · intro hrows
    have hproduct : (rows_to_insert * 8).toNat = rows_to_insert.toNat * 8 := by
      rw [BitVec.toNat_mul]
      exact Nat.mod_eq_of_lt (by simp; omega)
    have hmax := toNat_desired hrows
    exact ⟨hproduct, sizedFor_ofDesired h (by omega)⟩

/-- The blocked filter, whose product is signed. -/
theorem blocked_sized_iff (rows_to_insert : BitVec 64) :
    Returns (BlockedBloomFilter.new rows_to_insert)
        (fun f => SizedFor rows_to_insert.toInt f.toGeometry) ↔
      -2 ^ 60 ≤ rows_to_insert.toInt ∧ rows_to_insert.toInt < 2 ^ 60 := by
  have hproduct : BlockedBloomFilter.product rows_to_insert = rows_to_insert.toInt * 8 := rfl
  have hmin : BlockedBloomFilter.min_num_bits = 512 := rfl
  constructor
  · intro hreturns
    obtain ⟨f, hf, -⟩ := hreturns
    unfold BlockedBloomFilter.new at hf
    split at hf
    · -- The constructor got past the check of its product.
      next hrange => omega
    · cases hf
  · intro hrange
    have hhi : BlockedBloomFilter.product rows_to_insert < 2 ^ 63 := by omega
    rw [BlockedBloomFilter.new_eq (by omega) hhi]
    refine returns_ok (sizedFor_ofDesired (BlockedBloomFilter.le_desired_num_bits hhi) ?_)
    rw [BitVec.toNat_ofInt, Int.emod_eq_of_lt (by omega) (by omega)]
    omega

/-- **Enough bits**: exactly when the product of rows and bits fits into its
    type. The blocked filter reads the 64 bits as a signed value. -/
theorem enough_bits_iff (rows_to_insert : Word) :
    (∀ masks mode, NotUndersized rows_to_insert (rows_to_insert * ArrowBloomFilter.bitsPerKey)
        (ArrowBloomFilter.new masks rows_to_insert mode).toGeometry ↔
      rows_to_insert.toNat < 2 ^ 61) ∧
    (∀ masks mode, NotUndersized rows_to_insert
        (rows_to_insert * ImprovedArrowBloomFilter.bitsPerKey)
        (ImprovedArrowBloomFilter.new masks rows_to_insert mode).toGeometry ↔
      rows_to_insert.toNat < 2 ^ 61) ∧
    (∀ masks mode, NotUndersized rows_to_insert
        (rows_to_insert * ModifiedArrowBloomFilter.bitsPerKey)
        (ModifiedArrowBloomFilter.new masks rows_to_insert mode).toGeometry ↔
      rows_to_insert.toNat < 2 ^ 61) ∧
    (Returns (BlockedBloomFilter.new rows_to_insert)
        (fun f => SizedFor rows_to_insert.toInt f.toGeometry) ↔
      -2 ^ 60 ≤ rows_to_insert.toInt ∧ rows_to_insert.toInt < 2 ^ 60) :=
  ⟨fun _ _ => notUndersized_iff (ArrowBloomFilter.le_desired_num_bits rows_to_insert),
    fun _ _ => notUndersized_iff (ImprovedArrowBloomFilter.le_desired_num_bits rows_to_insert),
    fun _ _ => notUndersized_iff (ModifiedArrowBloomFilter.le_desired_num_bits rows_to_insert),
    blocked_sized_iff rows_to_insert⟩

/-- `2 ^ 61` rows leave an Arrow filter with 512 bits: the product wraps to zero. -/
theorem arrow_undersized :
    64 * (ArrowBloomFilter.new ⟨Vector.replicate _ 0⟩ (BitVec.ofNat 64 (2 ^ 61))
        .scalar).num_blocks.toNat = 512 ∧
      ¬ NotUndersized (BitVec.ofNat 64 (2 ^ 61))
        (BitVec.ofNat 64 (2 ^ 61) * ArrowBloomFilter.bitsPerKey)
        (ArrowBloomFilter.new ⟨Vector.replicate _ 0⟩ (BitVec.ofNat 64 (2 ^ 61))
          .scalar).toGeometry := by
  have hdesired : ArrowBloomFilter.desired_num_bits (BitVec.ofNat 64 (2 ^ 61)) = 512 := by decide
  have hbits := bits_ofDesired _ (ArrowBloomFilter.le_desired_num_bits (BitVec.ofNat 64 (2 ^ 61)))
  have hlog : ceil_log2 512 = 9 :=
    Nat.le_antisymm (ceil_log2_le_iff.mpr (by decide)) (le_ceil_log2 (by decide))
  constructor
  · apply hbits.trans
    rw [hdesired, hlog]
    rfl
  · intro hsized
    have hexact := hsized.product_exact
    revert hexact
    decide

end BloomFilters
