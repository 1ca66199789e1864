import BloomFilters.Histories
import BloomFilters.MaskTables
import Mathlib.Data.FinEnum

/-! # The improved filter is the Arrow filter, relabelled

    `ImprovedArrowBloomFilter` takes the block index from the top of the
    hash, `ArrowBloomFilter` from the bits above mask id and rotation. Moving
    the upper bits of a hash down to where the Arrow filter looks for them
    is a bijection, and under it the two filters store and report the same.

    * **Tables**: both constructors build the same bytes.
    * **Hashes**: `relabel` keeps mask and rotation and turns the top block
      into the low one.
    * **Filters**: the footprints agree, hence tables, answers and the number
      of false positives.
-/

open Checked BitArray Words Lanes Footprint

namespace BloomFilters

open SlidingMasks

/-! ## The relabelling of hashes -/

/-- Keeps the low 16 bits and rotates the upper 48 bits right by `48 - k`. -/
def relabel (k : Nat) (hash : Word) : Word :=
  ((hash.extractLsb' 16 48).rotateRight (48 - k)) ++ (hash.extractLsb' 0 16)

theorem getLsbD_relabel_low {k i : Nat} (hash : Word) (hi : i < 16) :
    (relabel k hash).getLsbD i = hash.getLsbD i := by
  unfold relabel
  rw [BitVec.getLsbD_append]
  simp [hi]

theorem getLsbD_relabel_high {k : Nat} (hash : Word) (i : Nat) :
    (relabel k hash).getLsbD (16 + i) =
      ((hash.extractLsb' 16 48).rotateRight (48 - k)).getLsbD i := by
  unfold relabel
  rw [BitVec.getLsbD_append]
  simp

/-- The bits of the top block arrive where the Arrow filter reads its own. -/
theorem getLsbD_relabel_block {k i : Nat} (hash : Word) (hk : k ≤ 48) (hi : i < k) :
    (relabel k hash).getLsbD (16 + i) = hash.getLsbD (64 - k + i) := by
  have hidx : (i + (48 - k)) % 48 = i + (48 - k) := Nat.mod_eq_of_lt (by omega)
  have hlt : i + (48 - k) < 48 := by omega
  rw [getLsbD_relabel_high, getLsbD_rotateRight_eq (by omega) (by omega), hidx,
    BitVec.getLsbD_extractLsb', show 16 + (i + (48 - k)) = 64 - k + i from by omega]
  simp [hlt]

theorem relabel_injective {k : Nat} (hk : 0 < k) : Function.Injective (relabel k) := by
  intro h h' heq
  -- The low bits stay in place.
  have hlow : ∀ i, i < 16 → h.getLsbD i = h'.getLsbD i := by
    intro i hi
    rw [← getLsbD_relabel_low h hi, heq, getLsbD_relabel_low h' hi]
  -- The upper 48 bits are rotated, and a rotation can be undone.
  have hhigh : h.extractLsb' 16 48 = h'.extractLsb' 16 48 := by
    apply rotateRight_injective (show 48 - k < 48 from by omega)
    apply BitVec.eq_of_getLsbD_eq
    intro i _
    rw [← getLsbD_relabel_high, heq, getLsbD_relabel_high]
  apply BitVec.eq_of_getLsbD_eq
  intro i hi
  rcases Nat.lt_or_ge i 16 with hlt | hge
  · exact hlow i hlt
  · have hbit := congrArg (fun x : BitVec 48 => x.getLsbD (i - 16)) hhigh
    have hlt : i - 16 < 48 := by omega
    have hidx : 16 + (i - 16) = i := by omega
    simpa [hlt, hidx] using hbit

theorem relabel_bijective {k : Nat} (hk : 0 < k) : Function.Bijective (relabel k) :=
  Finite.injective_iff_bijective.mp (relabel_injective hk)

theorem relabel_mod (k : Nat) (hash : Word) :
    (relabel k hash).toNat % 2 ^ 16 = hash.toNat % 2 ^ 16 := by
  apply Nat.eq_of_testBit_eq
  intro i
  rw [Nat.testBit_mod_two_pow, Nat.testBit_mod_two_pow, BitVec.testBit_toNat,
    BitVec.testBit_toNat]
  by_cases hi : i < 16
  · rw [getLsbD_relabel_low hash hi]
  · simp [hi]

/-- The top block of a hash is the low block of its new label. -/
theorem lowBlock_relabel (g : Geometry) (hk : g.log_num_blocks ≤ 48) (hash : Word) :
    g.lowBlock (relabel g.log_num_blocks.toNat hash) = g.topBlock hash := by
  have := g.log_ge
  apply BitVec.eq_of_toNat_eq
  apply Nat.eq_of_testBit_eq
  intro i
  rw [g.toNat_lowBlock, g.toNat_topBlock, Nat.testBit_mod_two_pow, Nat.testBit_div_two_pow,
    Nat.testBit_div_two_pow, BitVec.testBit_toNat, BitVec.testBit_toNat]
  by_cases hi : i < g.log_num_blocks.toNat
  · rw [Nat.add_comm i 16, getLsbD_relabel_block hash (by omega) hi, Nat.add_comm i]
    simp [hi]
  · -- Bits from `k` on are cut off on the left and beyond the word on the right.
    rw [BitVec.getLsbD_of_ge hash _ (by omega)]
    simp [hi]

/-- A mask depends on the bytes of the table only. -/
theorem rotatedWord_congr {n m : Nat} {masks : Vector Byte n} {masks' : Vector Byte m}
    (h : masks.toArray = masks'.toArray) (fullMask : Word) (logNumberMasks : Nat) (hash : Word) :
    rotatedWord masks fullMask logNumberMasks hash =
      rotatedWord masks' fullMask logNumberMasks hash := by
  simp only [rotatedWord, windowWord, bits64, h]

/-- Mask id and rotation are the low 16 bits. -/
theorem rotatedWord_relabel {n : Nat} {masks : Vector Byte n} {fullMask : Word} (k : Nat)
    (hash : Word) :
    rotatedWord masks fullMask 10 (relabel k hash) = rotatedWord masks fullMask 10 hash := by
  -- `10 + 6 = 16`: both parts are read from the bits that stay.
  have hid : ∀ x : Nat, x % 2 ^ 10 = x % 2 ^ 16 % 2 ^ 10 := fun x => by omega
  have hrot : ∀ x : Nat, x / 2 ^ 10 % 64 = x % 2 ^ 16 / 2 ^ 10 := fun x => by omega
  rw [rotatedWord, hid, hrot, relabel_mod, ← hid, ← hrot, rotatedWord]

/-! ## Two filters with one footprint -/

/-- The history with other hashes. -/
def Op.relabel (σ : Word → Word) : Op → Op
  | .insert hash => .insert (σ hash)
  | .insertBatch hash_array => .insertBatch (hash_array.map σ)

theorem inserted_relabel (σ : Word → Word) (history : List Op) :
    inserted (history.map (Op.relabel σ)) = (inserted history).map σ := by
  induction history with
  | nil => rfl
  | cons op history ih =>
    have hop : (op.relabel σ).hashes = op.hashes.map σ := by
      cases op with
      | insert hash => rfl
      | insertBatch hash_array => simp [Op.relabel, Op.hashes]
    simp only [inserted, List.map_cons, List.flatMap_cons, List.map_append, hop] at ih ⊢
    rw [ih]

/-- The hashes that a filter reports. -/
def reported {Impl : Type} [BloomFilter Impl] (f : Impl) : Set Word := {h | contains f h = .ok true}

/-- The hashes that a filter reports after a history that does not insert
    them. -/
def falsePositives {Impl : Type} [BloomFilter Impl] (f : Impl) (history : List Op) : Set Word :=
  {h | h ∉ inserted history ∧ contains f h = .ok true}

/-- After every history `g` holds the table of `f`, and gives the new label
    of a hash the answer that `f` gives the hash. -/
def SameUpTo {Impl Impl' : Type} [BloomFilter Impl] [BloomFilter Impl'] (σ : Word → Word)
    (table : Impl → Array Word) (table' : Impl' → Array Word) (f : Impl) (g : Impl') : Prop :=
  ∀ history : List Op, Returns (run f history) fun f' =>
    Returns (run g (history.map (Op.relabel σ))) fun g' =>
      table f' = table' g' ∧
      (∀ h, Returns (contains f' h) fun b => contains g' (σ h) = .ok b) ∧
      (reported f').ncard = (reported g').ncard ∧
      (falsePositives f' history).ncard =
        (falsePositives g' (history.map (Op.relabel σ))).ncard

section blocks

variable {Impl Impl' : Type} [BloomFilter Impl] [BlockFilter Impl] [BloomFilter Impl']
         [BlockFilter Impl'] {f : Impl} {f' : Impl'} {σ : Word → Word}

open BlockFilter

/-- Two fresh filters of one geometry whose footprints agree up to `σ`. -/
theorem sameUpTo_of_footprint {g : Geometry} (hf : toTable f = .ofGeometry g)
    (hf' : toTable f' = .ofGeometry g) (hmask : ∀ h, HasMask Impl h)
    (hmask' : ∀ h, HasMask Impl' h) (hσ : Function.Bijective σ)
    (hfoot : ∀ h, footprint Impl' g (σ h) = footprint Impl g h) :
    SameUpTo σ (fun f : Impl => (toTable f).bitvector.toArray)
      (fun f : Impl' => (toTable f).bitvector.toArray) f f' := by
  intro history
  -- The second history inserts the image of the first.
  have hset : {h | h ∈ inserted (history.map (Op.relabel σ))} =
      Set.image σ {h | h ∈ inserted history} := by
    ext h
    simp [inserted_relabel]
  apply (run_ofGeometry hf fun h _ => hmask h).mono
  intro f₁ hf₁
  apply (run_ofGeometry hf' fun h _ => hmask' h).mono
  intro f₁' hf₁'
  obtain ⟨hshape, hbits⟩ := hf₁
  obtain ⟨hshape', hbits'⟩ := hf₁'
  have hstored : bitSet (toTable f₁).bitvector.toArray =
      bitSet (toTable f₁').bitvector.toArray := by
    rw [hbits, hbits', hset, occupied_image hfoot]
  have hanswer : ∀ h, Returns (contains f₁ h) fun b => contains f₁' (σ h) = .ok b := by
    intro h
    apply (contains_reports hshape (hmask h)).mono
    intro b hb
    obtain ⟨b', hb', hiff⟩ := contains_reports hshape' (hmask' (σ h))
    have hsame : b' = true ↔ b = true := by
      rw [hiff, hb, ← hstored, reports_relabel hfoot]
    rw [hb', Bool.eq_iff_iff.mpr hsame]
  -- The answers agree, so `σ` maps the reported hashes onto each other.
  have hreport : ∀ h, contains f₁' (σ h) = .ok true ↔ contains f₁ h = .ok true := by
    intro h
    obtain ⟨b, hb, hb'⟩ := hanswer h
    rw [hb, hb']
  refine ⟨?_, hanswer, ncard_relabel hσ hreport, ncard_relabel hσ fun h => ?_⟩
  · refine eq_of_bitSet ?_ hstored
    rw [Vector.size_toArray, Vector.size_toArray, hshape, hshape']
  · rw [hreport, inserted_relabel, List.mem_map_of_injective hσ.injective]

end blocks

/-! ## Result -/

/-- The two constructors run the same steps on the same zeroed storage. -/
theorem new_masks_eq (random : RandomDraws) (fuel : Nat)
    (storage : Vector Byte BloomFilterMasks.totalBytes) :
    (·.masks.toArray) <$> ImprovedBloomFilterMasks.new random fuel =
      (·.masks.toArray) <$> BloomFilterMasks.new random fuel storage := by
  -- `memset` makes of any storage what the other constructor starts with.
  have hzero : storage.map (fun _ => (0 : Byte)) = Vector.replicate _ 0 := by
    apply Vector.ext
    intro i hi
    simp
  have hbytes : ∀ table : Comp (Vector Byte BloomFilterMasks.totalBytes),
      (·.masks.toArray) <$> (table >>= fun m => .ok (⟨m⟩ : ImprovedBloomFilterMasks)) =
        (·.masks.toArray) <$> (table >>= fun m => .ok (⟨m⟩ : BloomFilterMasks)) := by
    intro table
    cases table <;> rfl
  unfold ImprovedBloomFilterMasks.new BloomFilterMasks.new
  rw [hzero]
  exact hbytes _

/-- The positions of a hash in the improved filter are those of its new label
    in the Arrow filter. -/
theorem footprint_relabel {masks : ImprovedBloomFilterMasks} {masks' : BloomFilterMasks}
    (hmasks : masks.masks.toArray = masks'.masks.toArray) {g : Geometry}
    (hk : g.log_num_blocks ≤ 48) (h : Word) :
    BlockFilter.footprint (ArrowBloomFilter masks') g (relabel g.log_num_blocks.toNat h) =
      BlockFilter.footprint (ImprovedArrowBloomFilter masks) g h := by
  have hblock : g.lowBlock (relabel g.log_num_blocks.toNat h) = g.topBlock h :=
    lowBlock_relabel g hk h
  have hmask : ArrowBloomFilter.maskWord masks' (relabel g.log_num_blocks.toNat h) =
      ImprovedArrowBloomFilter.maskWord masks h :=
    (rotatedWord_relabel _ h).trans (rotatedWord_congr hmasks.symm _ _ h)
  show wordBits (g.lowBlock _).toNat (ArrowBloomFilter.maskWord masks' _) =
    wordBits (g.topBlock h).toNat (ImprovedArrowBloomFilter.maskWord masks h)
  rw [hblock, hmask]

/-- **Relabelling**: the improved filter is the Arrow filter over relabelled
    hashes. -/
theorem improved_is_relabelled_arrow :
    (∀ random fuel storage, (·.masks.toArray) <$> ImprovedBloomFilterMasks.new random fuel =
      (·.masks.toArray) <$> BloomFilterMasks.new random fuel storage) ∧
    (∀ masks masks' rows_to_insert mode mode',
      (ImprovedArrowBloomFilter.new masks rows_to_insert mode).toGeometry =
        (ArrowBloomFilter.new masks' rows_to_insert mode').toGeometry) ∧
    (∀ k, 0 < k → Function.Bijective (relabel k)) ∧
    (∀ (masks : ImprovedBloomFilterMasks) (masks' : BloomFilterMasks) rows_to_insert mode mode',
      masks.masks.toArray = masks'.masks.toArray →
      (ImprovedArrowBloomFilter.new masks rows_to_insert mode).log_num_blocks ≤ 48 →
      SameUpTo
        (relabel (ImprovedArrowBloomFilter.new masks rows_to_insert mode).log_num_blocks.toNat)
        (fun f : ImprovedArrowBloomFilter masks => f.bitvector.toArray)
        (fun f : ArrowBloomFilter masks' => f.bitvector.toArray)
        (ImprovedArrowBloomFilter.new masks rows_to_insert mode)
        (ArrowBloomFilter.new masks' rows_to_insert mode')) := by
  refine ⟨new_masks_eq, fun _ _ _ _ _ => rfl, fun k hk => relabel_bijective hk,
    fun masks masks' rows mode mode' hmasks hk => ?_⟩
  have hge := (ImprovedArrowBloomFilter.new masks rows mode).log_ge
  exact sameUpTo_of_footprint rfl rfl (fun _ => trivial) (fun _ => trivial)
    (relabel_bijective (by omega)) (footprint_relabel hmasks hk)

/-- Filters for one row, over tables of the two constructors, with a history that
    sets some of the bits. -/
theorem improved_is_relabelled_arrow_small :
    ∃ fuel masks masks', ImprovedBloomFilterMasks.new countingDraws fuel = .ok masks ∧
      BloomFilterMasks.new countingDraws fuel (.replicate _ 0) = .ok masks' ∧
      SameUpTo (relabel (ImprovedArrowBloomFilter.new masks 1 .scalar).log_num_blocks.toNat)
        (fun f : ImprovedArrowBloomFilter masks => f.bitvector.toArray)
        (fun f : ArrowBloomFilter masks' => f.bitvector.toArray)
        (ImprovedArrowBloomFilter.new masks 1 .scalar) (ArrowBloomFilter.new masks' 1 .avx2) ∧
      Returns (run (ImprovedArrowBloomFilter.new masks 1 .scalar)
        [.insert 1, .insertBatch #[2, 3, 4, 5, 6]]) fun f =>
          contains f 6 = .ok true ∧ contains f 0x8000000000000006 = .ok false := by
  obtain ⟨fuel, masks, hmasks⟩ := ImprovedBloomFilterMasks.exists_new_counting
  -- The other constructor yields the same bytes.
  have hbytes := improved_is_relabelled_arrow.1 countingDraws fuel (.replicate _ 0)
  rw [hmasks] at hbytes
  cases hmasks' : BloomFilterMasks.new countingDraws fuel (.replicate _ 0) with
  | error e => rw [hmasks'] at hbytes; cases hbytes
  | ok masks' =>
    rw [hmasks'] at hbytes
    have hlog : ceil_log2 (ImprovedArrowBloomFilter.desired_num_bits 1) ≤ 9 :=
      ceil_log2_le_iff.mpr (by decide)
    have hk : (ceil_log2 (ImprovedArrowBloomFilter.desired_num_bits 1) : Int) - 6 ≤ 48 := by omega
    refine ⟨fuel, masks, masks', hmasks, hmasks', improved_is_relabelled_arrow.2.2.2 masks masks' 1
      .scalar .avx2 (Except.ok.inj hbytes) hk, ?_⟩
    have hblocks : ∀ h ∈ inserted [.insert 1, .insertBatch #[2, 3, 4, 5, 6]],
        h.toNat / 2 ^ 61 ≠ (0x8000000000000006 : Word).toNat / 2 ^ 61 := by
      simp [inserted, Op.hashes]
    apply (run_tells_apart (f := ImprovedArrowBloomFilter.new masks 1 .scalar) rfl
      (fun _ => trivial)
      (show (6 : Word) ∈ inserted [.insert 1, .insertBatch #[2, 3, 4, 5, 6]] by decide)
      (ImprovedBloomFilterMasks.filled hmasks _)
      fun h hh => Geometry.topBlock_ne _ (hblocks h hh)).mono
    exact fun f hf => hf.2

end BloomFilters
