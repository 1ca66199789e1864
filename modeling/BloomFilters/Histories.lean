import BloomFilters.BasicBloomFilter
import BloomFilters.BlockedBloomFilter
import BloomFilters.ArrowBloomFilter
import BloomFilters.ImprovedArrowFilter
import BloomFilters.ModifiedArrowBloomFilter
import BloomFilters.Construction

/-! # What a history of insertions leaves behind

    Two results about every filter, over all finite histories of `insert`
    and `insertBatch` on a newly constructed filter:

    * **Exact membership**: a hash is reported iff its positions are covered
      by inserted hashes of its block; so nothing inserted is ever missed.
    * **Set semantics**: the table depends on the set of inserted hashes
      only.
-/

open Checked BitArray Words Footprint

namespace BloomFilters

/-! ## Statements -/

/-- What `contains` answers after every history. `ok` are the hashes that the
    filter can process, `covered S q` says when the hashes `S` answer for `q`,
    and `related s q` whether `s` may have a say in the answer for `q`. -/
structure ExactMembership {Impl : Type} [BloomFilter Impl] (f : Impl) (ok : Word → Prop)
    (covered : List Word → Word → Prop) (related : Word → Word → Prop) : Prop where
  contains_iff : ∀ history q, (∀ h ∈ inserted history, ok h) → ok q →
    Returns (run f history >>= fun f' => contains f' q) fun b =>
      (b = true ↔ covered (inserted history) q)
  no_false_negatives : ∀ history q, (∀ h ∈ inserted history, ok h) → q ∈ inserted history →
    (run f history >>= fun f' => contains f' q) = .ok true
  others_irrelevant : ∀ hist₁ hist₂ q, (∀ h ∈ inserted hist₁, ok h) →
    (∀ h ∈ inserted hist₂, ok h) → ok q →
    (∀ s, related s q → (s ∈ inserted hist₁ ↔ s ∈ inserted hist₂)) →
    (run f hist₁ >>= fun f' => contains f' q) = (run f hist₂ >>= fun f' => contains f' q)

/-- The table after every history, for two filters `f` and `g` that start
    out alike. -/
structure SetSemantics {Impl : Type} [BloomFilter Impl] {w : Nat}
    (table : Impl → Array (BitVec w)) (f g : Impl) (ok : Word → Prop) : Prop where
  same_set : ∀ hist₁ hist₂, (∀ h ∈ inserted hist₁, ok h) →
    (∀ h, h ∈ inserted hist₁ ↔ h ∈ inserted hist₂) →
    Returns (run f hist₁) fun f' => Returns (run g hist₂) fun g' => table f' = table g'
  reinsert : ∀ hist₁ hist₂, (∀ h ∈ inserted hist₁, ok h) →
    (∀ h ∈ inserted hist₂, h ∈ inserted hist₁) →
    Returns (run f hist₁) fun f' => Returns (run f' hist₂) fun f'' => table f'' = table f'
  batch_eq_fold : ∀ (f' : Impl) hash_array,
    insertBatch f' hash_array = hash_array.toList.foldlM insert f'
  union : ∀ hist₁ hist₂ history, (∀ h ∈ inserted history, ok h) →
    (∀ h, h ∈ inserted history ↔ h ∈ inserted hist₁ ∨ h ∈ inserted hist₂) →
    Returns (run f hist₁) fun f₁ => Returns (run g hist₂) fun f₂ =>
      Returns (run f history) fun f' => table f' = orWords (table f₁) (table f₂)

/-- Bit `i` of the mask of `h` is set. -/
def MaskBit (mask : Word → Comp Word) (h : Word) (i : Nat) : Prop :=
  ∃ m, mask h = .ok m ∧ m.getLsbD i = true

/-- Two hashes select one block. -/
def SameBlock (block_id : Word → Comp Word) (s q : Word) : Prop :=
  ∃ b, block_id s = .ok b ∧ block_id q = .ok b

/-- Every bit of the mask of `q` is set in the mask of a hash of `S` that
    selects the block of `q`. -/
def MaskCovered (mask block_id : Word → Comp Word) (S : List Word) (q : Word) : Prop :=
  ∀ i, MaskBit mask q i → ∃ s ∈ S, SameBlock block_id s q ∧ MaskBit mask s i

/-- Every probe position of `q` is one of a hash of `S`. -/
def ProbesCovered (num_bits num_hashes : Word) (S : List Word) (q : Word) : Prop :=
  ∀ i, i < num_hashes.toNat → ∃ s ∈ S, ∃ j, j < num_hashes.toNat ∧
    ∃ idx, generate_bit q i num_bits = .ok idx ∧ generate_bit s j num_bits = .ok idx

/-! ## Lawful filters -/

section lawful

variable {Impl : Type} [BloomFilter Impl] [LawfulBloomFilter Impl] {f g : Impl}

open LawfulBloomFilter

/-- What a history stores in a fresh filter. -/
theorem run_fresh (hvalid : Valid (shape f)) (hfresh : bitSet (table f) = ∅) {history : List Op}
    (hmask : ∀ h ∈ inserted history, HasMask Impl h) :
    Returns (run f history) fun f' => shape f' = shape f ∧
      bitSet (table f') = occupied (footprint (shape f)) {h | h ∈ inserted history} := by
  apply (run_spec f history hvalid hmask).mono
  intro f' hf'
  refine ⟨hf'.1, ?_⟩
  rw [hf'.2, hfresh, Set.empty_union]

theorem run_contains (hvalid : Valid (shape f)) (hfresh : bitSet (table f) = ∅)
    {history : List Op} {q : Word} (hmask : ∀ h ∈ inserted history, HasMask Impl h)
    (hq : HasMask Impl q) :
    Returns (run f history >>= fun f' => contains f' q) fun b =>
      (b = true ↔ Reports (footprint (shape f))
        (occupied (footprint (shape f)) {h | h ∈ inserted history}) q) := by
  apply (run_fresh hvalid hfresh hmask).bind
  intro f' hf'
  obtain ⟨hshape, hbits⟩ := hf'
  apply (contains_spec f' q (hshape ▸ hvalid) hq).mono
  intro b hb
  rw [hb, hbits, hshape]

/-- Exact membership, once the coverage of a hash is known to be what its
    footprint says. -/
theorem exactMembership_of_covered (hvalid : Valid (shape f)) (hfresh : bitSet (table f) = ∅)
    {covered : List Word → Word → Prop} {related : Word → Word → Prop}
    (hcovered : ∀ S q, (∀ s ∈ S, HasMask Impl s) → HasMask Impl q →
      (covered S q ↔ Reports (footprint (shape f)) (occupied (footprint (shape f)) {h | h ∈ S}) q))
    (hrelated : ∀ S T q, (∀ s, related s q → (s ∈ S → s ∈ T)) → covered S q → covered T q) :
    ExactMembership f (HasMask Impl) covered related where
  contains_iff history q hmask hq := by
    apply (run_contains hvalid hfresh hmask hq).mono
    intro b hb
    rw [hb, hcovered _ _ hmask hq]
  no_false_negatives history q hmask hq := by
    obtain ⟨b, hb, hiff⟩ := run_contains hvalid hfresh hmask (hmask q hq)
    rw [hb, hiff.mpr (reports_of_mem hq)]
  others_irrelevant hist₁ hist₂ q hmask₁ hmask₂ hq hsame := by
    obtain ⟨b₁, hb₁, hiff₁⟩ := run_contains hvalid hfresh hmask₁ hq
    obtain ⟨b₂, hb₂, hiff₂⟩ := run_contains hvalid hfresh hmask₂ hq
    -- Both answers are coverage, and coverage looks at the related hashes only.
    rw [← hcovered _ _ hmask₁ hq] at hiff₁
    rw [← hcovered _ _ hmask₂ hq] at hiff₂
    rw [hb₁, hb₂, Bool.eq_iff_iff.mpr (hiff₁.trans (Iff.trans ?_ hiff₂.symm))]
    exact ⟨hrelated _ _ q fun s hs => (hsame s hs).mp, hrelated _ _ q fun s hs => (hsame s hs).mpr⟩

theorem setSemantics_of_fresh (hshape : shape f = shape g) (hvalid : Valid (shape f))
    (hf : bitSet (table f) = ∅) (hg : bitSet (table g) = ∅) :
    SetSemantics table f g (HasMask Impl) where
  same_set hist₁ hist₂ hmask hset := by
    have hmask₂ : ∀ h ∈ inserted hist₂, HasMask Impl h := fun h hh => hmask h ((hset h).mpr hh)
    apply (run_fresh hvalid hf hmask).mono
    intro f' hf'
    apply (run_fresh (hshape ▸ hvalid) hg hmask₂).mono
    intro g' hg'
    apply table_eq_of_bitSet (hf'.1.trans (hshape.trans hg'.1.symm))
    have hsets : {h | h ∈ inserted hist₁} = {h | h ∈ inserted hist₂} := Set.ext hset
    -- Both tables hold the footprints of one set.
    rw [hf'.2, hg'.2, hshape, hsets]
  reinsert hist₁ hist₂ hmask hsub := by
    apply (run_fresh hvalid hf hmask).mono
    intro f' hf'
    apply (run_spec f' hist₂ (hf'.1 ▸ hvalid) fun h hh => hmask h (hsub h hh)).mono
    intro f'' hf''
    have hle : {h | h ∈ inserted hist₂} ⊆ {h | h ∈ inserted hist₁} := hsub
    apply table_eq_of_bitSet hf''.1
    -- What is inserted again is stored already.
    rw [hf''.2, hf'.2, hf'.1, union_occupied_of_subset hle]
  batch_eq_fold := insertBatch_eq
  union hist₁ hist₂ history hmask hset := by
    have hmask₁ : ∀ h ∈ inserted hist₁, HasMask Impl h :=
      fun h hh => hmask h ((hset h).mpr (Or.inl hh))
    have hmask₂ : ∀ h ∈ inserted hist₂, HasMask Impl h :=
      fun h hh => hmask h ((hset h).mpr (Or.inr hh))
    apply (run_fresh hvalid hf hmask₁).mono
    intro f₁ hf₁
    apply (run_fresh (hshape ▸ hvalid) hg hmask₂).mono
    intro f₂ hf₂
    apply (run_fresh hvalid hf hmask).mono
    intro f' hf'
    have hsize : (table f₁).size = (table f₂).size := by
      rw [size_table, size_table, hf₁.1, hf₂.1, hshape]
    apply eq_of_bitSet
    · rw [size_orWords hsize, size_table, size_table, hf'.1, hf₁.1]
    · have hsets : {h | h ∈ inserted history} =
          {h | h ∈ inserted hist₁} ∪ {h | h ∈ inserted hist₂} := Set.ext hset
      -- The footprint of a union is the union of the footprints.
      rw [bitSet_orWords hsize, hf'.2, hf₁.2, hf₂.2, ← hshape, hsets, occupied_union]

end lawful

/-! ## Block filters -/

section blocks

variable {Impl : Type} [BloomFilter Impl] [BlockFilter Impl]

open BlockFilter

/-- The footprint of a hash, in the words of `mask` and `block_id`. -/
theorem maskCovered_iff {mask block_id : Word → Comp Word} {g : Geometry}
    (hmask : ∀ h, HasMask Impl h → mask h = .ok (maskWord Impl h))
    (hblock : ∀ h, block_id h = .ok (blockWord Impl g h)) {S : List Word} {q : Word}
    (hS : ∀ s ∈ S, HasMask Impl s) (hq : HasMask Impl q) :
    MaskCovered mask block_id S q ↔
      Reports (footprint Impl g) (occupied (footprint Impl g) {h | h ∈ S}) q := by
  have hbit : ∀ h, HasMask Impl h → ∀ i,
      (MaskBit mask h i ↔ (maskWord Impl h).getLsbD i = true) := by
    intro h hh i
    unfold MaskBit
    rw [hmask h hh]
    simp
  have hsame : ∀ s, SameBlock block_id s q ↔ blockWord Impl g s = blockWord Impl g q := by
    intro s
    unfold SameBlock
    rw [hblock s, hblock q]
    simp [eq_comm]
  -- Position `i` of the block of `q` is stored iff a hash with this block has bit `i`.
  have hmem : ∀ i, i < 64 → ((blockWord Impl g q).toNat * 64 + i ∈
      occupied (footprint Impl g) {h | h ∈ S} ↔
        ∃ s ∈ S, SameBlock block_id s q ∧ MaskBit mask s i) := by
    intro i hi
    rw [mem_occupied]
    apply exists_congr
    intro s
    apply and_congr_right
    intro hs
    rw [hsame s, hbit s (hS s hs) i, footprint, mem_wordBits,
      show ((blockWord Impl g q).toNat * 64 + i) / 64 = (blockWord Impl g q).toNat from by omega,
      show ((blockWord Impl g q).toNat * 64 + i) % 64 = i from by omega,
      ← BitVec.toNat_inj, eq_comm]
  unfold Reports footprint
  rw [wordBits_subset_iff]
  constructor
  · intro h i hi hqi
    exact (hmem i hi).mpr (h i ((hbit q hq i).mpr hqi))
  · intro h i hqi
    have hqi' := (hbit q hq i).mp hqi
    -- A set bit is one of the 64.
    have hi := BitVec.lt_of_getLsbD hqi'
    exact (hmem i hi).mp (h i hi hqi')

/-- Hashes of other blocks cover nothing. -/
theorem MaskCovered.mono {mask block_id : Word → Comp Word} {S T : List Word} {q : Word}
    (h : ∀ s, SameBlock block_id s q → (s ∈ S → s ∈ T)) (hS : MaskCovered mask block_id S q) :
    MaskCovered mask block_id T q := by
  intro i hi
  obtain ⟨s, hs, hblock, hbit⟩ := hS i hi
  exact ⟨s, h s hblock hs, hblock, hbit⟩

/-- What a history stores in the blocks that a constructor zeroed. -/
theorem run_ofGeometry {f : Impl} {g : Geometry} (hnew : toTable f = .ofGeometry g)
    {history : List Op} (hmask : ∀ h ∈ inserted history, HasMask Impl h) :
    Returns (run f history) fun f' => (toTable f').toGeometry = g ∧
      bitSet (toTable f').bitvector.toArray =
        occupied (footprint Impl g) {h | h ∈ inserted history} := by
  have hrun := run_fresh (valid f) (fresh_of_new hnew) hmask
  rw [← shape_of_new hnew]
  exact hrun

theorem contains_reports {f : Impl} {g : Geometry} (hg : (toTable f).toGeometry = g) {q : Word}
    (hq : HasMask Impl q) :
    Returns (contains f q) fun b =>
      (b = true ↔ Reports (footprint Impl g) (bitSet (toTable f).bitvector.toArray) q) := by
  subst hg
  exact contains_spec f q hq

/-- The inserted hashes are told from a hash of another block. -/
theorem run_tells_apart {f : Impl} {g : Geometry} (hnew : toTable f = .ofGeometry g)
    (hall : ∀ h, HasMask Impl h) {history : List Op} {p q : Word} (hp : p ∈ inserted history)
    (hbits : 0 < bitCount (maskWord Impl q))
    (hother : ∀ h ∈ inserted history, blockWord Impl g h ≠ blockWord Impl g q) :
    Returns (run f history) fun f' => (toTable f').toGeometry = g ∧
      contains f' p = .ok true ∧ contains f' q = .ok false := by
  apply (run_ofGeometry hnew fun h _ => hall h).mono
  intro f' hf'
  obtain ⟨hgeometry, hstored⟩ := hf'
  obtain ⟨b, hb, hiff⟩ := contains_reports hgeometry (hall p)
  obtain ⟨b', hb', hiff'⟩ := contains_reports hgeometry (hall q)
  rw [hstored] at hiff hiff'
  refine ⟨hgeometry, by rw [hb, hiff.mpr (reports_of_mem hp)], ?_⟩
  have hfalse : ¬ b' = true := by
    intro htrue
    -- A position of `q` is in the block of `q`, those of the history are not.
    obtain ⟨i, hi⟩ := footprint_nonempty (g := g) hbits
    obtain ⟨h, hh, hmem⟩ := mem_occupied.mp (hiff'.mp htrue hi)
    exact hother h hh (BitVec.eq_of_toNat_eq (hmem.1.symm.trans hi.1))
  rw [hb', Bool.eq_false_iff.mpr hfalse]

theorem exactMembership_of_blocks {f : Impl} {mask block_id : Word → Comp Word} {g : Geometry}
    (hnew : toTable f = .ofGeometry g)
    (hmask : ∀ h, HasMask Impl h → mask h = .ok (maskWord Impl h))
    (hblock : ∀ h, block_id h = .ok (blockWord Impl g h)) :
    ExactMembership f (HasMask Impl) (MaskCovered mask block_id) (SameBlock block_id) := by
  apply exactMembership_of_covered (valid f) (fresh_of_new hnew)
  · intro S q hS hq
    have hcov := maskCovered_iff hmask hblock hS hq
    rw [← shape_of_new hnew] at hcov
    exact hcov
  · intro S T q hST
    exact MaskCovered.mono hST

theorem setSemantics_of_blocks {f f' : Impl} {g : Geometry} (hf : toTable f = .ofGeometry g)
    (hf' : toTable f' = .ofGeometry g) :
    SetSemantics (fun f : Impl => (toTable f).bitvector.toArray) f f' (HasMask Impl) := by
  have hshape : LawfulBloomFilter.shape f = LawfulBloomFilter.shape f' := by
    show (toTable f).toGeometry = (toTable f').toGeometry
    rw [hf, hf']
  exact setSemantics_of_fresh hshape (valid f) (fresh_of_new hf) (fresh_of_new hf')

end blocks

/-- Three bits of the block index are enough to tell hashes apart. -/
theorem ArrowBloomFilter.tells_apart {random : RandomDraws} {fuel : Nat}
    {storage : Vector Byte BloomFilterMasks.totalBytes} {masks : BloomFilterMasks}
    (hmasks : BloomFilterMasks.new random fuel storage = .ok masks) (rows_to_insert : Word)
    (mode : ImplMode) {history : List Op} {p q : Word} (hp : p ∈ inserted history)
    (hother : ∀ h ∈ inserted history, h.toNat / 2 ^ 16 % 2 ^ 3 ≠ q.toNat / 2 ^ 16 % 2 ^ 3) :
    Returns (run (ArrowBloomFilter.new masks rows_to_insert mode) history) fun f =>
      contains f p = .ok true ∧ contains f q = .ok false := by
  apply (run_tells_apart (f := ArrowBloomFilter.new masks rows_to_insert mode) rfl
    (fun _ => trivial) hp (BloomFilterMasks.filled hmasks q)
    fun h hh => Geometry.lowBlock_ne _ (hother h hh)).mono
  exact fun f hf => hf.2

/-! ## The basic filter -/

section basic

open BasicBloomFilter

/-- The footprint of a hash, in the words of `generate_bit`. -/
theorem probesCovered_iff {num_bits num_hashes : Word} (hsized : Sized num_bits) {S : List Word}
    {q : Word} : ProbesCovered num_bits num_hashes S q ↔
      Reports (positions num_bits num_hashes) (occupied (positions num_bits num_hashes) {h | h ∈ S})
        q := by
  -- Two probes name one bit iff their positions are equal.
  have hgen : ∀ h k i j, (∃ idx, generate_bit h i num_bits = .ok idx ∧
      generate_bit k j num_bits = .ok idx) ↔ probeBit h i num_bits = probeBit k j num_bits := by
    intro h k i j
    obtain ⟨a, ha, haval⟩ := generate_bit_eq h i hsized.1
    obtain ⟨b, hb, hbval⟩ := generate_bit_eq k j hsized.1
    rw [ha, hb, ← haval, ← hbval, BitVec.toNat_inj]
    simp [eq_comm]
  simp only [ProbesCovered, hgen]
  constructor
  · intro h p hp
    obtain ⟨i, hi, rfl⟩ := hp
    obtain ⟨s, hs, j, hj, heq⟩ := h i hi
    exact mem_occupied.mpr ⟨s, hs, j, hj, heq⟩
  · intro h i hi
    obtain ⟨s, hs, j, hj, heq⟩ := mem_occupied.mp (h ⟨i, hi, rfl⟩)
    exact ⟨s, hs, j, hj, heq⟩

theorem exactMembership_basic {num_bits num_hashes : Word} (hsized : Sized num_bits) :
    ExactMembership (BasicBloomFilter.new num_bits num_hashes) (fun _ => True)
      (ProbesCovered num_bits num_hashes) (fun _ _ => True) := by
  apply exactMembership_of_covered (valid_new hsized num_hashes) (fresh_new num_bits num_hashes)
  · intro S q _ _
    exact probesCovered_iff hsized
  · intro S T q hST hS i hi
    obtain ⟨s, hs, hj⟩ := hS i hi
    exact ⟨s, hST s trivial hs, hj⟩

theorem setSemantics_basic {num_bits num_hashes : Word} (hsized : Sized num_bits) :
    SetSemantics (fun f : BasicBloomFilter => f.bitvector.toArray)
      (BasicBloomFilter.new num_bits num_hashes) (BasicBloomFilter.new num_bits num_hashes)
      (fun _ => True) :=
  setSemantics_of_fresh rfl (valid_new hsized num_hashes) (fresh_new num_bits num_hashes)
    (fresh_new num_bits num_hashes)

end basic

/-! ## Results -/

/-- **Exact membership** for the five filters. -/
theorem exact_membership :
    (∀ num_bits num_hashes, BasicBloomFilter.Sized num_bits →
      ExactMembership (BasicBloomFilter.new num_bits num_hashes) (fun _ => True)
        (ProbesCovered num_bits num_hashes) (fun _ _ => True)) ∧
    (∀ rows_to_insert f, BlockedBloomFilter.new rows_to_insert = .ok f →
      ExactMembership f (fun h => ∃ m, BlockedBloomFilter.mask h = .ok m)
        (MaskCovered BlockedBloomFilter.mask f.block_id) (SameBlock f.block_id)) ∧
    (∀ masks rows_to_insert mode,
      ExactMembership (ArrowBloomFilter.new masks rows_to_insert mode) (fun _ => True)
        (MaskCovered (ArrowBloomFilter.mask masks)
          (ArrowBloomFilter.new masks rows_to_insert mode).block_id)
        (SameBlock (ArrowBloomFilter.new masks rows_to_insert mode).block_id)) ∧
    (∀ masks rows_to_insert mode,
      ExactMembership (ImprovedArrowBloomFilter.new masks rows_to_insert mode) (fun _ => True)
        (MaskCovered (ImprovedArrowBloomFilter.mask masks)
          (ImprovedArrowBloomFilter.new masks rows_to_insert mode).block_id)
        (SameBlock (ImprovedArrowBloomFilter.new masks rows_to_insert mode).block_id)) ∧
    (∀ masks rows_to_insert mode,
      ExactMembership (ModifiedArrowBloomFilter.new masks rows_to_insert mode) (fun _ => True)
        (MaskCovered (ModifiedArrowBloomFilter.mask masks)
          (ModifiedArrowBloomFilter.new masks rows_to_insert mode).block_id)
        (SameBlock (ModifiedArrowBloomFilter.new masks rows_to_insert mode).block_id)) := by
  refine ⟨fun num_bits num_hashes hsized => ?_, fun rows f hf => ?_, fun masks rows mode => ?_,
    fun masks rows mode => ?_, fun masks rows mode => ?_⟩
  · exact exactMembership_basic hsized
  · -- A constructor that returns has zeroed its blocks.
    obtain ⟨g, rfl⟩ := BlockedBloomFilter.eq_ofGeometry_of_new hf
    exact exactMembership_of_blocks rfl (fun _ => BlockedBloomFilter.mask_eq)
      (BlockedBloomFilter.block_id_eq _)
  · exact exactMembership_of_blocks rfl (fun h _ => ArrowBloomFilter.mask_eq h)
      (ArrowBloomFilter.block_id_eq _)
  · exact exactMembership_of_blocks rfl (fun h _ => ImprovedArrowBloomFilter.mask_eq h)
      (ImprovedArrowBloomFilter.block_id_eq _)
  · exact exactMembership_of_blocks rfl (fun h _ => ModifiedArrowBloomFilter.mask_eq h)
      (ModifiedArrowBloomFilter.block_id_eq _)

/-- Small filters, one of them with a vector insert and its tail. -/
theorem exact_membership_small :
    (run (BasicBloomFilter.new 8 1) [.insert 3, .insertBatch #[5, 7]] >>= fun f => contains f 5) =
      .ok true ∧
    (BlockedBloomFilter.new 1 >>= fun f => run f [.insert 1] >>= fun f => contains f 1) =
      .ok true ∧
    ∃ fuel masks, BloomFilterMasks.new countingDraws fuel (.replicate _ 0) = .ok masks ∧
      (run (ArrowBloomFilter.new masks 1 .avx2) [.insertBatch #[1, 2, 3, 4, 5]] >>=
        fun f => contains f 5) = .ok true ∧
      (run (ArrowBloomFilter.new masks 1 .avx2) [.insertBatch #[1, 2, 3, 4, 5]] >>=
        fun f => contains f 0x30005) = .ok false := by
  have hmask : ∃ m, BlockedBloomFilter.mask 1 = .ok m := ⟨_, BlockedBloomFilter.mask_one⟩
  refine ⟨?_, ?_, ?_⟩
  · exact (exact_membership.1 8 1 ⟨by decide, by decide⟩).no_false_negatives _ 5
      (fun _ _ => trivial) (by decide)
  · obtain ⟨f, hf, -⟩ := @BlockedBloomFilter.new_returns 1 (by decide) (by decide)
    rw [hf, ok_bind]
    exact (exact_membership.2.1 1 f hf).no_false_negatives _ 1
      (fun h hh => by rw [List.mem_singleton.mp hh]; exact hmask) (List.mem_singleton.mpr rfl)
  · obtain ⟨fuel, masks, hmasks⟩ := BloomFilterMasks.exists_new_counting (.replicate _ 0)
    refine ⟨fuel, masks, hmasks, (exact_membership.2.2.1 masks 1 .avx2).no_false_negatives _ 5
      (fun _ _ => trivial) (by decide), ?_⟩
    obtain ⟨f, hf, -, hfalse⟩ := ArrowBloomFilter.tells_apart hmasks 1 .avx2
      (show (5 : Word) ∈ inserted [.insertBatch #[1, 2, 3, 4, 5]] by decide)
      (show ∀ h ∈ _, _ ≠ (0x30005 : Word).toNat / 2 ^ 16 % 2 ^ 3 by simp [inserted, Op.hashes])
    rw [hf]
    exact hfalse

/-- **Set semantics** for the five filters: any two objects built with the same
    sizes, whatever their modes. -/
theorem table_determined_by_set :
    (∀ num_bits num_hashes, BasicBloomFilter.Sized num_bits →
      SetSemantics (fun f : BasicBloomFilter => f.bitvector.toArray)
        (BasicBloomFilter.new num_bits num_hashes) (BasicBloomFilter.new num_bits num_hashes)
        (fun _ => True)) ∧
    (∀ rows_to_insert f g, BlockedBloomFilter.new rows_to_insert = .ok f →
      BlockedBloomFilter.new rows_to_insert = .ok g →
      SetSemantics (fun f : BlockedBloomFilter => f.bitvector.toArray) f g
        (fun h => ∃ m, BlockedBloomFilter.mask h = .ok m)) ∧
    (∀ masks rows_to_insert mode mode',
      SetSemantics (fun f : ArrowBloomFilter masks => f.bitvector.toArray)
        (ArrowBloomFilter.new masks rows_to_insert mode)
        (ArrowBloomFilter.new masks rows_to_insert mode') (fun _ => True)) ∧
    (∀ masks rows_to_insert mode mode',
      SetSemantics (fun f : ImprovedArrowBloomFilter masks => f.bitvector.toArray)
        (ImprovedArrowBloomFilter.new masks rows_to_insert mode)
        (ImprovedArrowBloomFilter.new masks rows_to_insert mode') (fun _ => True)) ∧
    (∀ masks rows_to_insert mode mode',
      SetSemantics (fun f : ModifiedArrowBloomFilter masks => f.bitvector.toArray)
        (ModifiedArrowBloomFilter.new masks rows_to_insert mode)
        (ModifiedArrowBloomFilter.new masks rows_to_insert mode') (fun _ => True)) := by
  refine ⟨fun num_bits num_hashes hsized => setSemantics_basic hsized, fun rows f g hf hg => ?_,
    fun masks rows mode mode' => setSemantics_of_blocks rfl rfl,
    fun masks rows mode mode' => setSemantics_of_blocks rfl rfl,
    fun masks rows mode mode' => setSemantics_of_blocks rfl rfl⟩
  rw [hf] at hg
  cases hg
  obtain ⟨g, rfl⟩ := BlockedBloomFilter.eq_ofGeometry_of_new hf
  exact setSemantics_of_blocks rfl rfl

/-- The order of two insertions and the mode leave no trace; the table is not
    that of a filter that reports everything. -/
theorem table_determined_by_set_small :
    Returns (run (BasicBloomFilter.new 8 1) [.insert 3, .insert 5]) (fun f =>
      Returns (run (BasicBloomFilter.new 8 1) [.insertBatch #[5, 3, 5]]) fun g =>
        f.bitvector.toArray = g.bitvector.toArray) ∧
    ∃ fuel masks, BloomFilterMasks.new countingDraws fuel (.replicate _ 0) = .ok masks ∧
      Returns (run (ArrowBloomFilter.new masks 1 .scalar) [.insert 3, .insert 5]) (fun f =>
        Returns (run (ArrowBloomFilter.new masks 1 .avx2) [.insertBatch #[5, 3, 5, 5]]) fun g =>
          f.bitvector.toArray = g.bitvector.toArray) ∧
      Returns (run (ArrowBloomFilter.new masks 1 .scalar) [.insert 3, .insert 5]) fun f =>
        contains f 3 = .ok true ∧ contains f 0x30005 = .ok false := by
  obtain ⟨fuel, masks, hmasks⟩ := BloomFilterMasks.exists_new_counting (.replicate _ 0)
  refine ⟨(table_determined_by_set.1 8 1 ⟨by decide, by decide⟩).same_set _ _
    (fun _ _ => trivial) fun h => ?_, fuel, masks, hmasks,
    (table_determined_by_set.2.2.1 masks 1 .scalar .avx2).same_set _ _ (fun _ _ => trivial)
    fun h => ?_, ?_⟩
  · simpa [inserted, Op.hashes, or_comm] using Or.inr
  · simpa [inserted, Op.hashes, or_comm] using Or.inr
  · exact ArrowBloomFilter.tells_apart hmasks 1 .scalar (by decide) (by simp [inserted, Op.hashes])

end BloomFilters
