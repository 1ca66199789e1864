import BloomFilters.Histories

/-! # Batch probes

    `containsBatch` of every filter, in every state: each byte it writes,
    no byte beside them, and the same bytes as a loop over `contains`. The
    four packing strategies of the filters all reduce to `packBits`, through
    the `containsBatch_eq` law of `LawfulBloomFilter`.
-/

open Checked BitArray

namespace BloomFilters

/-! ## Statements -/

/-- The scalar branch of `BENCH_probeFilters` in `src/bench.cpp`: the whole
    buffer is cleared, then one bit is or-ed in for each reported query. -/
def BENCH_scalarProbe {Impl : Type} [BloomFilter Impl] (filter : Impl) (queries : Array Word)
    (probe_result : Array Byte) : Comp (Array Byte) := do
  let probe_result ← fillZero probe_result probe_result.size
  probeLoop (fun h => contains filter h) queries 0 probe_result

/-- `r` holds the packed answers to `hash_array`, zero padding up to the end
    of the last byte, and `result` from there on. -/
structure PackedAnswers {Impl : Type} [BloomFilter Impl] (f : Impl) (hash_array : Array Word)
    (result r : Array Byte) : Prop where
  size_eq : r.size = result.size
  answer : ∀ i, (hi : i < hash_array.size) →
    packed_result_bit r i = contains f hash_array[i]
  padding : ∀ i, hash_array.size ≤ i → i < 8 * ((hash_array.size + 7) / 8) →
    packed_result_bit r i = .ok false
  frame : ∀ i, (hash_array.size + 7) / 8 ≤ i → r[i]? = result[i]?

/-- The batch probe of `f` on hashes that satisfy `ok`. `variant g` says that
    `g` is `f` in another mode. -/
structure ExactBatchProbe {Impl : Type} [BloomFilter Impl] (f : Impl) (ok : Word → Prop)
    (variant : Impl → Prop) : Prop where
  packs : ∀ hash_array result, (∀ h ∈ hash_array, ok h) → hash_array.size + 7 < 2 ^ 64 →
    (hash_array.size + 7) / 8 ≤ result.size →
    Returns (containsBatch f hash_array result) (PackedAnswers f hash_array result)
  buffer_irrelevant : ∀ hash_array result result', (∀ h ∈ hash_array, ok h) →
    hash_array.size + 7 < 2 ^ 64 → (hash_array.size + 7) / 8 ≤ result.size →
    (hash_array.size + 7) / 8 ≤ result'.size →
    Returns (containsBatch f hash_array result) fun r =>
      Returns (containsBatch f hash_array result') fun r' =>
        ∀ i, i < (hash_array.size + 7) / 8 → r[i]? = r'[i]?
  mode_irrelevant : ∀ g hash_array result, variant g → (∀ h ∈ hash_array, ok h) →
    hash_array.size + 7 < 2 ^ 64 → (hash_array.size + 7) / 8 ≤ result.size →
    containsBatch f hash_array result = containsBatch g hash_array result
  scalar_loop : ∀ hash_array result, (∀ h ∈ hash_array, ok h) →
    hash_array.size + 7 < 2 ^ 64 → result.size = result_bytes hash_array.size →
    containsBatch f hash_array result = BENCH_scalarProbe f hash_array result

/-! ## Lawful filters -/

section lawful

variable {Impl : Type} [BloomFilter Impl] [LawfulBloomFilter Impl] {f g : Impl}

open LawfulBloomFilter

/-- A lawful filter answers every hash of a batch. -/
theorem answers_of_lawful (hvalid : Valid (shape f)) {hash_array : Array Word}
    (hmask : ∀ h ∈ hash_array, HasMask Impl h) :
    ∃ p : Nat → Bool, ∀ i, (hi : i < hash_array.size) → contains f hash_array[i] = .ok (p i) := by
  apply exists_answers
  intro h hh
  obtain ⟨b, hb, _⟩ := contains_spec f h hvalid (hmask h hh)
  exact ⟨b, hb⟩

omit [LawfulBloomFilter Impl] in
/-- What a packed buffer says, bit by bit. -/
theorem packedAnswers_of_packBits {hash_array : Array Word} {result : Array Byte} {p : Nat → Bool}
    (hp : ∀ i, (hi : i < hash_array.size) → contains f hash_array[i] = .ok (p i))
    (hsize : (hash_array.size + 7) / 8 ≤ result.size) :
    PackedAnswers f hash_array result
      (packBits (answers p hash_array.size) ((hash_array.size + 7) / 8) result) where
  size_eq := by simp
  answer i hi := by
    unfold packed_result_bit
    rw [testBit_ok (by simp; omega), bitAt_packBits hsize (by omega), hp i hi]
    simp [answers, hi]
  padding i hlo hhi := by
    -- Behind the last hash of its byte a bit is clear.
    have hnot : ¬ i < hash_array.size := by omega
    unfold packed_result_bit
    rw [testBit_ok (by simp; omega), bitAt_packBits hsize hhi]
    simp [answers, hnot]
  frame i hi := by
    -- The bytes behind are those of the old buffer.
    have hnot : ¬ i < (hash_array.size + 7) / 8 := by omega
    unfold packBits
    rw [Array.getElem?_mapIdx]
    cases result[i]? <;> simp [hnot]

/-- Equal states give equal answers, whatever the mode. -/
theorem contains_congr (hvalid : Valid (shape f)) (hshape : shape f = shape g)
    (htable : table f = table g) {h : Word} (hmask : HasMask Impl h) :
    contains f h = contains g h := by
  obtain ⟨b, hb, hiff⟩ := contains_spec f h hvalid hmask
  obtain ⟨b', hb', hiff'⟩ := contains_spec g h (hshape ▸ hvalid) hmask
  rw [← hshape, ← htable, ← hiff] at hiff'
  rw [hb, hb', Bool.eq_iff_iff.mpr hiff'.symm]

theorem exactBatchProbe (hvalid : Valid (shape f)) {variant : Impl → Prop}
    (hvariant : ∀ g, variant g → shape f = shape g ∧ table f = table g) :
    ExactBatchProbe f (HasMask Impl) variant where
  packs hash_array result hmask hcount hsize := by
    obtain ⟨p, hp⟩ := answers_of_lawful hvalid hmask
    rw [← result_bytes_eq hcount] at hsize
    rw [containsBatch_eq f hash_array result p hp hcount hsize, result_bytes_eq hcount]
    rw [result_bytes_eq hcount] at hsize
    exact returns_ok (packedAnswers_of_packBits hp hsize)
  buffer_irrelevant hash_array result result' hmask hcount hsize hsize' := by
    obtain ⟨p, hp⟩ := answers_of_lawful hvalid hmask
    rw [← result_bytes_eq hcount] at hsize hsize' ⊢
    rw [containsBatch_eq f hash_array result p hp hcount hsize,
      containsBatch_eq f hash_array result' p hp hcount hsize']
    apply returns_ok
    apply returns_ok
    intro i hi
    rw [Array.getElem?_eq_getElem (by simp; omega), Array.getElem?_eq_getElem (by simp; omega),
      getElem_packBits, getElem_packBits, if_pos hi, if_pos hi]
  mode_irrelevant g hash_array result hg hmask hcount hsize := by
    obtain ⟨hshape, htable⟩ := hvariant g hg
    obtain ⟨p, hp⟩ := answers_of_lawful hvalid hmask
    have hp' : ∀ i, (hi : i < hash_array.size) → contains g hash_array[i] = .ok (p i) := by
      intro i hi
      rw [← contains_congr hvalid hshape htable (hmask _ (Array.getElem_mem hi)), hp i hi]
    rw [← result_bytes_eq hcount] at hsize
    rw [containsBatch_eq f hash_array result p hp hcount hsize,
      containsBatch_eq g hash_array result p hp' hcount hsize]
  scalar_loop hash_array result hmask hcount hsize := by
    obtain ⟨p, hp⟩ := answers_of_lawful hvalid hmask
    -- The loop of the benchmark packs the same answers into a cleared buffer.
    rw [containsBatch_eq f hash_array result p hp hcount (by omega), BENCH_scalarProbe, hsize]
    exact (fillAndProbe_ok hp hcount (by omega)).symm

end lawful

/-! ## Results -/

/-- **Exact batch probe** for the five filters, in every state and mode. -/
theorem batch_probe_exact :
    (∀ f : BasicBloomFilter, BasicBloomFilter.Sized f.num_bits →
      ExactBatchProbe f (fun _ => True) (fun g => g = f)) ∧
    (∀ f : BlockedBloomFilter,
      ExactBatchProbe f (fun h => ∃ m, BlockedBloomFilter.mask h = .ok m) (fun g => g = f)) ∧
    (∀ (masks : BloomFilterMasks) (f : ArrowBloomFilter masks),
      ExactBatchProbe f (fun _ => True) (fun g => ∃ mode, g = { f with impl_mode := mode })) ∧
    (∀ (masks : ImprovedBloomFilterMasks) (f : ImprovedArrowBloomFilter masks),
      ExactBatchProbe f (fun _ => True) (fun g => ∃ mode, g = { f with impl_mode := mode })) ∧
    (∀ (masks : ModifiedBloomFilterMasks) (f : ModifiedArrowBloomFilter masks),
      ExactBatchProbe f (fun _ => True) (fun g => ∃ mode, g = { f with impl_mode := mode })) := by
  refine ⟨fun f hsized => ?_, fun f => ?_, fun masks f => ?_, fun masks f => ?_, fun masks f => ?_⟩
  · have hvalid : LawfulBloomFilter.Valid (LawfulBloomFilter.shape f) := hsized
    exact exactBatchProbe hvalid fun g hg => by rw [hg]; exact ⟨rfl, rfl⟩
  · exact exactBatchProbe (BlockFilter.valid f) fun g hg => by rw [hg]; exact ⟨rfl, rfl⟩
  · exact exactBatchProbe (BlockFilter.valid f) fun g ⟨mode, hg⟩ => by rw [hg]; exact ⟨rfl, rfl⟩
  · exact exactBatchProbe (BlockFilter.valid f) fun g ⟨mode, hg⟩ => by rw [hg]; exact ⟨rfl, rfl⟩
  · exact exactBatchProbe (BlockFilter.valid f) fun g ⟨mode, hg⟩ => by rw [hg]; exact ⟨rfl, rfl⟩

/-- A stale buffer of two bytes, of which the batch owns one; and a vector probe
    with a tail, on a filter that reports some of the hashes. -/
theorem batch_probe_exact_small :
    Returns (containsBatch (BasicBloomFilter.new 8 1) #[1, 2, 3] #[0xff, 0xff])
      (PackedAnswers (BasicBloomFilter.new 8 1) #[1, 2, 3] #[0xff, 0xff]) ∧
    ∃ fuel masks, ∃ f g : ArrowBloomFilter masks,
      BloomFilterMasks.new countingDraws fuel (.replicate _ 0) = .ok masks ∧
      run (ArrowBloomFilter.new masks 1 .scalar) [.insertBatch #[1, 2, 3, 4, 5]] = .ok f ∧
      contains f 5 = .ok true ∧ contains f 0x30005 = .ok false ∧
      g = { f with impl_mode := .avx2 } ∧
      Returns (containsBatch g #[1, 2, 3, 4, 5, 0x30005, 6, 7, 8] #[0xff, 0xff, 0xff])
        (PackedAnswers g #[1, 2, 3, 4, 5, 0x30005, 6, 7, 8] #[0xff, 0xff, 0xff]) := by
  constructor
  · exact (batch_probe_exact.1 (BasicBloomFilter.new 8 1) ⟨by decide, by decide⟩).packs _ _
      (fun _ _ => trivial) (by decide) (by decide)
  · obtain ⟨fuel, masks, hmasks⟩ := BloomFilterMasks.exists_new_counting (.replicate _ 0)
    obtain ⟨f, hf, htrue, hfalse⟩ := ArrowBloomFilter.tells_apart hmasks 1 .scalar
      (show (5 : Word) ∈ inserted [.insertBatch #[1, 2, 3, 4, 5]] by decide)
      (show ∀ h ∈ _, _ ≠ (0x30005 : Word).toNat / 2 ^ 16 % 2 ^ 3 by simp [inserted, Op.hashes])
    exact ⟨fuel, masks, f, { f with impl_mode := .avx2 }, hmasks, hf, htrue, hfalse, rfl,
      (batch_probe_exact.2.2.1 masks _).packs _ _ (fun _ _ => trivial) (by decide) (by decide)⟩

end BloomFilters
