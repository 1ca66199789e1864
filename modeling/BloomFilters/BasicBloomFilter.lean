import BloomFilters.BloomFilter

/-! # The basic filter

    `bloom_filter/BasicBloomFilter.{h,cpp}`: one flat bit array, and
    `num_hashes` probe positions for each hash, anywhere in the array. In an
    array of a power of two of bits no position is preferred.
-/

open Checked BitArray Words Footprint

namespace BloomFilters

structure BasicBloomFilter where
  /-- Number of positions. -/
  num_bits : Word
  /-- Number of probes for each hash. -/
  num_hashes : Word
  bitvector : Vector Byte ((num_bits + 7) / 8).toNat

namespace BasicBloomFilter

/-! ### Operations -/

/-- The constructor; the defaults are `num_bits = 1024`, `num_hashes = 4`. -/
def new (num_bits num_hashes : Word) : BasicBloomFilter where
  num_bits := num_bits
  num_hashes := num_hashes
  bitvector := Vector.replicate _ 0

def setBit (f : BasicBloomFilter) (idx : Nat) : Comp BasicBloomFilter := do
  return { f with bitvector := ← orBitAt f.bitvector (idx / 8) (idx % 8) }

def getBit (f : BasicBloomFilter) (idx : Nat) : Comp Bool :=
  testBitAt f.bitvector (idx / 8) (idx % 8)

def insertImpl (f : BasicBloomFilter) (hash : Word) : Comp BasicBloomFilter :=
  forLoop 0 f.num_hashes.toNat 1 (fun i g => do
    let idx ← generate_bit hash i g.num_bits
    g.setBit idx.toNat) f

def containsImpl (f : BasicBloomFilter) (hash : Word) : Comp Bool :=
  allLoop (fun i => do
    let idx ← generate_bit hash i f.num_bits
    f.getBit idx.toNat) 0 f.num_hashes.toNat

def insertBatchImpl (f : BasicBloomFilter) (hash_array : Array Word) : Comp BasicBloomFilter :=
  insertLoop insertImpl hash_array 0 f

def containsBatchImpl (f : BasicBloomFilter) (hash_array : Array Word) (result : Array Byte) :
    Comp (Array Byte) :=
  fillAndProbe f.containsImpl hash_array result

instance : BloomFilter BasicBloomFilter where
  insertImpl := insertImpl
  containsImpl := containsImpl
  insertBatchImpl := insertBatchImpl
  containsBatchImpl := containsBatchImpl

/-! ### Footprints -/

/-- The sizes for which the rounding-up byte count does not wrap. -/
def Sized (num_bits : Word) : Prop := 1 ≤ num_bits.toNat ∧ num_bits.toNat ≤ 2 ^ 64 - 8

/-- The probe positions of a hash. -/
def positions (num_bits num_hashes hash : Word) : Set Nat :=
  {p | ∃ i, i < num_hashes.toNat ∧ p = probeBit hash i num_bits}

/-- Every probe position lies inside of the bit array. -/
theorem byte_lt {num_bits : Word} (h : Sized num_bits) {p : Nat} (hp : p < num_bits.toNat) :
    p / 8 < ((num_bits + 7) / 8).toNat := by
  -- The sum does not wrap for these sizes.
  have hadd : (num_bits + 7).toNat = num_bits.toNat + 7 := by
    rw [BitVec.toNat_add]
    exact Nat.mod_eq_of_lt (by have := h.2; simp; omega)
  have hdiv : ((num_bits + 7) / 8).toNat = (num_bits.toNat + 7) / 8 := by
    rw [BitVec.toNat_udiv, hadd]
    rfl
  omega

theorem setBit_spec {f : BasicBloomFilter} {idx : Nat}
    (hidx : idx / 8 < ((f.num_bits + 7) / 8).toNat) :
    Returns (f.setBit idx) fun f' => f'.num_bits = f.num_bits ∧ f'.num_hashes = f.num_hashes ∧
      bitSet f'.bitvector.toArray = bitSet f.bitvector.toArray ∪ {idx} := by
  apply (orBitAt_ok hidx).bind
  intro v hv
  exact returns_ok ⟨rfl, rfl, hv⟩

theorem insertImpl_spec {f : BasicBloomFilter} {hash : Word} (hsized : Sized f.num_bits) :
    Returns (f.insertImpl hash) fun f' => f'.num_bits = f.num_bits ∧
      f'.num_hashes = f.num_hashes ∧ bitSet f'.bitvector.toArray =
        bitSet f.bitvector.toArray ∪ positions f.num_bits f.num_hashes hash := by
  have hpos : 0 < f.num_bits.toNat := hsized.1
  -- After `i` rounds the first `i` probe positions have been added.
  refine (forLoop_returns (fun i (g : BasicBloomFilter) => g.num_bits = f.num_bits ∧
    g.num_hashes = f.num_hashes ∧ bitSet g.bitvector.toArray = bitSet f.bitvector.toArray ∪
      {p | ∃ j, j < i ∧ p = probeBit hash j f.num_bits})
    Nat.one_pos (Nat.zero_le _) (Nat.one_dvd _) ⟨rfl, rfl, by simp⟩ ?_).mono fun g hg => hg
  intro i g _ _ _ h
  obtain ⟨hbits, hhashes, hset⟩ := h
  apply (generate_bit_eq hash i (by rwa [hbits])).bind
  intro idx hidx
  rw [hbits] at hidx
  have hlt : idx.toNat < f.num_bits.toNat := hidx ▸ probeBit_lt hpos
  apply (setBit_spec (by rw [hbits]; exact byte_lt hsized hlt)).mono
  intro g' hg'
  obtain ⟨hbits', hhashes', hset'⟩ := hg'
  refine ⟨hbits'.trans hbits, hhashes'.trans hhashes, ?_⟩
  rw [hset', hset, Set.union_assoc]
  congr 1
  ext p
  simp only [Set.mem_union, Set.mem_ofPred_eq, Set.mem_singleton_iff, hidx]
  -- The first `i + 1` positions are the first `i` and the one just set.
  constructor
  · intro hmem
    rcases hmem with ⟨j, hj, rfl⟩ | rfl
    · exact ⟨j, by omega, rfl⟩
    · exact ⟨i, by omega, rfl⟩
  · intro hmem
    obtain ⟨j, hj, rfl⟩ := hmem
    rcases Nat.lt_succ_iff_lt_or_eq.mp hj with hlt' | rfl
    · exact Or.inl ⟨j, hlt', rfl⟩
    · exact Or.inr rfl

theorem containsImpl_spec {f : BasicBloomFilter} {hash : Word} (hsized : Sized f.num_bits) :
    Returns (f.containsImpl hash) fun b =>
      (b = true ↔ positions f.num_bits f.num_hashes hash ⊆ bitSet f.bitvector.toArray) := by
  have hpos : 0 < f.num_bits.toNat := hsized.1
  refine (allLoop_returns
    (q := fun i => bitAt f.bitvector.toArray (probeBit hash i f.num_bits)) ?_).mono ?_
  · intro i _ _
    obtain ⟨idx, hidx, hval⟩ := generate_bit_eq hash i hpos
    have hlt : idx.toNat < f.num_bits.toNat := hval ▸ probeBit_lt hpos
    rw [hidx, ok_bind, getBit, testBitAt_ok (byte_lt hsized hlt), hval]
  · intro b hb
    rw [hb]
    constructor
    · intro h p hp
      obtain ⟨i, hi, rfl⟩ := hp
      exact h i (Nat.zero_le i) (by omega)
    · intro h i _ hi
      exact h ⟨i, by omega, rfl⟩

instance : LawfulBloomFilter BasicBloomFilter where
  Shape := Word × Word
  shape f := (f.num_bits, f.num_hashes)
  Valid s := Sized s.1
  HasMask _ := True
  width := 8
  table f := f.bitvector.toArray
  tableSize s := ((s.1 + 7) / 8).toNat
  size_table f := by simp
  footprint s := positions s.1 s.2
  insert_spec f h hvalid _ := (insertImpl_spec hvalid).mono fun f' hf' =>
    ⟨Prod.ext hf'.1 hf'.2.1, hf'.2.2⟩
  contains_spec f h hvalid _ := containsImpl_spec hvalid
  insertBatch_eq f hs := insertLoop_eq_foldlM insertImpl hs f
  containsBatch_eq f hs result p hp hcount hsize := fillAndProbe_ok hp hcount hsize

theorem valid_new {num_bits : Word} (hsized : Sized num_bits) (num_hashes : Word) :
    LawfulBloomFilter.Valid (LawfulBloomFilter.shape (new num_bits num_hashes)) :=
  hsized

theorem fresh_new (num_bits num_hashes : Word) :
    bitSet (LawfulBloomFilter.table (new num_bits num_hashes)) = ∅ :=
  bitSet_replicate_zero _

/-! ### Balance of the probe positions -/

/-- The word that `generate_bit` reduces to the `i`-th position. -/
def probeWord (i : Nat) (hash : Word) : Word :=
  murmurHash (hash + BitVec.ofNat 64 i * 0x9e3779b97f4a7c15#64)

/-- Mixing loses nothing: it is a translation and then a permutation. -/
theorem probeWord_bijective (i : Nat) : Function.Bijective (probeWord i) := by
  refine murmurPerm.bijective.comp (g := murmurPerm) ⟨?_, ?_⟩
  · -- Adding a constant is injective and onto.
    intro x y hxy
    exact (BitVec.add_left_inj _).mp hxy
  · intro y
    exact ⟨y - BitVec.ofNat 64 i * 0x9e3779b97f4a7c15#64, BitVec.sub_add_cancel y _⟩

theorem generate_bit_eq_ok_iff {hash p num_bits : Word} {i : Nat} (h : 0 < num_bits.toNat) :
    generate_bit hash i num_bits = .ok p ↔
      (probeWord i hash).toNat % num_bits.toNat = p.toNat := by
  obtain ⟨idx, hidx, hval⟩ := generate_bit_eq hash i h
  have hval' : idx.toNat = (probeWord i hash).toNat % num_bits.toNat := hval
  rw [hidx, ← hval', BitVec.toNat_inj]
  constructor
  · intro heq
    exact Except.ok.inj heq
  · intro heq
    rw [heq]

/-- **Balance**: each position is the `i`-th position of equally many hashes. -/
theorem probe_positions_balanced {k : Nat} (hk : k ≤ 63) (i : Nat) {p : Word}
    (hp : p.toNat < 2 ^ k) :
    {hash : Word | generate_bit hash i (BitVec.ofNat 64 (2 ^ k)) = .ok p}.ncard =
      2 ^ (64 - k) := by
  have hbits : (BitVec.ofNat 64 (2 ^ k)).toNat = 2 ^ k := by
    rw [BitVec.toNat_ofNat]
    exact Nat.mod_eq_of_lt (Nat.pow_lt_pow_right (by decide) (by omega))
  have hpos : 0 < (BitVec.ofNat 64 (2 ^ k)).toNat := by
    rw [hbits]
    exact Nat.two_pow_pos k
  calc {hash : Word | generate_bit hash i (BitVec.ofNat 64 (2 ^ k)) = .ok p}.ncard
      = {x : Word | x.toNat % 2 ^ k = p.toNat}.ncard := by
        apply ncard_relabel (probeWord_bijective i)
        intro hash
        rw [generate_bit_eq_ok_iff hpos, hbits]
    _ = 2 ^ (64 - k) := ncard_toNat_mod (by omega) hp

/-- Position 5 of eight, as the second position of a hash. -/
theorem probe_positions_balanced_eight :
    {hash : Word | generate_bit hash 1 8 = .ok 5}.ncard = 2 ^ 61 :=
  probe_positions_balanced (k := 3) (by decide) 1 (by decide)

end BasicBloomFilter

end BloomFilters
