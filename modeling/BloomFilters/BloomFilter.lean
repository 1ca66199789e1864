import BloomFilters.HelperFuncs
import BloomFilters.Framework.Footprint

/-! # The filter interface

    `bloom_filter/BloomFilter.h`: every filter supplies four functions,
    and `insert`, `contains`, `insertBatch` and `containsBatch` forward to
    them. A `const std::uint64_t* hash_array` with its `count` is the
    array of the `count` hashes that the call may read.

    A *history* is a finite sequence of insertions through either path.
    `LawfulBloomFilter` states how a filter refines a footprint filter; what
    a whole history stores then follows for all filters at once.
-/

open Checked BitArray Footprint

namespace BloomFilters

/-! ## The CRTP base class -/

class BloomFilter (Impl : Type) where
  insertImpl : Impl → Word → Comp Impl
  containsImpl : Impl → Word → Comp Bool
  insertBatchImpl : Impl → Array Word → Comp Impl
  containsBatchImpl : Impl → Array Word → Array Byte → Comp (Array Byte)

/-- `enum class ImplMode` of the classes that have an AVX2 path. -/
inductive ImplMode where
  | scalar
  | avx2
  deriving DecidableEq, Repr

variable {Impl : Type} [BloomFilter Impl]

abbrev insert (f : Impl) (hash : Word) : Comp Impl := BloomFilter.insertImpl f hash

abbrev contains (f : Impl) (hash : Word) : Comp Bool := BloomFilter.containsImpl f hash

abbrev insertBatch (f : Impl) (hash_array : Array Word) : Comp Impl :=
  BloomFilter.insertBatchImpl f hash_array

abbrev containsBatch (f : Impl) (hash_array : Array Word) (result : Array Byte) :
    Comp (Array Byte) :=
  BloomFilter.containsBatchImpl f hash_array result

/-! ## Scalar loops that the filters share -/

/-- `for (i = processed; i < count; i++) insertImpl(hash_array[i]);` -/
def insertLoop {σ : Type} (insertImpl : σ → Word → Comp σ) (hash_array : Array Word)
    (processed : Nat) (f : σ) : Comp σ :=
  forLoop processed hash_array.size 1 (fun i f => load hash_array i >>= insertImpl f) f

/-- `for (i = processed; i < count; i++)
       if (containsImpl(hash_array[i])) result[i / 8] |= 1u << (i % 8);` -/
def probeLoop (containsImpl : Word → Comp Bool) (hash_array : Array Word) (processed : Nat)
    (result : Array Byte) : Comp (Array Byte) :=
  forLoop processed hash_array.size 1 (fun i result => do
    if ← containsImpl (← load hash_array i) then orBit result i else return result) result

/-- `std::fill(result, result + (count + 7) / 8, 0);` and the loop above
    over the whole batch. -/
def fillAndProbe (containsImpl : Word → Comp Bool) (hash_array : Array Word)
    (result : Array Byte) : Comp (Array Byte) := do
  let result ← fillZero result (result_bytes hash_array.size)
  probeLoop containsImpl hash_array 0 result

theorem insertLoop_eq_foldlM {σ : Type} (insertImpl : σ → Word → Comp σ)
    (hash_array : Array Word) (f : σ) :
    insertLoop insertImpl hash_array 0 f = hash_array.toList.foldlM insertImpl f :=
  forLoop_load_eq_foldlM hash_array insertImpl f

/-- The answers to the first `i` hashes; nothing is reported from there on. -/
def answers (p : Nat → Bool) (i : Nat) : Nat → Bool := fun q => decide (q < i) && p q

/-- The answer to hash `i` is all that `answers` gains there. -/
theorem answers_succ {p : Nat → Bool} {i : Nat} :
    answers p (i + 1) = if p i = true then (fun q => q = i || answers p i q) else answers p i := by
  funext q
  -- Before `i` nothing changes, at `i` the answer comes in, behind it there is none.
  rcases Nat.lt_trichotomy q i with hlt | rfl | hgt
  · have hne : q ≠ i := by omega
    have hlt' : q < i + 1 := by omega
    split <;> simp [answers, hlt, hlt', hne]
  · by_cases hp : p q = true <;> simp [answers, hp]
  · have hne : q ≠ i := by omega
    have hnot : ¬ q < i + 1 := by omega
    have hnot' : ¬ q < i := by omega
    split <;> simp [answers, hnot, hnot', hne]

/-- The scalar probe loop completes a buffer that holds the answers before
    `processed`. -/
theorem probeLoop_ok {containsImpl : Word → Comp Bool} {hash_array : Array Word}
    {processed n : Nat} {result : Array Byte} {p : Nat → Bool}
    (hp : ∀ i, (hi : i < hash_array.size) → containsImpl hash_array[i] = .ok (p i))
    (hle : processed ≤ hash_array.size) (hn : hash_array.size ≤ 8 * n) (hsize : n ≤ result.size) :
    probeLoop containsImpl hash_array processed (packBits (answers p processed) n result) =
      .ok (packBits (answers p hash_array.size) n result) := by
  -- Before round `i` the buffer holds the answers to the first `i` hashes.
  apply forLoop_eq_ok (fun i => packBits (answers p i) n result) Nat.one_pos hle (Nat.one_dvd _)
    rfl
  intro i _ hi _
  have hi8 : i / 8 < n := by omega
  rw [load_ok (by omega), ok_bind, hp i (by omega), ok_bind, answers_succ]
  by_cases hpi : p i = true
  · rw [if_pos hpi, if_pos hpi, orBit_ok (by simp; omega), set_or_packBits hi8 hsize]
  · rw [if_neg hpi, if_neg hpi]
    rfl

/-- The buffer that the filters fill before they probe. -/
theorem fillZero_answers {n : Nat} {result : Array Byte} {p : Nat → Bool}
    (hsize : n ≤ result.size) : fillZero result n = .ok (packBits (answers p 0) n result) := by
  rw [fillZero_ok hsize]
  apply congrArg Except.ok
  apply packBits_congr
  intro q _
  simp [answers]

theorem fillAndProbe_ok {containsImpl : Word → Comp Bool} {hash_array : Array Word}
    {result : Array Byte} {p : Nat → Bool}
    (hp : ∀ i, (hi : i < hash_array.size) → containsImpl hash_array[i] = .ok (p i))
    (hcount : hash_array.size + 7 < 2 ^ 64)
    (hsize : result_bytes hash_array.size ≤ result.size) :
    fillAndProbe containsImpl hash_array result =
      .ok (packBits (answers p hash_array.size) (result_bytes hash_array.size) result) := by
  unfold fillAndProbe
  rw [fillZero_answers hsize, ok_bind]
  exact probeLoop_ok hp (Nat.zero_le _) (by rw [result_bytes_eq hcount]; omega) hsize

/-- Bytes that hold answers, in front of bytes that were cleared. -/
theorem packBits_answers {p : Nat → Bool} {m n : Nat} {result : Array Byte} (hmn : m ≤ n) :
    packBits p m (packBits (answers p 0) n result) = packBits (answers p (8 * m)) n result := by
  apply Array.ext (by simp)
  intro i hi hi'
  simp only [getElem_packBits]
  -- Bytes below `m` hold answers, the ones above are clear in both.
  rcases Nat.lt_or_ge i m with hlt | hge
  · rw [if_pos hlt, if_pos (by omega)]
    apply byteOf_congr
    intro k hk
    have hq : 8 * i + k < 8 * m := by omega
    simp [answers, hq]
  · rw [if_neg (by omega)]
    split
    · apply byteOf_congr
      intro k hk
      have hq : ¬ 8 * i + k < 8 * m := by omega
      simp [answers, hq]
    · rfl

/-- Without a tail every bit of the bytes is an answer. -/
theorem packBits_eq_answers {p : Nat → Bool} {m n : Nat} {result : Array Byte} (h : 8 * m ≤ n) :
    packBits p m result = packBits (answers p n) m result := by
  apply packBits_congr
  intro q hq
  have hlt : q < n := by omega
  simp [answers, hlt]

/-- Bytes that hold answers, and one more byte that was cleared. -/
theorem set_zero_packBits {p : Nat → Bool} {m : Nat} {result : Array Byte} (hm : m < result.size) :
    (packBits p m result).set m 0 (by simpa using hm) =
      packBits (answers p (8 * m)) (m + 1) result := by
  simp only [packBits_eq_answers (p := p) (Nat.le_refl (8 * m))]
  apply set_packBits hm
  intro k hk
  have hnot : ¬ 8 * m + k < 8 * m := by omega
  simp [answers, hnot]

/-- The answers to a batch, each of which is there. -/
theorem exists_answers {containsImpl : Word → Comp Bool} {hash_array : Array Word}
    (h : ∀ hash ∈ hash_array, ∃ b, containsImpl hash = .ok b) :
    ∃ p : Nat → Bool, ∀ i, (hi : i < hash_array.size) → containsImpl hash_array[i] = .ok (p i) := by
  refine ⟨fun i => (containsImpl (hash_array.getD i 0)).toOption.getD false, ?_⟩
  intro i hi
  obtain ⟨b, hb⟩ := h hash_array[i] (Array.getElem_mem hi)
  simp [hi, hb, Except.toOption]

/-- The whole batch is answered iff every hash is. -/
theorem fillAndProbe_returns_iff {containsImpl : Word → Comp Bool} {hash_array : Array Word}
    {result : Array Byte} (hcount : hash_array.size + 7 < 2 ^ 64)
    (hsize : result_bytes hash_array.size ≤ result.size) :
    (∃ r, fillAndProbe containsImpl hash_array result = .ok r) ↔
      ∀ h ∈ hash_array, ∃ b, containsImpl h = .ok b := by
  constructor
  · intro hreturns h hh
    obtain ⟨r, hr⟩ := hreturns
    obtain ⟨i, hi, rfl⟩ := Array.mem_iff_getElem.mp hh
    -- The loop has gone through round `i`, which answers this hash first.
    obtain ⟨_, _, hprobe⟩ := exists_of_bind_ok hr
    obtain ⟨s, t, hround⟩ := forLoop_round hprobe (Nat.zero_le i) hi
    rw [load_ok hi, ok_bind] at hround
    obtain ⟨b, hb, _⟩ := exists_of_bind_ok hround
    exact ⟨b, hb⟩
  · intro hall
    obtain ⟨p, hp⟩ := exists_answers hall
    exact ⟨_, fillAndProbe_ok hp hcount hsize⟩

/-- Without any knowledge of the buffer: the loop writes inside of it. -/
theorem probeLoop_safe {containsImpl : Word → Comp Bool} {hash_array : Array Word}
    {processed : Nat} {result : Array Byte} (hp : ∀ h, Safe (containsImpl h) fun _ => True)
    (hle : processed ≤ hash_array.size) (hsize : hash_array.size ≤ 8 * result.size) :
    Safe (probeLoop containsImpl hash_array processed result)
      (fun r => r.size = result.size) := by
  apply forLoop_safe (fun _ (r : Array Byte) => r.size = result.size) hle rfl
  intro i r _ hi hr
  rw [load_ok hi, ok_bind]
  apply (hp _).bind
  intro b _
  -- Only a reported hash is written, inside of the buffer.
  cases b with
  | false => exact safe_ok hr
  | true => exact ((orBit_bitSet (by omega)).mono fun r' hr' => hr'.1.trans hr).safe

/-! ## Histories -/

/-- One insertion of a history. -/
inductive Op where
  | insert (hash : Word)
  | insertBatch (hash_array : Array Word)

/-- The hashes that an operation inserts. -/
def Op.hashes : Op → List Word
  | .insert hash => [hash]
  | .insertBatch hash_array => hash_array.toList

def applyOp (f : Impl) : Op → Comp Impl
  | .insert hash => insert f hash
  | .insertBatch hash_array => insertBatch f hash_array

/-- The filter after a history. -/
def run (f : Impl) (history : List Op) : Comp Impl := history.foldlM applyOp f

/-- The hashes that a history inserts. -/
def inserted (history : List Op) : List Word := history.flatMap Op.hashes

/-! ## Refinement of footprint filters -/

/-- A filter whose table holds exactly the footprints of the inserted
    hashes.

    `Shape` is what no operation changes and what the footprint depends on
    (the sizes, not the `ImplMode`). `HasMask` singles out the hashes for
    which the filter finds its probe positions in finitely many steps. -/
class LawfulBloomFilter (Impl : Type) [BloomFilter Impl] where
  Shape : Type
  shape : Impl → Shape
  /-- Sizes for which all probe positions lie inside of the table. -/
  Valid : Shape → Prop
  HasMask : Word → Prop
  /-- Bits in a word of the table. -/
  width : Nat
  table : Impl → Array (BitVec width)
  tableSize : Shape → Nat
  size_table : ∀ f : Impl, (table f).size = tableSize (shape f)
  footprint : Shape → Word → Set Nat
  insert_spec : ∀ (f : Impl) (h : Word), Valid (shape f) → HasMask h →
    Returns (insert f h) fun f' =>
      shape f' = shape f ∧ bitSet (table f') = bitSet (table f) ∪ footprint (shape f) h
  contains_spec : ∀ (f : Impl) (h : Word), Valid (shape f) → HasMask h →
    Returns (contains f h) fun b =>
      (b = true ↔ Reports (footprint (shape f)) (bitSet (table f)) h)
  insertBatch_eq : ∀ (f : Impl) (hs : Array Word), insertBatch f hs = hs.toList.foldlM insert f
  containsBatch_eq : ∀ (f : Impl) (hs : Array Word) (result : Array Byte) (p : Nat → Bool),
    (∀ i, (hi : i < hs.size) → contains f hs[i] = .ok (p i)) → hs.size + 7 < 2 ^ 64 →
    result_bytes hs.size ≤ result.size →
    containsBatch f hs result = .ok (packBits (answers p hs.size) (result_bytes hs.size) result)

section runs

variable [LawfulBloomFilter Impl]

open LawfulBloomFilter

/-- A history is the fold of its hashes: how they are cut into batches
    leaves no trace. -/
theorem run_eq_foldlM (f : Impl) (history : List Op) :
    run f history = (inserted history).foldlM insert f := by
  induction history generalizing f with
  | nil => rfl
  | cons op history ih =>
    -- A batch is the fold of its hashes.
    have hop : applyOp f op = op.hashes.foldlM insert f := by
      cases op with
      | insert hash => simp [applyOp, Op.hashes]
      | insertBatch hash_array => exact insertBatch_eq f hash_array
    have hrun : run f (op :: history) = applyOp f op >>= fun f' => run f' history := rfl
    rw [hrun, hop, show inserted (op :: history) = op.hashes ++ inserted history from rfl,
      List.foldlM_append]
    cases op.hashes.foldlM insert f with
    | error e => rfl
    | ok f' => exact ih f'

/-- **Simulation**: a sequence of insertions does to the bits of the table what
    it does to the positions of a footprint filter. -/
theorem foldlM_insert_simulates (f : Impl) (hashes : List Word) (hvalid : Valid (shape f))
    (hmask : ∀ h ∈ hashes, HasMask Impl h) :
    Returns (hashes.foldlM insert f) fun f' => shape f' = shape f ∧
      bitSet (table f') =
        hashes.foldl (Footprint.insert (footprint (shape f))) (bitSet (table f)) := by
  -- The shape never changes, so all footprints are those of the first filter.
  induction hashes generalizing f with
  | nil => exact returns_ok ⟨rfl, rfl⟩
  | cons h hashes ih =>
    rw [List.foldlM_cons]
    apply (insert_spec f h hvalid (hmask h (by simp))).bind
    intro f₁ hf₁
    obtain ⟨hshape, hbits⟩ := hf₁
    have hvalid₁ : Valid (shape f₁) := hshape ▸ hvalid
    apply (ih f₁ hvalid₁ fun k hk => hmask k (by simp [hk])).mono
    intro f₂ hf₂
    obtain ⟨hshape₂, hbits₂⟩ := hf₂
    rw [hshape, hbits] at hbits₂
    exact ⟨hshape₂.trans hshape, hbits₂⟩

/-- **Run lemma**: a sequence of insertions stores the footprints of the
    inserted hashes. -/
theorem foldlM_insert_spec (f : Impl) (hashes : List Word) (hvalid : Valid (shape f))
    (hmask : ∀ h ∈ hashes, HasMask Impl h) :
    Returns (hashes.foldlM insert f) fun f' => shape f' = shape f ∧
      bitSet (table f') =
        bitSet (table f) ∪ occupied (footprint (shape f)) {h | h ∈ hashes} := by
  apply (foldlM_insert_simulates f hashes hvalid hmask).mono
  intro f' hf'
  rw [foldl_insert] at hf'
  exact hf'

theorem run_spec (f : Impl) (history : List Op) (hvalid : Valid (shape f))
    (hmask : ∀ h ∈ inserted history, HasMask Impl h) :
    Returns (run f history) fun f' => shape f' = shape f ∧
      bitSet (table f') = bitSet (table f) ∪
        occupied (footprint (shape f)) {h | h ∈ inserted history} := by
  rw [run_eq_foldlM]
  exact foldlM_insert_spec f (inserted history) hvalid hmask

/-- Filters of one shape with the same bits have the same table. -/
theorem table_eq_of_bitSet {f g : Impl} (hshape : shape f = shape g)
    (hbits : bitSet (table f) = bitSet (table g)) : table f = table g :=
  eq_of_bitSet (by rw [size_table, size_table, hshape]) hbits

end runs

end BloomFilters
