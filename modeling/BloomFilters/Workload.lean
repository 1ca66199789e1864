import BloomFilters.BloomFilter
import BloomFilters.Framework.Window

/-! # The workload of the benchmark

    The rest of `util/HelperFuncs.h`: the vectors of hashes that `main` in
    `src/bench.cpp` generates, and the counting of packed answers.

    * **Generation**: `generate_unique` walks the images of consecutive
      numbers under `murmurHash` and skips those that were used before.
      `murmurHash` is a permutation, so no image is met twice and the walk
      ends.
    * **Mixing**: `mix_vector` alternates two vectors.
    * **Counting**: `count_packed_true` adds up whole bytes and a masked
      tail.

    `reserve` stands for `std::vector<std::uint64_t>::reserve`: it yields
    nothing, but it may throw.
-/

open Checked BitArray Words Window

namespace BloomFilters

/-! ## Generation -/

/-- The variables of `generate_unique`. -/
structure UniqueState where
  hashes : Array Word
  value : Word
  used : Finset Word

/-- `const std::uint64_t hash = murmurHash(value++);
    if (used.insert(hash).second) hashes.push_back(hash);` -/
def nextUnique (s : UniqueState) : Comp UniqueState :=
  let hash := murmurHash s.value
  let s := { s with value := s.value + 1 }
  if hash ∈ s.used then .ok s
  else .ok { s with used := Insert.insert hash s.used, hashes := s.hashes.push hash }

/-- Returns the hashes and `used` after the call; the fuel bounds the loop. -/
def generate_unique (reserve : Nat → Comp Unit) (fuel : Nat) (count seed : Word)
    (used : Finset Word) : Comp (Array Word × Finset Word) := do
  reserve count.toNat
  let s ← whileLoop fuel (fun s => decide (s.hashes.size < count.toNat)) nextUnique
    { hashes := #[], value := seed, used := used }
  return (s.hashes, s.used)

/-- The hashes of the first `n` rounds. -/
def visited (seed : Word) (n : Nat) : Finset Word :=
  (Finset.range n).image fun j => murmurHash (seed + BitVec.ofNat 64 j)

theorem visited_succ (seed : Word) (n : Nat) :
    visited seed (n + 1) =
      Insert.insert (murmurHash (seed + BitVec.ofNat 64 n)) (visited seed n) := by
  rw [visited, Finset.range_add_one, Finset.image_insert, visited]

/-- Until the numbers wrap around, every round meets a new hash. -/
theorem card_visited (seed : Word) {n : Nat} (hn : n ≤ 2 ^ 64) : (visited seed n).card = n := by
  refine (Finset.card_image_of_injOn fun i hi j hj heq => ?_).trans (Finset.card_range n)
  have hi' : i < n := by simpa using hi
  have hj' : j < n := by simpa using hj
  -- `murmurHash` is injective, so equal images come from equal numbers.
  have hnum : seed + BitVec.ofNat 64 i = seed + BitVec.ofNat 64 j := murmurPerm.injective heq
  have hnat := congrArg BitVec.toNat ((BitVec.add_right_inj seed).mp hnum)
  rwa [BitVec.toNat_ofNat, BitVec.toNat_ofNat, Nat.mod_eq_of_lt (by omega),
    Nat.mod_eq_of_lt (by omega)] at hnat

/-- After `n` rounds the vector holds what has been visited, less what had
    been used before the call. -/
structure Generated (seed : Word) (used : Finset Word) (n : Nat) (s : UniqueState) : Prop where
  value_eq : s.value = seed + BitVec.ofNat 64 n
  used_eq : s.used = used ∪ visited seed n
  hashes_eq : s.hashes.toList.toFinset = visited seed n \ used
  nodup : s.hashes.toList.Nodup

variable {seed : Word} {used : Finset Word} {n : Nat} {s : UniqueState}

theorem Generated.size_eq (h : Generated seed used n s) :
    s.hashes.size = (visited seed n \ used).card := by
  rw [← h.hashes_eq, List.toFinset_card_of_nodup h.nodup, Array.length_toList]

/-- **Step lemma**: a used hash is skipped, an unused one appended. -/
theorem Generated.next (h : Generated seed used n s) :
    Returns (nextUnique s) fun s' => Generated seed used (n + 1) s' ∧
      s'.hashes.size ≤ s.hashes.size + 1 := by
  have hvalue : s.value + 1 = seed + BitVec.ofNat 64 (n + 1) := by
    rw [h.value_eq, BitVec.add_assoc, BitVec.ofNat_add]
    rfl
  rw [nextUnique, h.value_eq]
  split
  · next hin =>
    have hin' : murmurHash (seed + BitVec.ofNat 64 n) ∈ used ∪ visited seed n := h.used_eq ▸ hin
    refine returns_ok ⟨⟨h.value_eq ▸ hvalue, ?_, ?_, h.nodup⟩, Nat.le_succ _⟩
    · rw [visited_succ, Finset.union_insert, Finset.insert_eq_of_mem hin', ← h.used_eq]
    · rw [visited_succ, h.hashes_eq]
      -- Used before the call, or met in an earlier round of it.
      rcases Finset.mem_union.mp hin' with hused | hvisited
      · rw [Finset.insert_sdiff_of_mem _ hused]
      · rw [Finset.insert_eq_of_mem hvisited]
  · next hnew =>
    have hnew' : murmurHash (seed + BitVec.ofNat 64 n) ∉ used ∪ visited seed n := h.used_eq ▸ hnew
    rw [Finset.mem_union, not_or] at hnew'
    refine returns_ok ⟨⟨h.value_eq ▸ hvalue, ?_, ?_, ?_⟩, by simp⟩
    · rw [visited_succ, Finset.union_insert, ← h.used_eq]
    · rw [visited_succ, Finset.insert_sdiff_of_notMem _ hnew'.1, ← h.hashes_eq]
      ext x
      simp
    · -- The new hash is not in the vector, which holds visited ones only.
      have hnot : murmurHash (seed + BitVec.ofNat 64 n) ∉ s.hashes.toList := by
        rw [← List.mem_toFinset, h.hashes_eq, Finset.mem_sdiff]
        exact fun hmem => hnew'.2 hmem.1
      rw [Array.toList_push, ← List.concat_eq_append]
      exact h.nodup.concat hnot

/-- While hashes are missing, few numbers have been tried. -/
theorem Generated.lt_of_missing {count : Word} (h : Generated seed used n s)
    (hroom : used.card + count.toNat ≤ 2 ^ 64) (hmissing : s.hashes.size < count.toNat) :
    n < used.card + count.toNat := by
  by_contra hge
  -- Otherwise `used.card + count` hashes would be visited, at most `used.card` of them used.
  have hsub : visited seed (used.card + count.toNat) ⊆ visited seed n :=
    Finset.image_subset_image (Finset.range_subset_range.mpr (by omega))
  have hcard := Finset.card_le_card hsub
  have hdiff := Finset.le_card_sdiff used (visited seed n)
  rw [card_visited seed hroom] at hcard
  rw [h.size_eq] at hmissing
  omega

/-- What a call of `generate_unique` yields. -/
structure FreshHashes (count : Word) (used : Finset Word) (hashes : Array Word)
    (used' : Finset Word) : Prop where
  size_eq : hashes.size = count.toNat
  nodup : hashes.toList.Nodup
  fresh : ∀ h ∈ hashes, h ∉ used
  used_eq : used' = used ∪ hashes.toList.toFinset

/-- A loop that has all its hashes yields fresh ones. -/
theorem Generated.fresh {count : Word} (hs : Generated seed used n s)
    (hsize : s.hashes.size = count.toNat) : FreshHashes count used s.hashes s.used := by
  refine ⟨hsize, hs.nodup, fun h hh => ?_, ?_⟩
  · have hmem : h ∈ s.hashes.toList.toFinset := by simpa using hh
    rw [hs.hashes_eq, Finset.mem_sdiff] at hmem
    exact hmem.2
  · rw [hs.used_eq, hs.hashes_eq, Finset.union_sdiff_self_eq_union]

theorem generated_start (seed : Word) (used : Finset Word) :
    Generated seed used 0 { hashes := #[], value := seed, used := used } :=
  ⟨by simp, by simp [visited], by simp [visited], by simp⟩

theorem Generated.next_le {count : Word} (h : Generated seed used n s)
    (hmissing : s.hashes.size < count.toNat) :
    Returns (nextUnique s) fun s' =>
      Generated seed used (n + 1) s' ∧ s'.hashes.size ≤ count.toNat := by
  apply h.next.mono
  intro s' hs'
  exact ⟨hs'.1, hs'.2.trans hmissing⟩

/-- Whatever a call returns is fresh. -/
theorem freshHashes_of_generate_unique {reserve : Nat → Comp Unit} {fuel : Nat} {count : Word}
    {r : Array Word × Finset Word} (h : generate_unique reserve fuel count seed used = .ok r) :
    FreshHashes count used r.1 r.2 := by
  obtain ⟨_, _, hrest⟩ := exists_of_bind_ok h
  obtain ⟨s, hs, hdone⟩ := exists_of_bind_ok hrest
  -- The number of rounds is not known here; the invariant holds for some number.
  have hround : ∀ s : UniqueState,
      (∃ n, Generated seed used n s) ∧ s.hashes.size ≤ count.toNat →
      decide (s.hashes.size < count.toNat) = true →
      Safe (nextUnique s) fun s' =>
        (∃ n, Generated seed used n s') ∧ s'.hashes.size ≤ count.toNat := by
    intro s hs hmissing
    obtain ⟨⟨n, hgen⟩, _⟩ := hs
    apply (hgen.next_le (of_decide_eq_true hmissing)).safe.mono
    intro s' hs'
    exact ⟨⟨n + 1, hs'.1⟩, hs'.2⟩
  have hsafe := whileLoop_safe _ hround fuel _ ⟨⟨0, generated_start seed used⟩, Nat.zero_le _⟩
  obtain ⟨⟨⟨n, hgen⟩, hle⟩, hstop⟩ := hsafe.1 s hs
  have hge : ¬ s.hashes.size < count.toNat := of_decide_eq_false hstop
  cases hdone
  exact hgen.fresh (Nat.le_antisymm hle (Nat.not_lt.mp hge))

/-- **Run lemma**: fresh distinct hashes, after at most `used.card + count`
    rounds. -/
theorem generate_unique_spec {reserve : Nat → Comp Unit} {fuel : Nat} {count : Word} (seed : Word)
    (used : Finset Word) (hreserve : reserve count.toNat = .ok ())
    (hroom : used.card + count.toNat ≤ 2 ^ 64) (hfuel : used.card + count.toNat < fuel) :
    Returns (generate_unique reserve fuel count seed used) fun r =>
      FreshHashes count used r.1 r.2 := by
  have hround : ∀ n (s : UniqueState), Generated seed used n s ∧ s.hashes.size ≤ count.toNat →
      decide (s.hashes.size < count.toNat) = true →
      Returns (nextUnique s) fun s' =>
        Generated seed used (n + 1) s' ∧ s'.hashes.size ≤ count.toNat :=
    fun n s hs hmissing => hs.1.next_le (of_decide_eq_true hmissing)
  -- The variant: a round that is still needed is one of the first `used.card + count`.
  have hbound : ∀ n (s : UniqueState), Generated seed used n s ∧ s.hashes.size ≤ count.toNat →
      decide (s.hashes.size < count.toNat) = true → n < used.card + count.toNat :=
    fun n s hs hmissing => hs.1.lt_of_missing hroom (of_decide_eq_true hmissing)
  obtain ⟨s, hs, _⟩ := whileLoop_returns _ _ hround hbound
    ⟨generated_start seed used, Nat.zero_le _⟩ (Nat.zero_le _)
    (show used.card + count.toNat < 0 + fuel by omega)
  have hreturns : generate_unique reserve fuel count seed used = .ok (s.hashes, s.used) := by
    unfold generate_unique
    rw [hreserve, ok_bind, hs]
    rfl
  exact ⟨_, hreturns, freshHashes_of_generate_unique hreturns⟩

/-! ### Calls that share one set -/

/-- Calls of `generate_unique`, given by `count` and `seed`, one after the
    other on one set `used`: the vectors and the set at the end. -/
def generate_sequence (reserve : Nat → Comp Unit) (fuel : Nat) :
    List (Word × Word) → Finset Word → Comp (List (Array Word) × Finset Word)
  | [], used => .ok ([], used)
  | (count, seed) :: calls, used => do
    let (hashes, used) ← generate_unique reserve fuel count seed used
    let (vectors, used) ← generate_sequence reserve fuel calls used
    return (hashes :: vectors, used)

/-- What a sequence of calls yields. -/
structure FreshVectors (calls : List (Word × Word)) (used : Finset Word)
    (vectors : List (Array Word)) (used' : Finset Word) : Prop where
  sizes : vectors.map Array.size = calls.map fun call => call.1.toNat
  nodup : ∀ v ∈ vectors, v.toList.Nodup
  disjoint : vectors.Pairwise fun v v' => ∀ h ∈ v, h ∉ v'
  fresh : ∀ v ∈ vectors, ∀ h ∈ v, h ∉ used
  used_iff : ∀ h, h ∈ used' ↔ h ∈ used ∨ ∃ v ∈ vectors, h ∈ v

theorem freshVectors_nil (used : Finset Word) : FreshVectors [] used [] used where
  sizes := rfl
  nodup v hv := by cases hv
  disjoint := List.Pairwise.nil
  fresh v hv := by cases hv
  used_iff h := by simp

theorem FreshHashes.mem_used_iff {count : Word} {hashes : Array Word} {used' : Finset Word}
    (h : FreshHashes count used hashes used') (x : Word) :
    x ∈ used' ↔ x ∈ used ∨ x ∈ hashes := by
  rw [h.used_eq, Finset.mem_union, List.mem_toFinset, Array.mem_toList_iff]

theorem FreshHashes.card_used {count : Word} {hashes : Array Word} {used' : Finset Word}
    (h : FreshHashes count used hashes used') : used'.card = used.card + count.toNat := by
  have hdisjoint : Disjoint used hashes.toList.toFinset := by
    rw [Finset.disjoint_right]
    intro x hx
    rw [List.mem_toFinset, Array.mem_toList_iff] at hx
    exact h.fresh x hx
  rw [h.used_eq, Finset.card_union_of_disjoint hdisjoint, List.toFinset_card_of_nodup h.nodup,
    Array.length_toList, h.size_eq]

/-- **Step lemma**: one more call in front; it fills the set that all the
    later calls avoid. -/
theorem FreshHashes.cons {count seed : Word} {calls : List (Word × Word)} {hashes : Array Word}
    {used₁ used' : Finset Word} {vectors : List (Array Word)}
    (h : FreshHashes count used hashes used₁) (hs : FreshVectors calls used₁ vectors used') :
    FreshVectors ((count, seed) :: calls) used (hashes :: vectors) used' where
  sizes := by
    rw [List.map_cons, List.map_cons, hs.sizes, h.size_eq]
  nodup v hv := by
    rcases List.mem_cons.mp hv with rfl | hv
    · exact h.nodup
    · exact hs.nodup v hv
  disjoint := by
    refine List.pairwise_cons.mpr ⟨fun v hv x hx hxv => ?_, hs.disjoint⟩
    exact hs.fresh v hv x hxv ((h.mem_used_iff x).mpr (Or.inr hx))
  fresh v hv := by
    rcases List.mem_cons.mp hv with rfl | hv
    · exact h.fresh
    · intro x hx hused
      exact hs.fresh v hv x hx ((h.mem_used_iff x).mpr (Or.inl hused))
  used_iff x := by
    rw [hs.used_iff, h.mem_used_iff, List.exists_mem_cons_iff, or_assoc]

/-- Whatever a sequence of calls returns is fresh. -/
theorem freshVectors_of_generate_sequence {reserve : Nat → Comp Unit} {fuel : Nat}
    {calls : List (Word × Word)} {used : Finset Word} {r : List (Array Word) × Finset Word}
    (h : generate_sequence reserve fuel calls used = .ok r) :
    FreshVectors calls used r.1 r.2 := by
  induction calls generalizing used r with
  | nil =>
    cases h
    exact freshVectors_nil used
  | cons call calls ih =>
    obtain ⟨⟨hashes, used₁⟩, hcall, hrest⟩ := exists_of_bind_ok h
    obtain ⟨⟨vectors, used'⟩, hcalls, hdone⟩ := exists_of_bind_ok hrest
    cases hdone
    exact (freshHashes_of_generate_unique hcall).cons (ih hcalls)

/-- ... and it returns if the words suffice for all calls. -/
theorem generate_sequence_spec {reserve : Nat → Comp Unit} {fuel : Nat}
    (hreserve : ∀ n, reserve n = .ok ()) (calls : List (Word × Word)) (used : Finset Word)
    (hroom : used.card + (calls.map fun call => call.1.toNat).sum ≤ 2 ^ 64)
    (hfuel : used.card + (calls.map fun call => call.1.toNat).sum < fuel) :
    Returns (generate_sequence reserve fuel calls used) fun r =>
      FreshVectors calls used r.1 r.2 := by
  induction calls generalizing used with
  | nil => exact returns_ok (freshVectors_nil used)
  | cons call calls ih =>
    rw [List.map_cons, List.sum_cons] at hroom hfuel
    obtain ⟨⟨hashes, used₁⟩, hcall, hfresh⟩ :=
      generate_unique_spec call.2 used (hreserve call.1.toNat) (by omega)
        (show used.card + call.1.toNat < fuel by omega)
    -- The first call takes its `count` hashes out of the room for all calls.
    have hcard : used₁.card = used.card + call.1.toNat := hfresh.card_used
    obtain ⟨⟨vectors, used'⟩, hcalls, hvectors⟩ := ih used₁ (by omega) (by omega)
    unfold generate_sequence
    rw [hcall, ok_bind]
    simp only [hcalls, ok_bind]
    exact returns_ok (hfresh.cons hvectors)

/-- **Fresh hashes**: if memory suffices, a call ends within `used.card + count`
    rounds (one more unit of fuel pays for the last test of the loop), and
    calls that share one set never yield a hash twice. -/
theorem generate_unique_yields_fresh (reserve : Nat → Comp Unit)
    (hreserve : ∀ n, reserve n = .ok ()) :
    (∀ fuel count seed used, used.card + count.toNat ≤ 2 ^ 64 →
      used.card + count.toNat < fuel →
      Returns (generate_unique reserve fuel count seed used) fun r =>
        FreshHashes count used r.1 r.2) ∧
    (∀ fuel calls used, used.card + (calls.map fun call => call.1.toNat).sum ≤ 2 ^ 64 →
      used.card + (calls.map fun call => call.1.toNat).sum < fuel →
      Returns (generate_sequence reserve fuel calls used) fun r =>
        FreshVectors calls used r.1 r.2) ∧
    (∀ fuel calls used r, generate_sequence reserve fuel calls used = .ok r →
      FreshVectors calls used r.1 r.2) := by
  refine ⟨fun fuel count seed used hroom hfuel => ?_, fun fuel calls used hroom hfuel => ?_,
    fun fuel calls used r hr => ?_⟩
  · exact generate_unique_spec seed used (hreserve count.toNat) hroom hfuel
  · exact generate_sequence_spec hreserve calls used hroom hfuel
  · exact freshVectors_of_generate_sequence hr

/-- Two hashes beside one that is in use. -/
theorem generate_unique_yields_fresh_two :
    Returns (generate_unique (fun _ => .ok ()) 4 2 1 {0}) fun r => FreshHashes 2 {0} r.1 r.2 :=
  (generate_unique_yields_fresh (fun _ => .ok ()) fun _ => rfl).1 4 2 1 {0} (by decide) (by decide)

/-! ## Mixing -/

def mix_vector (reserve : Nat → Comp Unit) (v1 v2 : Array Word) : Comp (Array Word) := do
  reserve (v1.size + v2.size)
  forLoop 0 v1.size 1 (fun i v_mixed => do
    let v_mixed := v_mixed.push (← load v1 i)
    return v_mixed.push (← load v2 i)) #[]

/-- `mixed` takes its elements from `v1` and `v2` in turn. -/
structure Alternates (v1 v2 mixed : Array Word) : Prop where
  size_eq : mixed.size = v1.size + v2.size
  even : ∀ i, i < v1.size → mixed[2 * i]? = v1[i]?
  odd : ∀ i, i < v2.size → mixed[2 * i + 1]? = v2[i]?

/-- Vectors of one length: no index is out of range, only `reserve` may throw. -/
theorem mix_vector_spec {v1 v2 : Array Word} (reserve : Nat → Comp Unit)
    (hsize : v1.size = v2.size) :
    ∃ mixed, Alternates v1 v2 mixed ∧
      mix_vector reserve v1 v2 = (reserve (v1.size + v2.size) >>= fun _ => .ok mixed) := by
  suffices h : Returns (forLoop 0 v1.size 1 (fun i v_mixed => do
      let v_mixed := v_mixed.push (← load v1 i)
      return v_mixed.push (← load v2 i)) #[]) (Alternates v1 v2) by
    obtain ⟨mixed, hmixed, halt⟩ := h
    exact ⟨mixed, halt, congrArg (reserve (v1.size + v2.size) >>= ·) (funext fun _ => hmixed)⟩
  refine (forLoop_returns (fun i (mixed : Array Word) => mixed.size = 2 * i ∧
    ∀ j, j < i → mixed[2 * j]? = v1[j]? ∧ mixed[2 * j + 1]? = v2[j]?) Nat.one_pos
    (Nat.zero_le _) (Nat.one_dvd _) ⟨rfl, fun j hj => absurd hj (Nat.not_lt_zero j)⟩ ?_).mono ?_
  · intro i mixed _ hi _ hinv
    obtain ⟨hlen, hpairs⟩ := hinv
    rw [load_ok hi, ok_bind, load_ok (by omega), ok_bind]
    refine returns_ok ⟨by simp; omega, fun j hj => ?_⟩
    simp only [Array.getElem?_push, Array.size_push, hlen]
    -- An earlier pair, or the two elements just pushed.
    rcases Nat.lt_succ_iff_lt_or_eq.mp hj with hlt | rfl
    · rw [if_neg (by omega), if_neg (by omega), if_neg (by omega), if_neg (by omega)]
      exact hpairs j hlt
    · rw [if_neg (by omega), if_pos rfl, if_pos rfl, Array.getElem?_eq_getElem hi,
        Array.getElem?_eq_getElem (by omega)]
      exact ⟨rfl, rfl⟩
  · intro mixed hinv
    obtain ⟨hlen, hpairs⟩ := hinv
    exact ⟨by omega, fun i hi => (hpairs i hi).1, fun i hi => (hpairs i (by omega)).2⟩

/-! ## Counting -/

/-- `__builtin_popcount` -/
def builtin_popcount (x : BitVec 32) : Nat := bitCount x

def count_packed_true (result : Array Byte) (tuple_count : Nat) : Comp Nat := do
  let filled_bytes := tuple_count / 8
  let count ← forLoop 0 filled_bytes 1 (fun i count => do
    return count + builtin_popcount ((← load result i).setWidth 32)) 0
  let tail_bits := tuple_count % 8
  if tail_bits ≠ 0 then
    let mask := ((← shl 1#32 tail_bits) - 1).setWidth 8
    return count + builtin_popcount (((← load result filled_bytes) &&& mask).setWidth 32)
  else
    return count

/-- A byte holds eight positions. -/
theorem popcount_byte {result : Array Byte} {i : Nat} (hi : i < result.size) :
    builtin_popcount (result[i].setWidth 32) = count (bitAt result) (8 * i) 8 := by
  apply bitCount_eq_count (by omega)
  intro j hj
  rw [BitVec.getLsbD_setWidth]
  -- The other 24 bits of the argument are zero.
  by_cases hj8 : j < 8
  · rw [Nat.mul_comm, bitAt_word hi hj8]
    simp [hj, hj8]
  · rw [BitVec.getLsbD_of_ge _ _ (Nat.not_lt.mp hj8)]
    simp [hj8]

/-- The mask of the tail keeps the first `t` of them. -/
theorem popcount_tail {result : Array Byte} {i t : Nat} (hi : i < result.size) (ht : t < 8) :
    builtin_popcount ((result[i] &&& ((1#32 <<< t) - 1).setWidth 8).setWidth 32) =
      count (bitAt result) (8 * i) t := by
  have hmask : ∀ t j : Fin 8,
      (((1#32 <<< t.val) - 1).setWidth 8).getLsbD j = decide (j.val < t.val) := by decide
  apply bitCount_eq_count (by omega)
  intro j hj
  rw [BitVec.getLsbD_setWidth, BitVec.getLsbD_and]
  by_cases hj8 : j < 8
  · rw [Nat.mul_comm, bitAt_word hi hj8, hmask ⟨t, ht⟩ ⟨j, hj8⟩]
    simp [hj, Bool.and_comm]
  · have hnot : ¬ j < t := by omega
    rw [BitVec.getLsbD_of_ge _ _ (Nat.not_lt.mp hj8)]
    simp [hnot]

/-- **Counting**: the set bits among the first `tuple_count`, whatever the
    padding holds. -/
theorem count_packed_true_ok {result : Array Byte} {tuple_count : Nat}
    (hsize : (tuple_count + 7) / 8 ≤ result.size) :
    count_packed_true result tuple_count = .ok (count (bitAt result) 0 tuple_count) := by
  have hloop : forLoop 0 (tuple_count / 8) 1 (fun i count => do
      return count + builtin_popcount ((← load result i).setWidth 32)) 0 =
        .ok (count (bitAt result) 0 (8 * (tuple_count / 8))) := by
    apply forLoop_eq_ok (fun i => count (bitAt result) 0 (8 * i)) Nat.one_pos (Nat.zero_le _)
      (Nat.one_dvd _) (count_eq_zero (by omega)).symm
    intro i _ hi _
    have hlt : i < result.size := by omega
    have hnext : 8 * (i + 1) = 8 * i + 8 := by omega
    rw [load_ok hlt, ok_bind, popcount_byte hlt, hnext, count_add, Nat.zero_add]
    rfl
  unfold count_packed_true
  simp only [hloop, ok_bind]
  by_cases htail : tuple_count % 8 = 0
  · -- The whole bytes are all: the byte after them is not read.
    have hwhole : 8 * (tuple_count / 8) = tuple_count := by omega
    rw [if_neg (not_not.mpr htail), hwhole]
    rfl
  · have hlt : tuple_count / 8 < result.size := by omega
    -- The whole bytes first, and the bits of the last one.
    have hsplit := count_add (b := bitAt result) (k := 0) (w := 8 * (tuple_count / 8))
      (v := tuple_count % 8)
    rw [Nat.zero_add, Nat.div_add_mod] at hsplit
    rw [if_pos htail, shl_ok (by omega), ok_bind, load_ok hlt, ok_bind, Int.toNat_natCast,
      popcount_tail hlt (Nat.mod_lt _ (by omega)), hsplit]
    rfl

/-- **Counting packed answers**: whatever the padding and the bytes after it
    hold, the reader of single bits and the count agree; and the count is the
    same, and no fault, when the buffer ends with its last byte of answers. -/
theorem count_packed_true_counts {result : Array Byte} {tuple_count : Nat}
    (hwrap : tuple_count + 7 < 2 ^ 64) (hsize : result_bytes tuple_count ≤ result.size) :
    count_packed_true result tuple_count =
        .ok ((Finset.range tuple_count).filter fun i =>
          packed_result_bit result i = .ok true).card ∧
      count_packed_true (result.extract 0 (result_bytes tuple_count)) tuple_count =
        count_packed_true result tuple_count := by
  rw [result_bytes_eq hwrap] at hsize ⊢
  have hbits : (Finset.range tuple_count).filter (fun i => packed_result_bit result i = .ok true) =
      positions (bitAt result) 0 tuple_count := by
    ext i
    rw [Finset.mem_filter, Finset.mem_range, mem_positions, Nat.zero_add]
    constructor
    · intro h
      have hbit := h.2
      rw [packed_result_bit, testBit_ok (by omega), Except.ok.injEq] at hbit
      exact ⟨⟨Nat.zero_le i, h.1⟩, hbit⟩
    · intro h
      refine ⟨h.1.2, ?_⟩
      unfold packed_result_bit
      rw [testBit_ok (by omega), h.2]
  have hcount : count_packed_true result tuple_count =
      .ok (count (bitAt result) 0 tuple_count) := count_packed_true_ok hsize
  -- Cut off behind its last byte, the buffer still holds every counted bit.
  have hcut : count_packed_true (result.extract 0 ((tuple_count + 7) / 8)) tuple_count =
      .ok (count (bitAt result) 0 tuple_count) := by
    have hsize' : (tuple_count + 7) / 8 ≤ (result.extract 0 ((tuple_count + 7) / 8)).size := by
      rw [Array.size_extract]
      omega
    rw [count_packed_true_ok hsize']
    apply congrArg Except.ok
    apply count_congr
    intro i _ hi
    have hbyte : i / 8 < (tuple_count + 7) / 8 := by omega
    rw [bitAt_of_lt (by rw [Array.size_extract]; omega), bitAt_of_lt (by omega),
      Array.getElem_extract]
    simp only [Nat.zero_add]
  rw [hbits, hcount, hcut]
  exact ⟨rfl, rfl⟩

/-- Nine answers in two bytes, the second with garbage in its padding, and a
    byte after them. -/
theorem count_packed_true_counts_nine :
    count_packed_true #[0x05, 0xff, 0xff] 9 =
      .ok ((Finset.range 9).filter fun i =>
        packed_result_bit #[0x05, 0xff, 0xff] i = .ok true).card :=
  (count_packed_true_counts (by decide) (by decide)).1

/-- The count of the answers to a vector without repetitions is the number of
    its elements with the answer "yes". -/
theorem count_eq_ncard {hashes : Array Word} (hnodup : hashes.toList.Nodup) {b : Nat → Bool}
    {P : Word → Prop} (h : ∀ i, (hi : i < hashes.size) → (b i = true ↔ P hashes[i])) :
    count b 0 hashes.size = {x | x ∈ hashes ∧ P x}.ncard := by
  have himage : {x | x ∈ hashes ∧ P x} =
      Set.image (fun i => hashes.getD i 0) (positions b 0 hashes.size : Set Nat) := by
    ext x
    simp only [Set.mem_ofPred_eq, Set.mem_image, Finset.mem_coe, mem_positions, Nat.zero_add,
      Nat.zero_le, true_and]
    constructor
    · intro hreported
      obtain ⟨hx, hP⟩ := hreported
      obtain ⟨i, hi, rfl⟩ := Array.mem_iff_getElem.mp hx
      exact ⟨i, ⟨hi, (h i hi).mpr hP⟩, by simp [hi]⟩
    · rintro ⟨i, ⟨hi, hb⟩, rfl⟩
      simp only [Array.getD, hi, dite_true]
      exact ⟨Array.getElem_mem hi, (h i hi).mp hb⟩
  -- No hash occurs twice, so no two positions stand for one hash.
  have hinj : Set.InjOn (fun i => hashes.getD i 0) (positions b 0 hashes.size : Set Nat) := by
    intro i hi j hj heq
    have hi' : i < hashes.size := by simpa using (mem_positions.mp hi).1.2
    have hj' : j < hashes.size := by simpa using (mem_positions.mp hj).1.2
    have hget : ∀ k, (hk : k < hashes.size) → hashes.getD k 0 = hashes.toList[k] :=
      fun k hk => by simp [hk]
    have heq' : hashes.getD i 0 = hashes.getD j 0 := heq
    rw [hget i hi', hget j hj'] at heq'
    exact (List.Nodup.getElem_inj_iff hnodup).mp heq'
  rw [himage, hinj.ncard_image, Set.ncard_coe_finset]
  rfl

end BloomFilters
