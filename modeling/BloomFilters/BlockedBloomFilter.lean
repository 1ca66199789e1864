import BloomFilters.Blocks
import BloomFilters.Framework.Orbit
import Mathlib.Data.FinEnum

/-! # The blocked filter

    `bloom_filter/BlockedBloomFilter.{h,cpp}`. The mask of a hash is drawn
    bit by bit: stage `i` iterates `x ↦ murmurHash(x + i)` until the low six
    bits of `x` name a position that the mask does not have yet. Each of
    these maps is a permutation of the 64-bit words, so a stage ends iff the
    cycle it starts on leaves the positions taken so far.
-/

open Checked BitArray Words Orbit

namespace BloomFilters

/-! ## Operations -/

structure BlockedBloomFilter extends BlockTable

namespace BlockedBloomFilter

abbrev bits_per_block : Nat := 64
abbrev bitsPerKey : Int := 8
abbrev num_hashes : Nat := 4
abbrev min_num_bits : Int := 512

/-- `rows_to_insert * bitsPerKey` in `std::int64_t`. -/
def product (rows_to_insert : BitVec 64) : Int := rows_to_insert.toInt * bitsPerKey

theorem le_desired_num_bits {rows_to_insert : BitVec 64} (h : product rows_to_insert < 2 ^ 63) :
    512 ≤ (BitVec.ofInt 64 (max min_num_bits (product rows_to_insert))).toNat := by
  have hmin : min_num_bits = 512 := rfl
  rw [BitVec.toNat_ofInt, Int.emod_eq_of_lt (by omega) (by omega)]
  omega

/-- The constructor. Its product is signed, so it may overflow. -/
def new (rows_to_insert : BitVec 64) : Comp BlockedBloomFilter :=
  if h : -2 ^ 63 ≤ product rows_to_insert ∧ product rows_to_insert < 2 ^ 63 then
    .ok ⟨.ofGeometry (.ofDesired _ (le_desired_num_bits h.2))⟩
  else
    .error .overflow

/-- Only the product can keep the constructor from returning. -/
theorem new_eq {rows_to_insert : BitVec 64} (hlo : -2 ^ 63 ≤ product rows_to_insert)
    (hhi : product rows_to_insert < 2 ^ 63) : new rows_to_insert =
      .ok ⟨.ofGeometry (.ofDesired _ (le_desired_num_bits hhi))⟩ :=
  dif_pos ⟨hlo, hhi⟩

theorem new_returns {rows_to_insert : BitVec 64} (hlo : -2 ^ 63 ≤ product rows_to_insert)
    (hhi : product rows_to_insert < 2 ^ 63) :
    Returns (new rows_to_insert) fun f => f.log_num_blocks =
      ceil_log2 (BitVec.ofInt 64 (max min_num_bits (product rows_to_insert))) - 6 := by
  rw [new_eq hlo hhi]
  exact returns_ok rfl

/-- A constructed filter is empty. -/
theorem eq_ofGeometry_of_new {rows_to_insert : BitVec 64} {f : BlockedBloomFilter}
    (h : new rows_to_insert = .ok f) : ∃ g, f = ⟨.ofGeometry g⟩ := by
  rw [new] at h
  split at h
  · cases h
    exact ⟨_, rfl⟩
  · cases h

/-- One round of `while (true)` in stage `i`; it breaks with the new `x`
    and `result`. -/
def drawBit (i : Nat) (result x : Word) : Comp (Word ⊕ Word × Word) := do
  let x := murmurHash (x + BitVec.ofNat 64 i)
  let bit_pos := (x &&& BitVec.ofNat 64 (bits_per_block - 1)).toNat
  let bit ← shl 1#64 bit_pos
  if result &&& bit = 0 then return .inr (x, result ||| bit) else return .inl x

/-- The four stages, at most `fuel` rounds each. -/
def stages (fuel : Nat) : Nat → Word × Word → Comp (Word × Word) :=
  fun i s => whileTrue (drawBit i s.2) fuel s.1

/-- `mask`, as far as `fuel` rounds in each stage go. -/
def maskWithin (fuel : Nat) (hash : Word) : Comp Word := do
  let (_, result) ← forLoop 0 num_hashes 1 (stages fuel) (hash, 0)
  return result

/-- One turn of the longest possible cycle. -/
@[irreducible] def wordCount : Nat := 2 ^ 64

/-- `mask`. A stage that is still running after one turn of its cycle never
    ends (`mask_of_maskWithin`). -/
def mask (hash : Word) : Comp Word := maskWithin wordCount hash

def block_id (f : BlockedBloomFilter) (hash : Word) : Comp Word :=
  shr hash (64 - f.log_num_blocks)

def insertImpl (f : BlockedBloomFilter) (hash : Word) : Comp BlockedBloomFilter := do
  let m ← mask hash
  return { f with bitvector := ← orBlock f.bitvector (← f.block_id hash) m }

def containsImpl (f : BlockedBloomFilter) (hash : Word) : Comp Bool := do
  let m ← mask hash
  let block ← loadFixed f.bitvector (← f.block_id hash).toNat
  return block &&& m == m

def insertBatchImpl (f : BlockedBloomFilter) (hash_array : Array Word) :
    Comp BlockedBloomFilter :=
  insertLoop insertImpl hash_array 0 f

def containsBatchImpl (f : BlockedBloomFilter) (hash_array : Array Word) (result : Array Byte) :
    Comp (Array Byte) :=
  fillAndProbe f.containsImpl hash_array result

instance : BloomFilter BlockedBloomFilter where
  insertImpl := insertImpl
  containsImpl := containsImpl
  insertBatchImpl := insertBatchImpl
  containsBatchImpl := containsBatchImpl

/-! ### One stage -/

/-- The map that stage `i` iterates. -/
def redraw (i : Nat) : Equiv.Perm Word where
  toFun x := murmurHash (x + BitVec.ofNat 64 i)
  invFun x := murmurHashInv x - BitVec.ofNat 64 i
  left_inv x := by simp only [murmurHashInv_murmurHash, BitVec.add_sub_cancel]
  right_inv x := by simp only [BitVec.sub_add_cancel, murmurHash_murmurHashInv]

/-- The position that the low six bits of a word name. -/
def position (x : Word) : Nat := x.toNat % bits_per_block

/-- The position of `x` is none of the positions of `taken`. -/
def Fresh (taken : List Word) (x : Word) : Prop := ∀ y ∈ taken, position y ≠ position x

instance (taken : List Word) : DecidablePred (Fresh taken) :=
  fun x => inferInstanceAs (Decidable (∀ y ∈ taken, position y ≠ position x))

/-- The bits of `result` are the positions of `taken`. -/
def Holds (result : Word) (taken : List Word) : Prop :=
  ∀ p, result.getLsbD p = true ↔ ∃ y ∈ taken, position y = p

theorem position_lt (x : Word) : position x < 64 := Nat.mod_lt _ (by decide)

theorem holds_nil : Holds 0 [] := by
  intro p
  simp

/-- A stage takes the position of the word it breaks with. -/
theorem Holds.cons {result : Word} {taken : List Word} (h : Holds result taken) (y : Word) :
    Holds (result ||| BitVec.twoPow 64 (position y)) (y :: taken) := by
  intro p
  have hlt := position_lt y
  -- The positions of `taken`, and that of `y`.
  rw [BitVec.getLsbD_or, BitVec.getLsbD_twoPow, Bool.or_eq_true, h p]
  simp only [hlt, decide_true, Bool.true_and, decide_eq_true_eq, List.mem_cons, exists_eq_or_imp]
  exact or_comm

theorem Holds.fresh_iff {result : Word} {taken : List Word} (h : Holds result taken) (x : Word) :
    result &&& BitVec.twoPow 64 (position x) = 0 ↔ Fresh taken x := by
  rw [and_twoPow_eq_zero (position_lt x), ← Bool.not_eq_true, h (position x), Fresh]
  simp only [not_exists, not_and, ne_eq]

theorem drawBit_eq (i : Nat) (result x : Word) :
    drawBit i result x = .ok
      (if result &&& BitVec.twoPow 64 (position (redraw i x)) = 0 then
        .inr (redraw i x, result ||| BitVec.twoPow 64 (position (redraw i x)))
      else .inl (redraw i x)) := by
  have hpos : (redraw i x &&& BitVec.ofNat 64 (bits_per_block - 1)).toNat =
      position (redraw i x) :=
    toNat_and_lowMask (show 6 < 64 by decide)
  have hlt := position_lt (redraw i x)
  rw [drawBit, show murmurHash (x + BitVec.ofNat 64 i) = redraw i x from rfl, hpos,
    shl_ok (by omega), ok_bind, Int.toNat_natCast, ← BitVec.twoPow_eq]
  -- The position is free and the loop breaks, or it is taken and the loop goes on.
  split <;> rfl

/-- A stage is a redraw loop over its permutation. -/
theorem drawBit_isRedraw (i : Nat) (result : Word) : IsRedraw (redraw i)
    (fun y => result &&& BitVec.twoPow 64 (position y) = 0)
    (fun y => (y, result ||| BitVec.twoPow 64 (position y))) (drawBit i result) :=
  drawBit_eq i result

/-! ### The stages together -/

/-- From some word of the cycle of `x` the stage breaks. -/
def Escapes (i : Nat) (taken : List Word) (x : Word) : Prop :=
  ∃ y, (redraw i).SameCycle x y ∧ Fresh taken y

/-- Each of the `n` stages from stage `i` on starts on a cycle that leaves
    the positions taken before it. -/
def StagesEscape : Nat → Nat → List Word → Word → Prop
  | 0, _, _, _ => True
  | n + 1, i, taken, x => Escapes i taken x ∧
    ∀ y, FirstAccepted (redraw i) (Fresh taken) x y → StagesEscape n (i + 1) (y :: taken) y

/-- No stage of `mask` starts on a cycle whose words all name positions
    that are already taken. -/
def MaskEscapes (hash : Word) : Prop := StagesEscape num_hashes 0 [] hash

theorem card_word : Fintype.card Word = wordCount := by
  rw [wordCount]
  exact FinEnum.card_eq_fintypeCard.symm.trans (FinEnum.card_bitVec 64)

/-- More fuel than one turn of the cycle changes nothing. -/
theorem stage_of_fuel {fuel i : Nat} {s s' : Word × Word} (hs : stages fuel i s = .ok s') :
    stages wordCount i s = .ok s' := by
  -- A walk on a permutation of the words repeats itself after `wordCount` steps.
  have hcard := whileTrue_card (drawBit_isRedraw i s.2) hs
  rwa [card_word] at hcard

/-- **Step lemma**: a stage ends at the first fresh word of its cycle, if
    there is one. -/
theorem stage_returns_iff {i : Nat} {x result : Word} {taken : List Word}
    (h : Holds result taken) (s : Word × Word) :
    stages wordCount i (x, result) = .ok s ↔ FirstAccepted (redraw i) (Fresh taken) x s.1 ∧
      s.2 = result ||| BitVec.twoPow 64 (position s.1) := by
  -- The loop tests bits of `result`; in terms of words, it looks for a fresh one.
  have haccept : (fun y => result &&& BitVec.twoPow 64 (position y) = 0) = Fresh taken :=
    funext fun y => propext (h.fresh_iff y)
  constructor
  · intro hs
    obtain ⟨y, hy, rfl⟩ := first_of_whileTrue (drawBit_isRedraw i result) hs
    exact ⟨haccept ▸ hy, rfl⟩
  · intro hstage
    obtain ⟨hfirst, hres⟩ := hstage
    rw [← haccept] at hfirst
    obtain ⟨n, hn, hacc, hfirst⟩ := hfirst
    have hloop := whileTrue_of_first (drawBit_isRedraw i result) hn hacc hfirst (Nat.lt_succ_self n)
    have hstage : stages (n + 1) i (x, result) =
        .ok (s.1, result ||| BitVec.twoPow 64 (position s.1)) := hloop
    rw [stage_of_fuel hstage, ← hres]

/-- A stage ends iff its cycle escapes. -/
theorem exists_stage_iff {i : Nat} {x result : Word} {taken : List Word}
    (h : Holds result taken) :
    (∃ s, stages wordCount i (x, result) = .ok s) ↔ Escapes i taken x := by
  constructor
  · intro hstage
    obtain ⟨s, hs⟩ := hstage
    obtain ⟨⟨n, hn, hacc, -⟩, -⟩ := (stage_returns_iff h s).mp hs
    exact ⟨s.1, ⟨n + 1, by exact_mod_cast hn⟩, hacc⟩
  · intro hescape
    obtain ⟨y, hxy, hacc⟩ := hescape
    obtain ⟨n, -, hacc', hfirst⟩ := exists_first_of_sameCycle hxy hacc
    exact ⟨(_, result ||| BitVec.twoPow 64 (position ((redraw i ^ (n + 1)) x))),
      (stage_returns_iff h _).mpr ⟨⟨n, rfl, hacc', hfirst⟩, rfl⟩⟩

/-- **Run lemma**: the stages from stage `i` on all end iff they all escape. -/
theorem exists_stages_iff {n i : Nat} {x result : Word} {taken : List Word}
    (h : Holds result taken) :
    (∃ s, forLoop i (i + n) 1 (stages wordCount) (x, result) = .ok s) ↔
      StagesEscape n i taken x := by
  induction n generalizing i x result taken with
  | zero => exact ⟨fun _ => trivial, fun _ => ⟨_, forLoop_done (Nat.le_refl _)⟩⟩
  | succ n ih =>
    have hend : i + (n + 1) = i + 1 + n := by omega
    rw [hend, forLoop_step Nat.one_pos (by omega), StagesEscape, ← exists_stage_iff h]
    constructor
    · intro hreturns
      obtain ⟨t, ht⟩ := hreturns
      obtain ⟨s, hs, hrest⟩ := exists_of_bind_ok ht
      obtain ⟨hfirst, hres⟩ := (stage_returns_iff h s).mp hs
      have hs' : s = (s.1, result ||| BitVec.twoPow 64 (position s.1)) := Prod.ext rfl hres
      rw [hs'] at hrest
      refine ⟨⟨s, hs⟩, ?_⟩
      intro y hy
      -- There is only one word that the stage can have broken with.
      rw [FirstAccepted.unique hy hfirst]
      exact (ih (h.cons s.1)).mp ⟨t, hrest⟩
    · intro hescape
      obtain ⟨⟨s, hs⟩, hrest⟩ := hescape
      obtain ⟨hfirst, hres⟩ := (stage_returns_iff h s).mp hs
      obtain ⟨t, ht⟩ := (ih (h.cons s.1)).mpr (hrest s.1 hfirst)
      rw [← hres] at ht
      refine ⟨t, ?_⟩
      rw [hs, ok_bind]
      exact ht

/-- Fuel for one turn of a cycle is as good as any fuel. -/
theorem mask_of_maskWithin {fuel : Nat} {hash m : Word} (h : maskWithin fuel hash = .ok m) :
    mask hash = .ok m := by
  obtain ⟨s, hloop, hresult⟩ := exists_of_bind_ok h
  unfold mask maskWithin
  rw [forLoop_ok_mono (fun i s s' hs => stage_of_fuel hs) hloop]
  exact hresult

/-- Four rounds in each stage are enough for the hash 1. -/
theorem mask_one : mask 1 = .ok 0x0002920000000000 :=
  mask_of_maskWithin (show maskWithin 4 1 = .ok 0x0002920000000000 from rfl)

/-- **Exact termination of `mask`.** -/
theorem mask_returns_iff (hash : Word) : (∃ m, mask hash = .ok m) ↔ MaskEscapes hash := by
  unfold MaskEscapes
  rw [← exists_stages_iff holds_nil, Nat.zero_add]
  constructor
  · intro h
    obtain ⟨m, hm⟩ := h
    obtain ⟨s, hs, _⟩ := exists_of_bind_ok hm
    exact ⟨s, hs⟩
  · intro hstages
    obtain ⟨s, hs⟩ := hstages
    refine ⟨s.2, ?_⟩
    unfold mask maskWithin
    rw [hs]
    rfl

/-- A mask that is returned has one bit for each stage; nothing else can go
    wrong than a stage that never ends. -/
theorem maskWithin_safe (fuel : Nat) (hash : Word) :
    Safe (maskWithin fuel hash) fun m => bitCount m = num_hashes := by
  have hloop : Safe (forLoop 0 num_hashes 1 (stages fuel) (hash, 0))
      (fun s => bitCount s.2 = num_hashes) := by
    -- After stage `i` the mask has `i` bits.
    apply forLoop_safe (fun i (s : Word × Word) => bitCount s.2 = i) (by decide) (by simp)
    intro i h _ _ hcount
    obtain ⟨x, result⟩ := h
    refine whileTrue_safe (fun _ => True) _ (fun y _ => ?_) fuel x trivial
    rw [drawBit_eq]
    apply safe_ok
    split
    · next hclear =>
      -- Only a clear bit ends the stage.
      rw [and_twoPow_eq_zero (position_lt _)] at hclear
      exact (bitCount_or_twoPow (position_lt _) hclear).trans (congrArg (· + 1) hcount)
    · trivial
  exact hloop.bind fun s hs => safe_ok hs

theorem mask_safe (hash : Word) : Safe (mask hash) fun m => bitCount m = num_hashes := by
  unfold mask
  exact maskWithin_safe wordCount hash

/-! ### Specifications -/

/-- The mask of a hash on which `mask` returns. -/
def maskWord (hash : Word) : Word := (mask hash).toOption.getD 0

theorem mask_eq {hash : Word} (h : ∃ m, mask hash = .ok m) : mask hash = .ok (maskWord hash) := by
  obtain ⟨m, hm⟩ := h
  unfold maskWord
  rw [hm]
  rfl

theorem block_id_eq (f : BlockedBloomFilter) (hash : Word) :
    f.block_id hash = .ok (f.topBlock hash) :=
  f.shr_topBlock hash

theorem insertImpl_eq (f : BlockedBloomFilter) {hash m : Word} (h : mask hash = .ok m) :
    f.insertImpl hash = (fun t => { f with bitvector := t }) <$>
      orBlock f.bitvector (f.topBlock hash) m := by
  unfold insertImpl
  rw [h, ok_bind, block_id_eq, ok_bind]
  rfl

theorem containsImpl_eq (f : BlockedBloomFilter) {hash m : Word} (h : mask hash = .ok m) :
    f.containsImpl hash =
      .ok (getElem f.bitvector (f.topBlock hash).toNat (f.topBlock_lt hash) &&& m == m) := by
  unfold containsImpl
  rw [h, ok_bind, block_id_eq, ok_bind, loadFixed_ok (f.topBlock_lt hash)]
  rfl

instance : BlockFilter BlockedBloomFilter where
  toTable f := f.toBlockTable
  put f t := { f with bitvector := t }
  toTable_put _ _ := rfl
  HasMask h := ∃ m, mask h = .ok m
  maskWord := maskWord
  blockWord := Geometry.topBlock
  block_lt := Geometry.topBlock_lt
  insert_eq f _ hmask := insertImpl_eq f (mask_eq hmask)
  contains_spec f _ hmask := ⟨_, containsImpl_eq f (mask_eq hmask), and_beq_iff _⟩
  insertBatch_eq f hs := insertLoop_eq_foldlM insertImpl hs f
  containsBatch_eq _ _ _ _ hp hcount hsize := fillAndProbe_ok hp hcount hsize

/-! ### Termination of the operations -/

theorem insert_returns_iff (f : BlockedBloomFilter) (hash : Word) :
    (∃ f', insert f hash = .ok f') ↔ ∃ m, mask hash = .ok m := by
  constructor
  · intro h
    obtain ⟨f', hf'⟩ := h
    -- `mask` is the first call of `insert`.
    obtain ⟨m, hm, _⟩ := exists_of_bind_ok hf'
    exact ⟨m, hm⟩
  · intro hmask
    obtain ⟨f', hf', -⟩ := BlockFilter.insert_spec f hash hmask
    exact ⟨f', hf'⟩

theorem contains_returns_iff (f : BlockedBloomFilter) (hash : Word) :
    (∃ b, contains f hash = .ok b) ↔ ∃ m, mask hash = .ok m := by
  constructor
  · intro h
    obtain ⟨b, hb⟩ := h
    obtain ⟨m, hm, _⟩ := exists_of_bind_ok hb
    exact ⟨m, hm⟩
  · intro hmask
    obtain ⟨m, hm⟩ := hmask
    exact ⟨_, containsImpl_eq f hm⟩

theorem foldlM_insert_returns_iff (f : BlockedBloomFilter) (hashes : List Word) :
    (∃ f', hashes.foldlM insert f = .ok f') ↔ ∀ h ∈ hashes, ∃ m, mask h = .ok m := by
  induction hashes generalizing f with
  | nil => exact ⟨fun _ h hh => (by cases hh), fun _ => ⟨f, rfl⟩⟩
  | cons h hashes ih =>
    -- The mask of a hash does not depend on what is stored.
    rw [List.foldlM_cons, List.forall_mem_cons, ← insert_returns_iff f h]
    constructor
    · intro hreturns
      obtain ⟨f', hf'⟩ := hreturns
      obtain ⟨f₁, hins, hrest⟩ := exists_of_bind_ok hf'
      exact ⟨⟨f₁, hins⟩, (ih f₁).mp ⟨f', hrest⟩⟩
    · intro hboth
      obtain ⟨⟨f₁, hins⟩, hall⟩ := hboth
      rw [hins, ok_bind]
      exact (ih f₁).mpr hall

/-- **When the filter returns**: exactly on hashes whose stages all escape. -/
theorem operations_return_iff (f : BlockedBloomFilter) (hash : Word) (hash_array : Array Word)
    (result : Array Byte) :
    ((∃ fuel m, maskWithin fuel hash = .ok m) ↔ MaskEscapes hash) ∧
    ((∃ f', insert f hash = .ok f') ↔ MaskEscapes hash) ∧
    ((∃ b, contains f hash = .ok b) ↔ MaskEscapes hash) ∧
    ((∃ f', insertBatch f hash_array = .ok f') ↔ ∀ h ∈ hash_array, MaskEscapes h) ∧
    (hash_array.size + 7 < 2 ^ 64 → result_bytes hash_array.size ≤ result.size →
      ((∃ r, containsBatch f hash_array result = .ok r) ↔ ∀ h ∈ hash_array, MaskEscapes h)) := by
  simp only [← mask_returns_iff]
  refine ⟨⟨?_, fun ⟨m, hm⟩ => ⟨wordCount, m, hm⟩⟩, insert_returns_iff f hash,
    contains_returns_iff f hash, ?_, fun hcount hsize => ?_⟩
  · intro hreturns
    obtain ⟨fuel, m, hm⟩ := hreturns
    exact ⟨m, mask_of_maskWithin hm⟩
  · have hfold : insertBatch f hash_array = hash_array.toList.foldlM insert f :=
      BlockFilter.insertBatch_eq f hash_array
    rw [hfold, foldlM_insert_returns_iff]
    simp
  · simp only [← contains_returns_iff f]
    exact fillAndProbe_returns_iff hcount hsize

/-- The hash 1 is one of them. -/
theorem operations_return_on_one :
    MaskEscapes 1 ∧
    ∃ f', insert (⟨.ofGeometry (.ofDesired 512 (by decide))⟩ : BlockedBloomFilter) 1 = .ok f' := by
  have hreturn := operations_return_iff ⟨.ofGeometry (.ofDesired 512 (by decide))⟩ 1 #[] #[]
  -- Four rounds in each stage are enough for this hash.
  have hescape : MaskEscapes 1 :=
    hreturn.1.mp ⟨4, 0x0002920000000000, rfl⟩
  exact ⟨hescape, hreturn.2.1.mpr hescape⟩

/-- A fixed point of the map of stage 1 makes `mask` run forever on the hash
    that leads to it. -/
theorem not_maskEscapes_of_fixed {x : Word} (hx : murmurHash (x + 1) = x) :
    ¬ MaskEscapes (x + 1) := by
  intro h
  obtain ⟨-, hstage⟩ := h
  -- Stage 0 takes the first word it draws, since nothing is taken yet.
  have hfirst : FirstAccepted (redraw 0) (Fresh []) (x + 1) x := by
    refine ⟨0, ?_, fun y hy => (by cases hy), fun m hm => absurd hm (Nat.not_lt_zero m)⟩
    show murmurHash (x + 1 + 0#64) = x
    rw [BitVec.add_zero, hx]
  obtain ⟨⟨y, hxy, hfresh⟩, -⟩ := hstage x hfirst
  -- Stage 1 then stays at `x`, whose position stage 0 has taken.
  have hfix : Function.IsFixedPt (redraw 1) x := hx
  rw [← hxy.eq_of_left hfix] at hfresh
  exact hfresh x (by simp) rfl

/-- `0x62dbee55960f4106` is such a fixed point. -/
theorem mask_hangs :
    (¬ ∃ fuel m, maskWithin fuel 0x62dbee55960f4107#64 = .ok m) ∧
    ∀ f : BlockedBloomFilter, (¬ ∃ f', insert f 0x62dbee55960f4107#64 = .ok f') ∧
      ¬ ∃ b, contains f 0x62dbee55960f4107#64 = .ok b := by
  have hnot : ¬ MaskEscapes 0x62dbee55960f4107#64 :=
    not_maskEscapes_of_fixed (x := 0x62dbee55960f4106#64) (by decide)
  rw [← mask_returns_iff] at hnot
  refine ⟨fun ⟨fuel, m, hm⟩ => hnot ⟨m, mask_of_maskWithin hm⟩, fun f => ⟨?_, ?_⟩⟩
  · rwa [insert_returns_iff]
  · rwa [contains_returns_iff]

end BlockedBloomFilter

end BloomFilters
