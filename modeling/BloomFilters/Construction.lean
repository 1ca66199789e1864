import BloomFilters.Framework.Collect
import BloomFilters.MaskTables
import Mathlib.Order.Lattice.Nat

/-! # When the mask tables get done

    The constructors of the three mask tables draw until they have enough
    different values, and nothing bounds the number of draws. This module says
    for which random sources they return, and what they have then drawn.

    * **Sliding windows**: the first mask needs as many different positions as
      it has bits; the other masks always get done.
    * **Direct masks**: each mask needs five different positions, and the table
      needs as many different masks as it has entries.
    * **Sources**: a draw that counts finishes the sliding windows, a generator
      that spells numbers finishes the direct masks.
-/

open Checked BitArray Words Collect

namespace BloomFilters

namespace SlidingMasks

/-! ## Sliding windows -/

/-- The positions that the first mask draws, by the number of the draw. -/
def positionDraws (random : RandomDraws) (bitsPerMask i : Nat) : Nat :=
  random.value i 0 (bitsPerMask - 1)

/-- The positions in the first window are those that were drawn first. -/
def FirstDrawn {n : Nat} (random : RandomDraws) (bitsPerMask num_bits_set : Nat)
    (masks : Vector Byte n) : Prop :=
  ∃ k, Collects (positionDraws random bitsPerMask) 1 num_bits_set k ∧
    ∀ p, p < bitsPerMask →
      (bitAt masks.toArray p = true ↔ p ∈ collected (positionDraws random bitsPerMask) 1 k)

section sliding

variable {random : RandomDraws} {bitsPerMask minBitsSet maxBitsSet n : Nat}

theorem positionDraws_lt (hpos : 0 < bitsPerMask) (i : Nat) :
    positionDraws random bitsPerMask i < bitsPerMask := by
  have := random.in_range i 0 (bitsPerMask - 1) (Nat.zero_le _)
  unfold positionDraws
  omega

theorem finite_positionDraws (hpos : 0 < bitsPerMask) :
    (Set.range fun i => positionDraws random bitsPerMask (1 + i)).Finite := by
  refine (Set.finite_lt_nat bitsPerMask).subset ?_
  rintro p ⟨i, rfl⟩
  exact positionDraws_lt hpos (1 + i)

/-- The variables after `k` positions have been drawn. -/
structure Drawn (random : RandomDraws) (bitsPerMask num_bits_set k : Nat) (s : State n) :
    Prop where
  num_eq : s.num_bits_set = num_bits_set
  draws_eq : s.draws = 1 + k
  row_iff : ∀ p, s.row p = true ↔ p ∈ collected (positionDraws random bitsPerMask) 1 k

/-- **Step lemma**: a round of the first mask draws one position. -/
theorem drawBit_isCollect (hpos : 0 < bitsPerMask) (hn : bitsPerMask ≤ 8 * n)
    (num_bits_set : Nat) : IsCollect (positionDraws random bitsPerMask) 1
      (fun k (s : State n) => Drawn random bitsPerMask num_bits_set k s)
      (drawBit random bitsPerMask) := by
  intro k s hs
  have hdraw : random.value s.draws 0 (bitsPerMask - 1) =
      positionDraws random bitsPerMask (1 + k) := by rw [hs.draws_eq, positionDraws]
  have hlt := @positionDraws_lt random bitsPerMask hpos (1 + k)
  have hmem := hs.row_iff (positionDraws random bitsPerMask (1 + k))
  have hbyte : positionDraws random bitsPerMask (1 + k) / 8 < n := by omega
  obtain ⟨masks, hset, hrow⟩ := setBit_row (s := s) hbyte
  rw [drawBit, hdraw, getBit_ok hbyte, ok_bind]
  cases hbit : bitAt s.masks.toArray (positionDraws random bitsPerMask (1 + k)) with
  | true =>
    have hseen := hmem.mp hbit
    refine returns_ok ⟨hseen, hs.num_eq, ?_, ?_⟩
    · rw [← Nat.add_assoc, ← hs.draws_eq]
    · rw [collected_of_mem hseen]
      exact hs.row_iff
  | false =>
    have hfresh : positionDraws random bitsPerMask (1 + k) ∉
        collected (positionDraws random bitsPerMask) 1 k :=
      fun h => by rw [State.row, hbit] at hmem; cases hmem.mpr h
    simp only [Bool.false_eq_true, if_false, hset, ok_bind]
    refine returns_ok ⟨hfresh, hs.num_eq, ?_, fun p => ?_⟩
    · rw [← Nat.add_assoc, ← hs.draws_eq]
    · rw [collected_of_notMem hfresh, List.mem_append, List.mem_singleton, ← hs.row_iff]
      exact hrow p

theorem drawn_start {storage : Vector Byte n} (hzero : ∀ p, bitAt storage.toArray p = false)
    (num_bits_set : Nat) : Drawn random bitsPerMask num_bits_set 0 ⟨storage, num_bits_set, 1⟩ := by
  refine ⟨rfl, rfl, fun p => ?_⟩
  rw [State.row, hzero]
  simp [collected]

/-- The remaining masks leave the first window alone. -/
theorem nextBits_keep (hpos : 0 < bitsPerMask) {m : Nat} (hw : bitsPerMask ≤ m)
    (hm : m ≤ 8 * n) {s : State n} (hs : Filled bitsPerMask minBitsSet maxBitsSet bitsPerMask s) :
    Returns (forLoop bitsPerMask m 1 (nextBit random bitsPerMask minBitsSet maxBitsSet) s)
      fun s' => ∀ p, p < bitsPerMask → s'.row p = s.row p := by
  apply (forLoop_returns (fun i (s' : State n) => Filled bitsPerMask minBitsSet maxBitsSet i s' ∧
    ∀ p, p < bitsPerMask → s'.row p = s.row p) Nat.one_pos hw (Nat.one_dvd _)
    ⟨hs, fun _ _ => rfl⟩ ?_).mono fun s' hs' => hs'.2
  rintro i t hlo hhi _ ⟨hfilled, hsame⟩
  obtain ⟨t', ht', hfilled'⟩ := @Filled.next random bitsPerMask minBitsSet maxBitsSet n hpos i t
    (show i / 8 < n by omega) hlo hfilled
  obtain ⟨t'', ht'', -, -, entering, hrow, -⟩ := @nextBit_spec random minBitsSet maxBitsSet n
    bitsPerMask i t (show i / 8 < n by omega) hfilled.min_le hfilled.le_max
  obtain rfl := Except.ok.inj (ht'.symm.trans ht'')
  refine ⟨t', ht', hfilled', fun p hp => ?_⟩
  -- Only position `i` is written, and it lies behind the window.
  have hne : p ≠ i := by omega
  rw [← hsame p hp, Bool.eq_iff_iff, hrow p]
  simp [hne]

section table

variable {numberMasks : Nat} {storage : Vector Byte n} (hpos : 0 < bitsPerMask)
         (hle : minBitsSet ≤ maxBitsSet) (hmasks : 0 < numberMasks)
         (hn : numberMasks + bitsPerMask - 1 ≤ 8 * n)
         (hzero : ∀ p, bitAt storage.toArray p = false)

include hpos hle hmasks hn hzero

/-- What the constructor has drawn, if it returns. -/
theorem firstDrawn_of_fillTable {fuel : Nat} {masks : Vector Byte n}
    (h : fillTable random bitsPerMask minBitsSet maxBitsSet numberMasks fuel storage =
      .ok masks) :
    FirstDrawn random bitsPerMask (random.value 0 minBitsSet maxBitsSet) masks := by
  obtain ⟨s, hs, hrest⟩ := exists_of_bind_ok h
  obtain ⟨s', hs', hmasks'⟩ := exists_of_bind_ok hrest
  obtain rfl := Except.ok.inj hmasks'
  have hfilled := (firstMask_spec hpos (by omega) hle hzero).1 s hs
  obtain ⟨k, hk, hdrawn⟩ := (forLoop_collects_safe (drawBit_isCollect hpos (by omega) _)
    (drawn_start hzero _) _ fuel).1 s hs
  obtain ⟨t, ht, hkeep⟩ := nextBits_keep hpos (by omega) hn hfilled
  obtain rfl := Except.ok.inj (hs'.symm.trans ht)
  refine ⟨k, hk, fun p hp => ?_⟩
  rw [← hdrawn.row_iff, ← hkeep p hp]
  exact Iff.rfl

/-- **Sliding windows**: the constructor returns iff the first mask finds enough
    different positions. -/
theorem fillTable_returns_iff :
    (∃ fuel masks, fillTable random bitsPerMask minBitsSet maxBitsSet numberMasks fuel storage =
      .ok masks) ↔ random.value 0 minBitsSet maxBitsSet ≤
        (Set.range fun i => positionDraws random bitsPerMask (1 + i)).ncard := by
  rw [← exists_collects_iff (finite_positionDraws hpos)]
  constructor
  · rintro ⟨fuel, masks, h⟩
    obtain ⟨k, hk, -⟩ := firstDrawn_of_fillTable hpos hle hmasks hn hzero h
    exact ⟨k, hk⟩
  · rintro ⟨k, hk⟩
    obtain ⟨s, hs, -⟩ := forLoop_collects (drawBit_isCollect hpos (by omega) _)
      (drawn_start hzero _) hk (Nat.le_refl k)
    exact ⟨k, exists_fillTable hpos hle hmasks hn hzero hs⟩

end table

end sliding

end SlidingMasks

/-! ## Direct masks -/

namespace ModifiedBloomFilterMasks

/-- The positions that the generator outputs stand for. -/
def bitDraws (rng : Nat → BitVec 32) (i : Nat) : Nat := (rng i &&& 63).toNat

/-- The mask with these positions. -/
def maskOf (positions : List Nat) : Word :=
  positions.foldl (fun value bit => value ||| BitVec.twoPow 64 bit) 0

/-- The generator call with which mask number `j` begins; a mask that is never
    done begins again. -/
noncomputable def callAt (rng : Nat → BitVec 32) : Nat → Nat
  | 0 => 0
  | j + 1 => callAt rng j + sInf {k | Collects (bitDraws rng) (callAt rng j) bitsPerMask k}

/-- Mask number `j`, also if it has been used before. -/
noncomputable def maskAt (rng : Nat → BitVec 32) (j : Nat) : Word :=
  maskOf (collected (bitDraws rng) (callAt rng j) (callAt rng (j + 1) - callAt rng j))

section masks

variable {rng : Nat → BitVec 32} {c j k : Nat}

theorem bitDraws_lt (rng : Nat → BitVec 32) (i : Nat) : bitDraws rng i < 64 := by
  rw [bitDraws, toNat_and_of_ones (k := 6) rfl]
  exact Nat.mod_lt _ (by decide)

theorem maskOf_append (positions : List Nat) (bit : Nat) :
    maskOf (positions ++ [bit]) = maskOf positions ||| BitVec.twoPow 64 bit := by
  rw [maskOf, List.foldl_append]
  rfl

theorem getLsbD_maskOf (positions : List Nat) {p : Nat} (hp : p < 64) :
    (maskOf positions).getLsbD p = true ↔ p ∈ positions := by
  induction positions using List.reverseRecOn with
  | nil => simp [maskOf]
  | append_singleton positions bit ih =>
    have hbit : (BitVec.twoPow 64 bit).getLsbD p = true ↔ p = bit := by
      rw [BitVec.getLsbD_twoPow, Bool.and_eq_true, decide_eq_true_eq, decide_eq_true_eq]
      exact ⟨fun h => h.2.symm, fun h => ⟨h ▸ hp, h.symm⟩⟩
    rw [maskOf_append, BitVec.getLsbD_or, Bool.or_eq_true, ih, hbit, List.mem_append,
      List.mem_singleton]

theorem callAt_succ (h : Collects (bitDraws rng) (callAt rng j) bitsPerMask k) :
    callAt rng (j + 1) = callAt rng j + k := by
  have hmem := Nat.sInf_mem (s := {k | Collects (bitDraws rng) (callAt rng j) bitsPerMask k})
    ⟨k, h⟩
  rw [callAt, Collects.unique hmem h]

theorem maskAt_eq (h : Collects (bitDraws rng) (callAt rng j) bitsPerMask k) :
    maskAt rng j = maskOf (collected (bitDraws rng) (callAt rng j) k) := by
  rw [maskAt, callAt_succ h, Nat.add_sub_cancel_left]

theorem callAt_mono {i : Nat} (h : i ≤ j) : callAt rng i ≤ callAt rng j := by
  induction h with
  | refl => exact Nat.le_refl _
  | step _ ih => exact ih.trans (Nat.le_add_right _ _)

/-- The variables of the inner loop after `k` outputs from `c` on. -/
structure BitsDrawn (rng : Nat → BitVec 32) (c k : Nat) (s : MaskState) : Prop where
  value_eq : s.value = maskOf (collected (bitDraws rng) c k)
  bits_eq : s.bits_set = (collected (bitDraws rng) c k).length
  calls_eq : s.calls = c + k

/-- **Step lemma of the inner loop**: one output is drawn. -/
theorem BitsDrawn.next {s : MaskState} (h : BitsDrawn rng c k s) :
    Returns (drawBit rng s) (BitsDrawn rng c (k + 1)) := by
  have hlt := bitDraws_lt rng (c + k)
  have hdraw : (rng s.calls &&& 63).toNat = bitDraws rng (c + k) := by rw [h.calls_eq, bitDraws]
  have hmem := getLsbD_maskOf (collected (bitDraws rng) c k) hlt
  rw [drawBit, hdraw, shl_ok (by omega), ok_bind, Int.toNat_natCast, ← BitVec.twoPow_eq]
  by_cases hseen : bitDraws rng (c + k) ∈ collected (bitDraws rng) c k
  · have hset : ¬ s.value &&& BitVec.twoPow 64 (bitDraws rng (c + k)) = 0 := by
      rw [and_twoPow_eq_zero hlt, h.value_eq, hmem.mpr hseen]
      decide
    rw [if_neg hset]
    refine returns_ok ⟨?_, ?_, ?_⟩
    · rw [collected_of_mem hseen]
      exact h.value_eq
    · rw [collected_of_mem hseen]
      exact h.bits_eq
    · rw [h.calls_eq, Nat.add_assoc]
  · have hclear : s.value &&& BitVec.twoPow 64 (bitDraws rng (c + k)) = 0 := by
      rw [and_twoPow_eq_zero hlt, h.value_eq]
      exact Bool.eq_false_iff.mpr fun hset => hseen (hmem.mp hset)
    rw [if_pos hclear]
    refine returns_ok ⟨?_, ?_, ?_⟩
    · rw [collected_of_notMem hseen, maskOf_append, ← h.value_eq]
    · rw [collected_of_notMem hseen, List.length_append, ← h.bits_eq]
      rfl
    · rw [h.calls_eq, Nat.add_assoc]

theorem bitsDrawn_start (rng : Nat → BitVec 32) (c : Nat) : BitsDrawn rng c 0 ⟨0, 0, c⟩ :=
  ⟨rfl, rfl, rfl⟩

theorem bits_missing_iff {s : MaskState} (h : BitsDrawn rng c k s) :
    decide (s.bits_set < bitsPerMask) = true ↔
      (collected (bitDraws rng) c k).length < bitsPerMask := by
  rw [decide_eq_true_eq, h.bits_eq]

/-- A mask that gets done. -/
theorem drawMask_collects_safe (rng : Nat → BitVec 32) (fuel c : Nat) :
    Safe (drawMask rng fuel c) fun m =>
      ∃ k, Collects (bitDraws rng) c bitsPerMask k ∧ BitsDrawn rng c k m :=
  whileLoop_collects_safe (fun _ _ h => bits_missing_iff h) (fun _ _ h _ => h.next.safe)
    (bitsDrawn_start rng c) fuel

theorem drawMask_collects {fuel : Nat} (h : Collects (bitDraws rng) c bitsPerMask k)
    (hfuel : k < fuel) : Returns (drawMask rng fuel c) (BitsDrawn rng c k) :=
  whileLoop_collects (fun _ _ h => bits_missing_iff h) h (fun _ _ _ h => h.next)
    (bitsDrawn_start rng c) hfuel

/-- The variables of the outer loop after `j` masks. -/
structure MasksDrawn (rng : Nat → BitVec 32) (j : Nat) (s : TableState) : Prop where
  done : ∀ i, i < j → ∃ k, Collects (bitDraws rng) (callAt rng i) bitsPerMask k
  calls_eq : s.calls = callAt rng j
  used_iff : ∀ m, m ∈ s.used ↔ m ∈ collected (maskAt rng) 0 j
  index_eq : s.table_index = (collected (maskAt rng) 0 j).length
  masks_eq : ∀ i, (hi : i < numberMasks) → i < s.table_index →
    (collected (maskAt rng) 0 j)[i]? = some s.masks[i]

theorem masksDrawn_start (rng : Nat → BitVec 32) :
    MasksDrawn rng 0 ⟨Vector.replicate _ 0, ∅, 0, 0⟩ :=
  ⟨fun i hi => absurd hi (Nat.not_lt_zero i), rfl, fun m => by simp [collected], rfl,
    fun i _ hi => absurd hi (Nat.not_lt_zero i)⟩

/-- **Step lemma of the outer loop**: what becomes of a mask that is done. -/
theorem MasksDrawn.next {s : TableState} (h : MasksDrawn rng j s)
    (hlt : s.table_index < numberMasks)
    (hk : Collects (bitDraws rng) (callAt rng j) bitsPerMask k) {fuel : Nat} {m : MaskState}
    (hdrawn : drawMask rng fuel s.calls = .ok m) (hm : BitsDrawn rng (callAt rng j) k m) :
    Returns (addMask rng fuel s) (MasksDrawn rng (j + 1)) := by
  have hvalue : m.value = maskAt rng (0 + j) := by rw [hm.value_eq, Nat.zero_add, maskAt_eq hk]
  have hcalls : m.calls = callAt rng (j + 1) := by rw [hm.calls_eq, callAt_succ hk]
  have hdone : ∀ i, i < j + 1 → ∃ k, Collects (bitDraws rng) (callAt rng i) bitsPerMask k := by
    intro i hi
    rcases Nat.lt_succ_iff_lt_or_eq.mp hi with hlt | rfl
    · exact h.done i hlt
    · exact ⟨k, hk⟩
  rw [addMask, hdrawn, ok_bind]
  by_cases hused : m.value ∈ s.used
  · have hseen := (h.used_iff _).mp hused
    rw [hvalue] at hseen
    rw [if_pos hused]
    refine returns_ok ⟨hdone, hcalls, ?_, ?_, ?_⟩
    · rw [collected_of_mem hseen]
      exact h.used_iff
    · rw [collected_of_mem hseen]
      exact h.index_eq
    · rw [collected_of_mem hseen]
      exact h.masks_eq
  · have hfresh : maskAt rng (0 + j) ∉ collected (maskAt rng) 0 j :=
      fun hmem => hused ((h.used_iff _).mpr (hvalue ▸ hmem))
    rw [if_neg hused, storeFixed_ok hlt, ok_bind]
    refine returns_ok ⟨hdone, hcalls, fun m' => ?_, ?_, fun i hi hi' => ?_⟩
    · rw [collected_of_notMem hfresh, List.mem_append, List.mem_singleton, ← hvalue,
        ← h.used_iff, Finset.mem_insert, or_comm]
    · rw [collected_of_notMem hfresh, List.length_append, ← h.index_eq]
      rfl
    · rw [collected_of_notMem hfresh]
      -- An old entry, or the one that was written.
      rcases Nat.lt_succ_iff_lt_or_eq.mp hi' with hold | rfl
      · rw [List.getElem?_append_left (h.index_eq ▸ hold), h.masks_eq i hi hold,
          Vector.getElem_set_ne hlt hi (by omega)]
      · rw [List.getElem?_append_right (h.index_eq ▸ Nat.le_refl _), ← h.index_eq, Nat.sub_self,
          hvalue, Vector.getElem_set_self]
        rfl

theorem masks_missing_iff {s : TableState} (h : MasksDrawn rng j s) :
    decide (s.table_index < numberMasks) = true ↔
      (collected (maskAt rng) 0 j).length < numberMasks := by
  rw [decide_eq_true_eq, h.index_eq]

/-- A full table has the masks in the order in which they were first drawn. -/
theorem MasksDrawn.toList_eq {s : TableState} (h : MasksDrawn rng j s)
    (hfull : (collected (maskAt rng) 0 j).length = numberMasks) :
    s.masks.toList = collected (maskAt rng) 0 j := by
  apply List.ext_getElem?
  intro i
  by_cases hi : i < numberMasks
  · rw [h.masks_eq i hi (by rw [h.index_eq, hfull]; exact hi)]
    simp [hi]
  · rw [List.getElem?_eq_none (by simpa using hi), List.getElem?_eq_none (by omega)]

/-- What a table holds that gets done. -/
theorem new_collects_safe (rng : Nat → BitVec 32) (fuel : Nat) : Safe (new rng fuel) fun t =>
    ∃ n, (∀ i, i < n → ∃ k, Collects (bitDraws rng) (callAt rng i) bitsPerMask k) ∧
      Collects (maskAt rng) 0 numberMasks n ∧ t.masks.toList = collected (maskAt rng) 0 n := by
  have hround : ∀ j (s : TableState), MasksDrawn rng j s →
      decide (s.table_index < numberMasks) = true →
      Safe (addMask rng fuel s) (MasksDrawn rng (j + 1)) := by
    intro j s hs hmissing
    have hdraw := drawMask_collects_safe rng fuel s.calls
    cases hdrawn : drawMask rng fuel s.calls with
    | error e =>
      rw [addMask, hdrawn, hdraw.2 e hdrawn]
      exact safe_diverges
    | ok m =>
      obtain ⟨k, hk, hm⟩ := hdraw.1 m hdrawn
      rw [hs.calls_eq] at hk hm
      exact (hs.next (of_decide_eq_true hmissing) hk hdrawn hm).safe
  have hloop : Safe (whileLoop fuel (fun s => decide (s.table_index < numberMasks))
      (addMask rng fuel) ⟨Vector.replicate _ 0, ∅, 0, 0⟩)
      fun s => ∃ n, Collects (maskAt rng) 0 numberMasks n ∧ MasksDrawn rng n s :=
    whileLoop_collects_safe (fun _ _ h => masks_missing_iff h) hround (masksDrawn_start rng) fuel
  apply hloop.bind
  rintro s ⟨n, hn, hs⟩
  exact safe_ok ⟨n, hs.done, hn, hs.toList_eq hn.length_eq⟩

theorem new_collects {n : Nat}
    (hdone : ∀ i, i < n → ∃ k, Collects (bitDraws rng) (callAt rng i) bitsPerMask k)
    (hn : Collects (maskAt rng) 0 numberMasks n) :
    ∃ t, new rng (n + callAt rng n + 1) = .ok t := by
  have hround : ∀ j (s : TableState), j < n → MasksDrawn rng j s →
      Returns (addMask rng (n + callAt rng n + 1) s) (MasksDrawn rng (j + 1)) := by
    intro j s hj hs
    obtain ⟨k, hk⟩ := hdone j hj
    -- The outputs that the mask takes are among all those taken up to the end.
    have hcalls := callAt_succ hk
    have hmono := @callAt_mono rng n _ (show j + 1 ≤ n from hj)
    obtain ⟨m, hdrawn, hm⟩ := drawMask_collects hk (show k < n + callAt rng n + 1 by omega)
    have hlt : s.table_index < numberMasks := by
      rw [hs.index_eq]
      exact hn.before j hj
    exact hs.next hlt hk (by rw [hs.calls_eq, hdrawn]) hm
  have hloop : Returns (whileLoop (n + callAt rng n + 1)
      (fun s => decide (s.table_index < numberMasks)) (addMask rng (n + callAt rng n + 1))
      ⟨Vector.replicate _ 0, ∅, 0, 0⟩) (MasksDrawn rng n) :=
    whileLoop_collects (fun _ _ h => masks_missing_iff h) hn hround (masksDrawn_start rng)
      (by omega)
  obtain ⟨s, hs, -⟩ := hloop
  exact ⟨⟨s.masks⟩, by rw [new, hs]; rfl⟩

end masks

end ModifiedBloomFilterMasks

/-! ## Results -/

/-- A sliding-window constructor `new` that stores what `fillTable` leaves in
    `storage`: it returns iff the positions that are drawn behind the number of
    bits take at least that many values, and the first mask has those that came
    first. -/
structure SlidingEnds {Table : Type} {n : Nat} (random : RandomDraws)
    (bitsPerMask minBitsSet maxBitsSet : Nat) (new : Nat → Comp Table)
    (masks : Table → Vector Byte n) : Prop where
  returns_iff : (∃ fuel t, new fuel = .ok t) ↔ random.value 0 minBitsSet maxBitsSet ≤
    (Set.range fun i => SlidingMasks.positionDraws random bitsPerMask (1 + i)).ncard
  first_drawn : ∀ fuel t, new fuel = .ok t → SlidingMasks.FirstDrawn random bitsPerMask
    (random.value 0 minBitsSet maxBitsSet) (masks t)

theorem slidingEnds_of_fillTable {Table : Type} {random : RandomDraws}
    {bitsPerMask minBitsSet maxBitsSet numberMasks n : Nat} {new : Nat → Comp Table}
    {masks : Table → Vector Byte n} {storage : Vector Byte n} (hpos : 0 < bitsPerMask)
    (hle : minBitsSet ≤ maxBitsSet) (hmasks : 0 < numberMasks)
    (hn : numberMasks + bitsPerMask - 1 ≤ 8 * n)
    (hzero : ∀ p, bitAt storage.toArray p = false) (hsurjective : ∀ x, ∃ t, masks t = x)
    (hnew : ∀ fuel t, new fuel = .ok t ↔ SlidingMasks.fillTable random bitsPerMask minBitsSet
      maxBitsSet numberMasks fuel storage = .ok (masks t)) :
    SlidingEnds random bitsPerMask minBitsSet maxBitsSet new masks := by
  constructor
  · rw [← SlidingMasks.fillTable_returns_iff hpos hle hmasks hn hzero]
    constructor
    · rintro ⟨fuel, t, ht⟩
      exact ⟨fuel, masks t, (hnew fuel t).mp ht⟩
    · rintro ⟨fuel, x, hx⟩
      obtain ⟨t, rfl⟩ := hsurjective x
      exact ⟨fuel, t, (hnew fuel t).mpr hx⟩
  · intro fuel t ht
    exact SlidingMasks.firstDrawn_of_fillTable hpos hle hmasks hn hzero ((hnew fuel t).mp ht)

/-- A constructor that wraps what a computation yields. -/
theorem wrapped_eq_ok_iff {α Table : Type} {c : Comp α} {wrap : α → Table} {unwrap : Table → α}
    (hwrap : ∀ a, unwrap (wrap a) = a) (hunwrap : ∀ t, wrap (unwrap t) = t) {t : Table} :
    (c >>= fun a => .ok (wrap a)) = .ok t ↔ c = .ok (unwrap t) := by
  constructor
  · intro h
    obtain ⟨a, hc, ha⟩ := exists_of_bind_ok h
    rw [← Except.ok.inj ha, hwrap, hc]
  · intro h
    rw [h, ok_bind, hunwrap]

/-- **Sliding windows**: when the two constructors return, for every random
    source and whatever the storage of `BloomFilterMasks` held. -/
theorem sliding_tables_return_iff (random : RandomDraws) :
    (∀ storage, SlidingEnds random BloomFilterMasks.bitsPerMask BloomFilterMasks.minBitsSet
      BloomFilterMasks.maxBitsSet (BloomFilterMasks.new random · storage)
      BloomFilterMasks.masks) ∧
    SlidingEnds random ImprovedBloomFilterMasks.bitsPerMask ImprovedBloomFilterMasks.minBitsSet
      ImprovedBloomFilterMasks.maxBitsSet (ImprovedBloomFilterMasks.new random)
      ImprovedBloomFilterMasks.masks := by
  have hpos : 0 < BloomFilterMasks.numberMasks := by decide
  have hpos' : 0 < ImprovedBloomFilterMasks.numberMasks := by decide
  have hzero : ∀ p, bitAt (Vector.replicate ImprovedBloomFilterMasks.totalBytes
    (0 : Byte)).toArray p = false := bitAt_replicate_zero _
  refine ⟨fun storage => ?_, ?_⟩
  · exact slidingEnds_of_fillTable (by decide) (by decide) hpos (by decide)
      (bitAt_memset storage) (fun x => ⟨⟨x⟩, rfl⟩)
      fun _ _ => wrapped_eq_ok_iff (fun _ => rfl) fun _ => rfl
  · exact slidingEnds_of_fillTable (by decide) (by decide) hpos' (by decide) hzero
      (fun x => ⟨⟨x⟩, rfl⟩) fun _ _ => wrapped_eq_ok_iff (fun _ => rfl) fun _ => rfl

open ModifiedBloomFilterMasks in
/-- **Direct masks**: for every generator stream the constructor returns iff
    each mask that it begins finds enough different positions, until there are
    enough different masks. These are then in the table, in the order in which
    they were first drawn. -/
theorem direct_table_returns_iff (rng : Nat → BitVec 32) :
    ((∃ fuel t, ModifiedBloomFilterMasks.new rng fuel = .ok t) ↔
      ∃ n, (∀ j, j < n →
          bitsPerMask ≤ (Set.range fun i => bitDraws rng (callAt rng j + i)).ncard) ∧
        Collects (maskAt rng) 0 numberMasks n) ∧
    ∀ fuel t, ModifiedBloomFilterMasks.new rng fuel = .ok t →
      ∃ n, Collects (maskAt rng) 0 numberMasks n ∧
        t.masks.toList = collected (maskAt rng) 0 n := by
  have hfinite : ∀ j, (Set.range fun i => bitDraws rng (callAt rng j + i)).Finite := by
    intro j
    refine (Set.finite_lt_nat 64).subset ?_
    rintro p ⟨i, rfl⟩
    exact bitDraws_lt rng _
  refine ⟨?_, fun fuel t ht => ?_⟩
  · simp only [← exists_collects_iff (hfinite _)]
    constructor
    · rintro ⟨fuel, t, ht⟩
      obtain ⟨n, hdone, hn, -⟩ := (new_collects_safe rng fuel).1 t ht
      exact ⟨n, hdone, hn⟩
    · rintro ⟨n, hdone, hn⟩
      exact ⟨_, new_collects hdone hn⟩
  · obtain ⟨n, -, hn, hmasks⟩ := (new_collects_safe rng fuel).1 t ht
    exact ⟨n, hn, hmasks⟩

/-! ## Sources that get done -/

/-- Counting gives the first mask its positions one after the other. -/
theorem SlidingMasks.fillTable_counting {n : Nat} (hn : 1024 + 57 - 1 ≤ 8 * n)
    {storage : Vector Byte n} (hzero : ∀ p, bitAt storage.toArray p = false) :
    ∃ fuel masks, fillTable countingDraws 57 4 5 1024 fuel storage = .ok masks := by
  apply (fillTable_returns_iff (by decide) (by decide) (by decide) hn hzero).mpr
  rw [← exists_collects_iff (finite_positionDraws (by decide))]
  have hcollects : Collects (positionDraws countingDraws 57) 1 4 4 := by
    apply collects_of_injOn
    intro i j hi hj heq
    have hdraw : max 0 (min (1 + i) 56) = max 0 (min (1 + j) 56) := heq
    omega
  exact ⟨4, hcollects⟩

theorem BloomFilterMasks.exists_new_counting (storage : Vector Byte totalBytes) :
    ∃ fuel t, new countingDraws fuel storage = .ok t := by
  obtain ⟨fuel, masks, h⟩ := SlidingMasks.fillTable_counting (by decide) (bitAt_memset storage)
  exact ⟨fuel, ⟨masks⟩, (wrapped_eq_ok_iff (fun _ => rfl) fun _ => rfl).mpr h⟩

theorem ImprovedBloomFilterMasks.exists_new_counting :
    ∃ fuel t, new countingDraws fuel = .ok t := by
  have hzero : ∀ p, bitAt (Vector.replicate totalBytes (0 : Byte)).toArray p = false :=
    bitAt_replicate_zero totalBytes
  obtain ⟨fuel, masks, h⟩ := SlidingMasks.fillTable_counting (by decide) hzero
  exact ⟨fuel, ⟨masks⟩, (wrapped_eq_ok_iff (fun _ => rfl) fun _ => rfl).mpr h⟩

namespace ModifiedBloomFilterMasks

/-- Outputs that spell the number of the mask in base five: digit `b` is one of
    the five positions from `12 * b` on. -/
def digitDraws (i : Nat) : BitVec 32 :=
  BitVec.ofNat 32 (12 * (i % 5) + i / 5 / 5 ^ (i % 5) % 5)

theorem bitDraws_digitDraws (j : Nat) {b : Nat} (hb : b < 5) :
    bitDraws digitDraws (5 * j + b) = 12 * b + j / 5 ^ b % 5 := by
  have hdigit : (5 * j + b) % 5 = b := by omega
  have hnumber : (5 * j + b) / 5 = j := by omega
  have hlt := Nat.mod_lt (j / 5 ^ b) (show 0 < 5 by decide)
  rw [bitDraws, toNat_and_of_ones (k := 6) rfl, digitDraws, hdigit, hnumber, BitVec.toNat_ofNat]
  omega

/-- The five digits of a mask are different positions. -/
theorem collects_digitDraws (j : Nat) :
    Collects (bitDraws digitDraws) (5 * j) bitsPerMask 5 := by
  apply collects_of_injOn
  intro a b ha hb heq
  rw [bitDraws_digitDraws j ha, bitDraws_digitDraws j hb] at heq
  have := Nat.mod_lt (j / 5 ^ a) (show 0 < 5 by decide)
  have := Nat.mod_lt (j / 5 ^ b) (show 0 < 5 by decide)
  omega

theorem callAt_digitDraws (j : Nat) : callAt digitDraws j = 5 * j := by
  induction j with
  | zero => rfl
  | succ j ih =>
    have hcollects := collects_digitDraws j
    rw [← ih] at hcollects
    rw [callAt_succ hcollects, ih, Nat.mul_succ]

/-- The digits of a number can be read off its mask. -/
theorem digit_of_maskAt {i j b : Nat} (hb : b < 5) (h : maskAt digitDraws i = maskAt digitDraws j) :
    i / 5 ^ b % 5 = j / 5 ^ b % 5 := by
  have hmask : ∀ j, maskAt digitDraws j = maskOf (collected (bitDraws digitDraws) (5 * j) 5) := by
    intro j
    have hcollects := collects_digitDraws j
    rw [← callAt_digitDraws] at hcollects
    rw [maskAt_eq hcollects, callAt_digitDraws]
  have hlt := bitDraws_lt digitDraws (5 * i + b)
  have hmem : bitDraws digitDraws (5 * i + b) ∈ collected (bitDraws digitDraws) (5 * j) 5 := by
    rw [← getLsbD_maskOf _ hlt, ← hmask, ← h, hmask, getLsbD_maskOf _ hlt]
    exact mem_collected.mpr ⟨b, hb, rfl⟩
  obtain ⟨a, ha, heq⟩ := mem_collected.mp hmem
  rw [bitDraws_digitDraws j ha, bitDraws_digitDraws i hb] at heq
  have := Nat.mod_lt (i / 5 ^ b) (show 0 < 5 by decide)
  have := Nat.mod_lt (j / 5 ^ a) (show 0 < 5 by decide)
  -- The positions of different digits do not overlap.
  obtain rfl : a = b := by omega
  omega

theorem exists_new_digitDraws : ∃ fuel t, new digitDraws fuel = .ok t := by
  have hdistinct : Collects (maskAt digitDraws) 0 numberMasks numberMasks := by
    apply collects_of_injOn
    intro i j hi hj heq
    rw [Nat.zero_add, Nat.zero_add] at heq
    have h₀ := digit_of_maskAt (show 0 < 5 by decide) heq
    have h₁ := digit_of_maskAt (show 1 < 5 by decide) heq
    have h₂ := digit_of_maskAt (show 2 < 5 by decide) heq
    have h₃ := digit_of_maskAt (show 3 < 5 by decide) heq
    have h₄ := digit_of_maskAt (show 4 < 5 by decide) heq
    -- Five digits are enough for 2048 numbers.
    have hi' : i < 3125 := Nat.lt_trans hi (by decide)
    have hj' : j < 3125 := Nat.lt_trans hj (by decide)
    omega
  have hdone : ∀ j, j < numberMasks →
      ∃ k, Collects (bitDraws digitDraws) (callAt digitDraws j) bitsPerMask k :=
    fun j _ => ⟨5, by rw [callAt_digitDraws]; exact collects_digitDraws j⟩
  obtain ⟨t, ht⟩ := new_collects hdone hdistinct
  exact ⟨_, t, ht⟩

end ModifiedBloomFilterMasks

end BloomFilters
