import BloomFilters.Framework.Words
import Mathlib.Order.Interval.Finset.Nat

/-! # Sliding windows

    The number of set bits in a window of `w` consecutive positions of a
    row of bits: how it changes when the window slides by one, when a bit
    of the row is set, and how it is read off a word that holds the window.
-/

open Words

namespace Window

variable {b b' : Nat → Bool} {k w : Nat}

/-- The set positions of the window that starts at `k`. -/
def positions (b : Nat → Bool) (k w : Nat) : Finset Nat :=
  (Finset.Ico k (k + w)).filter fun i => b i = true

/-- The number of set bits of the window that starts at `k`. -/
def count (b : Nat → Bool) (k w : Nat) : Nat := (positions b k w).card

@[simp] theorem mem_positions {i : Nat} :
    i ∈ positions b k w ↔ (k ≤ i ∧ i < k + w) ∧ b i = true := by
  simp [positions]

/-- Only the bits of the window matter. -/
theorem count_congr (h : ∀ i, k ≤ i → i < k + w → b i = b' i) : count b k w = count b' k w := by
  apply congrArg Finset.card
  apply Finset.filter_congr
  intro i hi
  rw [Finset.mem_Ico] at hi
  rw [h i hi.1 hi.2]

theorem count_eq_zero (h : ∀ i, k ≤ i → i < k + w → b i = false) : count b k w = 0 := by
  unfold count
  rw [Finset.card_eq_zero, Finset.eq_empty_iff_forall_notMem]
  intro i hi
  obtain ⟨hik, hb⟩ := mem_positions.mp hi
  rw [h i hik.1 hik.2] at hb
  cases hb

/-- A window and the position after it. -/
theorem count_succ_right : count b k (w + 1) = count b k w + (b (k + w)).toNat := by
  cases hb : b (k + w) with
  | false =>
    -- A clear bit enters: the same positions.
    suffices h : positions b k (w + 1) = positions b k w by rw [count, h]; rfl
    ext i
    rw [mem_positions, mem_positions]
    constructor
    · intro hmem
      obtain ⟨hi, hbi⟩ := hmem
      have hne : i ≠ k + w := by rintro rfl; rw [hb] at hbi; cases hbi
      exact ⟨⟨hi.1, by omega⟩, hbi⟩
    · intro hmem
      obtain ⟨hi, hbi⟩ := hmem
      exact ⟨⟨hi.1, by omega⟩, hbi⟩
  | true =>
    -- A set bit enters: one position more.
    have hins : positions b k (w + 1) = insert (k + w) (positions b k w) := by
      ext i
      rw [Finset.mem_insert, mem_positions, mem_positions]
      constructor
      · rintro ⟨hi, hbi⟩
        rcases Nat.lt_or_ge i (k + w) with hlt | hge
        · exact Or.inr ⟨⟨hi.1, hlt⟩, hbi⟩
        · exact Or.inl (by omega)
      · rintro (rfl | ⟨hi, hbi⟩)
        · exact ⟨⟨by omega, by omega⟩, hb⟩
        · exact ⟨⟨hi.1, by omega⟩, hbi⟩
    have hnot : k + w ∉ positions b k w := by simp
    rw [count, hins, Finset.card_insert_of_notMem hnot, count]
    rfl

/-- Two windows side by side. -/
theorem count_add {v : Nat} : count b k (w + v) = count b k w + count b (k + w) v := by
  induction v with
  | zero => rw [Nat.add_zero, count_eq_zero (k := k + w) (by omega), Nat.add_zero]
  | succ v ih =>
    rw [← Nat.add_assoc, count_succ_right, ih, count_succ_right, Nat.add_assoc, Nat.add_assoc]

/-- A window and the position before it. -/
theorem count_succ_left : count b k (w + 1) = count b (k + 1) w + (b k).toNat := by
  induction w with
  | zero =>
    rw [count_succ_right, count_eq_zero (by omega), count_eq_zero (by omega), Nat.add_zero]
  | succ w ih =>
    rw [count_succ_right, ih, count_succ_right, show k + 1 + w = k + (w + 1) from by omega]
    omega

/-- **Sliding**: the window gains the bit that enters and loses the bit
    that leaves. -/
theorem count_slide : count b (k + 1) w + (b k).toNat = count b k w + (b (k + w)).toNat := by
  rw [← count_succ_left, count_succ_right]

/-- Setting a clear bit of the window adds one. -/
theorem count_set {i : Nat} (hik : k ≤ i ∧ i < k + w) (hclear : b i = false)
    (hset : ∀ j, b' j = true ↔ b j = true ∨ j = i) : count b' k w = count b k w + 1 := by
  have hins : positions b' k w = insert i (positions b k w) := by
    ext j
    rw [Finset.mem_insert, mem_positions, mem_positions, hset j]
    constructor
    · intro h
      obtain ⟨hj, hbj | rfl⟩ := h
      · exact Or.inr ⟨hj, hbj⟩
      · exact Or.inl rfl
    · intro hmem
      rcases hmem with rfl | ⟨hj, hbj⟩
      · exact ⟨hik, Or.inr rfl⟩
      · exact ⟨hj, Or.inl hbj⟩
  have hnot : i ∉ positions b k w := by simp [hclear]
  rw [count, hins, Finset.card_insert_of_notMem hnot, count]

/-- A word that holds exactly the window has as many set bits. -/
theorem bitCount_eq_count {v : Nat} {x : BitVec v} (hwv : w ≤ v)
    (hx : ∀ j, j < v → x.getLsbD j = (decide (j < w) && b (k + j))) :
    bitCount x = count b k w := by
  -- Bit `j` of the word is position `k + j` of the row.
  refine Finset.card_bij (fun j _ => k + j) ?_ ?_ ?_
  · intro j hj
    rw [mem_setBits] at hj
    rw [hx j (BitVec.lt_of_getLsbD hj), Bool.and_eq_true, decide_eq_true_eq] at hj
    exact mem_positions.mpr ⟨⟨by omega, by omega⟩, hj.2⟩
  · intro i _ j _ hij
    omega
  · intro i hi
    obtain ⟨hik, hbi⟩ := mem_positions.mp hi
    have hback : k + (i - k) = i := by omega
    refine ⟨i - k, ?_, hback⟩
    rw [mem_setBits, hx _ (by omega), hback, hbi, Bool.and_true, decide_eq_true_eq]
    omega

end Window
