import BloomFilters.Framework.Checked
import Mathlib.Data.Set.Card
import Mathlib.Data.Set.Finite.Lattice

/-! # Collecting different values

    A loop reads one value of a stream after the other, throws away the ones
    that it has met before, and stops at a certain number of different
    values. Whether it stops is up to the stream.

    * **Collected values**: in the order of their first occurrence; all of them,
      if none is repeated.
    * **Stopping**: the first moment at which there are enough of them. There
      is one iff the stream takes that many different values at all.
    * **Loops**: a `while` over the number of values, and a `for` over
      `while (true)` loops that get one new value each.
-/

open Checked

namespace Collect

variable {α : Type} [DecidableEq α] {v : Nat → α} {c k m n : Nat}

/-! ## Collected values -/

/-- The different values among `n` from `c` on. -/
def collected (v : Nat → α) (c : Nat) : Nat → List α
  | 0 => []
  | n + 1 =>
    if v (c + n) ∈ collected v c n then collected v c n else collected v c n ++ [v (c + n)]

theorem collected_of_mem (h : v (c + n) ∈ collected v c n) :
    collected v c (n + 1) = collected v c n := if_pos h

theorem collected_of_notMem (h : v (c + n) ∉ collected v c n) :
    collected v c (n + 1) = collected v c n ++ [v (c + n)] := if_neg h

theorem mem_collected {a : α} : a ∈ collected v c n ↔ ∃ i, i < n ∧ v (c + i) = a := by
  induction n with
  | zero => simp [collected]
  | succ n ih =>
    by_cases hmem : v (c + n) ∈ collected v c n
    · rw [collected_of_mem hmem, ih]
      constructor
      · rintro ⟨i, hi, rfl⟩
        exact ⟨i, by omega, rfl⟩
      · rintro ⟨i, hi, rfl⟩
        -- The last value occurs before.
        rcases Nat.lt_succ_iff_lt_or_eq.mp hi with hlt | rfl
        · exact ⟨i, hlt, rfl⟩
        · exact ih.mp hmem
    · rw [collected_of_notMem hmem, List.mem_append, ih, List.mem_singleton]
      constructor
      · rintro (⟨i, hi, rfl⟩ | rfl)
        · exact ⟨i, by omega, rfl⟩
        · exact ⟨n, Nat.lt_succ_self n, rfl⟩
      · rintro ⟨i, hi, rfl⟩
        rcases Nat.lt_succ_iff_lt_or_eq.mp hi with hlt | rfl
        · exact .inl ⟨i, hlt, rfl⟩
        · exact .inr rfl

theorem nodup_collected (v : Nat → α) (c n : Nat) : (collected v c n).Nodup := by
  induction n with
  | zero => exact List.nodup_nil
  | succ n ih =>
    by_cases hmem : v (c + n) ∈ collected v c n
    · rwa [collected_of_mem hmem]
    · rw [collected_of_notMem hmem]
      exact ih.append (List.nodup_singleton _) (by simpa using hmem)

theorem length_succ_le : (collected v c (n + 1)).length ≤ (collected v c n).length + 1 := by
  by_cases hmem : v (c + n) ∈ collected v c n
  · rw [collected_of_mem hmem]
    exact Nat.le_succ _
  · rw [collected_of_notMem hmem, List.length_append, List.length_singleton]

theorem length_mono (h : m ≤ n) : (collected v c m).length ≤ (collected v c n).length := by
  induction h with
  | refl => exact Nat.le_refl _
  | @step n _ ih =>
    refine ih.trans ?_
    by_cases hmem : v (c + n) ∈ collected v c n
    · rw [collected_of_mem hmem]
    · rw [collected_of_notMem hmem, List.length_append]
      exact Nat.le_add_right _ _

/-! ## Stopping -/

/-- After `n` values from `c` on there are `k` different ones, for the first
    time. -/
structure Collects (v : Nat → α) (c k n : Nat) : Prop where
  length_eq : (collected v c n).length = k
  before : ∀ m, m < n → (collected v c m).length < k

theorem collects_zero : Collects v c 0 0 := ⟨rfl, fun _ hm => absurd hm (Nat.not_lt_zero _)⟩

/-- A fresh value completes the next number. -/
theorem collects_succ (hlength : (collected v c n).length = k)
    (hfresh : v (c + n) ∉ collected v c n) : Collects v c (k + 1) (n + 1) := by
  refine ⟨?_, fun m hm => ?_⟩
  · rw [collected_of_notMem hfresh, List.length_append, hlength, List.length_singleton]
  · have hle := length_mono (v := v) (c := c) (Nat.le_of_lt_succ hm)
    omega

/-- A stream that does not repeat itself: each value is a new one. -/
theorem collected_of_injOn (h : ∀ i j, i < n → j < n → v (c + i) = v (c + j) → i = j) :
    collected v c n = (List.range n).map fun i => v (c + i) := by
  induction n with
  | zero => rfl
  | succ n ih =>
    have hfresh : v (c + n) ∉ collected v c n := by
      intro hmem
      obtain ⟨i, hi, heq⟩ := mem_collected.mp hmem
      exact Nat.ne_of_lt hi (h i n (Nat.lt_succ_of_lt hi) (Nat.lt_succ_self n) heq)
    rw [collected_of_notMem hfresh,
      ih fun i j hi hj => h i j (Nat.lt_succ_of_lt hi) (Nat.lt_succ_of_lt hj), List.range_succ,
      List.map_append]
    rfl

theorem collects_of_injOn (h : ∀ i j, i < n → j < n → v (c + i) = v (c + j) → i = j) :
    Collects v c n n := by
  have hlength : ∀ m, m ≤ n → (collected v c m).length = m := by
    intro m hm
    rw [collected_of_injOn fun i j hi hj => h i j (Nat.lt_of_lt_of_le hi hm)
      (Nat.lt_of_lt_of_le hj hm), List.length_map, List.length_range]
  refine ⟨hlength n (Nat.le_refl n), fun m hm => ?_⟩
  rw [hlength m (Nat.le_of_lt hm)]
  exact hm

theorem Collects.unique (hm : Collects v c k m) (hn : Collects v c k n) : m = n := by
  rcases Nat.lt_trichotomy m n with hlt | heq | hgt
  · exact absurd (hn.before m hlt) (by rw [hm.length_eq]; exact Nat.lt_irrefl k)
  · exact heq
  · exact absurd (hm.before n hgt) (by rw [hn.length_eq]; exact Nat.lt_irrefl k)

/-- Before that, there are too few values. -/
theorem Collects.lt_of_lt (h : Collects v c k n) (hlt : (collected v c m).length < k) : m < n := by
  by_contra hge
  have hle := length_mono (v := v) (c := c) (Nat.le_of_not_lt hge)
  rw [h.length_eq] at hle
  omega

theorem exists_collects (h : k ≤ (collected v c n).length) : ∃ m, m ≤ n ∧ Collects v c k m := by
  induction n with
  | zero =>
    obtain rfl : k = 0 := Nat.le_zero.mp h
    exact ⟨0, Nat.le_refl 0, collects_zero⟩
  | succ n ih =>
    by_cases henough : k ≤ (collected v c n).length
    · obtain ⟨m, hm, hcollects⟩ := ih henough
      exact ⟨m, by omega, hcollects⟩
    · -- The last value is the one that was missing.
      have hlast := length_succ_le (v := v) (c := c) (n := n)
      refine ⟨n + 1, Nat.le_refl _, by omega, fun m hm => ?_⟩
      have hle := length_mono (v := v) (c := c) (Nat.le_of_lt_succ hm)
      omega

/-- **Stopping**: there are enough values iff the stream takes enough of them. -/
theorem exists_collects_iff (hfinite : (Set.range fun i => v (c + i)).Finite) :
    (∃ n, Collects v c k n) ↔ k ≤ (Set.range fun i => v (c + i)).ncard := by
  have hcard : ∀ n, (collected v c n).length = (collected v c n).toFinset.card :=
    fun n => (List.toFinset_card_of_nodup (nodup_collected v c n)).symm
  constructor
  · rintro ⟨n, h⟩
    rw [← h.length_eq, hcard, ← Set.ncard_coe_finset]
    refine Set.ncard_le_ncard (fun a ha => ?_) hfinite
    obtain ⟨i, -, hi⟩ := mem_collected.mp (List.mem_toFinset.mp ha)
    exact ⟨i, hi⟩
  · intro hle
    -- Each of the finitely many values occurs up to some moment.
    have hindex : ∀ a ∈ Set.range fun i => v (c + i), ∃ i, v (c + i) = a := fun a ha => ha
    choose! index hindex using hindex
    obtain ⟨bound, hbound⟩ := (hfinite.image index).bddAbove
    have hsubset : (Set.range fun i => v (c + i)) ⊆ (collected v c (bound + 1)).toFinset := by
      intro a ha
      rw [Finset.mem_coe, List.mem_toFinset, mem_collected]
      exact ⟨index a, Nat.lt_succ_of_le (hbound ⟨a, ha, rfl⟩), hindex a ha⟩
    have hncard := Set.ncard_le_ncard hsubset (Finset.finite_toSet _)
    rw [Set.ncard_coe_finset, ← hcard] at hncard
    obtain ⟨n, -, h⟩ := exists_collects (hle.trans hncard)
    exact ⟨n, h⟩

/-! ## Loops -/

variable {σ : Type} {I : Nat → σ → Prop}

section whileLoop

variable {cond : σ → Bool} {body : σ → Comp σ}

/-- `while (count < k)` ends with enough values, if it ends. -/
theorem whileLoop_collects_safe
    (hcond : ∀ n s, I n s → (cond s = true ↔ (collected v c n).length < k))
    (hbody : ∀ n s, I n s → cond s = true → Safe (body s) (I (n + 1))) {s : σ} (hs : I 0 s)
    (fuel : Nat) : Safe (whileLoop fuel cond body s) fun s' => ∃ n, Collects v c k n ∧ I n s' := by
  refine (whileLoop_safe (fun s => ∃ n, I n s ∧ ∀ m, m < n → (collected v c m).length < k)
    (fun s hs hc => ?_) fuel s ⟨0, hs, fun m hm => absurd hm (Nat.not_lt_zero m)⟩).mono ?_
  · obtain ⟨n, hn, hbefore⟩ := hs
    apply (hbody n s hn hc).mono
    intro s' hs'
    refine ⟨n + 1, hs', fun m hm => ?_⟩
    rcases Nat.lt_succ_iff_lt_or_eq.mp hm with hlt | rfl
    · exact hbefore m hlt
    · exact (hcond m s hn).mp hc
  · rintro s' ⟨⟨n, hn, hbefore⟩, hdone⟩
    have hge : ¬ (collected v c n).length < k := fun hlt =>
      absurd ((hcond n s' hn).mpr hlt) (by simp [hdone])
    refine ⟨n, ⟨?_, hbefore⟩, hn⟩
    -- One value before, there were too few.
    cases n with
    | zero => exact (Nat.eq_zero_of_not_pos hge).symm
    | succ n =>
      have hprev := hbefore n (Nat.lt_succ_self n)
      have hlast := length_succ_le (v := v) (c := c) (n := n)
      omega

/-- It does end, if the stream has them. -/
theorem whileLoop_collects
    (hcond : ∀ n s, I n s → (cond s = true ↔ (collected v c n).length < k))
    {N : Nat} (hN : Collects v c k N)
    (hbody : ∀ n s, n < N → I n s → Returns (body s) (I (n + 1))) {s : σ} (hs : I 0 s)
    {fuel : Nat} (hfuel : N < fuel) : Returns (whileLoop fuel cond body s) (I N) := by
  have hbound : ∀ n s, I n s → cond s = true → n < N :=
    fun n s hn hc => hN.lt_of_lt ((hcond n s hn).mp hc)
  apply (whileLoop_returns I N (fun n s hn hc => hbody n s (hbound n s hn hc) hn) hbound hs
    (Nat.zero_le N) (by omega)).mono
  rintro s' ⟨⟨n, hle, hn⟩, hdone⟩
  -- It does not end before the last of the values.
  rcases Nat.lt_or_eq_of_le hle with hlt | rfl
  · exact absurd ((hcond n s' hn).mpr (hN.before n hlt)) (by simp [hdone])
  · exact hn

end whileLoop

section forLoop

variable {round : σ → Comp (σ ⊕ σ)}

/-- A round reads one value, and breaks iff it is fresh. -/
def IsCollect (v : Nat → α) (c : Nat) (I : Nat → σ → Prop) (round : σ → Comp (σ ⊕ σ)) : Prop :=
  ∀ n s, I n s → Returns (round s) (Sum.elim
    (fun s' => v (c + n) ∈ collected v c n ∧ I (n + 1) s')
    (fun s' => v (c + n) ∉ collected v c n ∧ I (n + 1) s'))

theorem whileTrue_collects_safe (h : IsCollect v c I round) {s : σ} (hs : I n s)
    (hlength : (collected v c n).length = k) (fuel : Nat) :
    Safe (whileTrue round fuel s) fun s' => ∃ m, Collects v c (k + 1) m ∧ I m s' := by
  refine whileTrue_safe (fun s => ∃ n, I n s ∧ (collected v c n).length = k) _ ?_ fuel s
    ⟨n, hs, hlength⟩
  rintro s ⟨n, hn, hlength⟩
  apply (h n s hn).safe.mono
  intro r hr
  cases r with
  | inl s' => exact ⟨n + 1, hr.2, by rw [collected_of_mem hr.1, hlength]⟩
  | inr s' => exact ⟨n + 1, collects_succ hlength hr.1, hr.2⟩

theorem whileTrue_collects (h : IsCollect v c I round) {s : σ} (hs : I n s)
    (hlength : (collected v c n).length = k) {N : Nat} (hN : Collects v c (k + 1) N)
    {fuel : Nat} (hfuel : N ≤ n + fuel) : Returns (whileTrue round fuel s) (I N) := by
  induction fuel generalizing n s with
  | zero => exact absurd (hN.lt_of_lt (by omega : (collected v c n).length < k + 1)) (by omega)
  | succ fuel ih =>
    unfold whileTrue
    apply (h n s hs).bind
    intro r hr
    cases r with
    | inl s' => exact ih hr.2 (by rw [collected_of_mem hr.1, hlength]) (by omega)
    | inr s' =>
      rw [hN.unique (collects_succ hlength hr.1)]
      exact returns_ok hr.2

/-- `k` loops that get one new value each. -/
theorem forLoop_collects_safe (h : IsCollect v c I round) {s : σ} (hs : I 0 s) (k fuel : Nat) :
    Safe (forLoop 0 k 1 (fun _ => whileTrue round fuel) s) fun s' =>
      ∃ n, Collects v c k n ∧ I n s' := by
  refine forLoop_safe (fun j s => ∃ n, Collects v c j n ∧ I n s) (Nat.zero_le k)
    ⟨0, collects_zero, hs⟩ ?_
  rintro j s _ _ ⟨n, hn, hI⟩
  exact whileTrue_collects_safe h hI hn.length_eq fuel

theorem forLoop_collects (h : IsCollect v c I round) {s : σ} (hs : I 0 s) {N : Nat}
    (hN : Collects v c k N) {fuel : Nat} (hfuel : N ≤ fuel) :
    Returns (forLoop 0 k 1 (fun _ => whileTrue round fuel) s) (I N) := by
  apply (forLoop_returns (fun j s => ∃ n, Collects v c j n ∧ I n s) Nat.one_pos (Nat.zero_le k)
    (Nat.one_dvd _) ⟨0, collects_zero, hs⟩ ?_).mono
  · rintro s' ⟨n, hn, hI⟩
    rwa [hN.unique hn]
  · rintro j s _ hj _ ⟨n, hn, hI⟩
    -- The next value comes before the last one.
    obtain ⟨m, hm, hnext⟩ := exists_collects (show j + 1 ≤ (collected v c N).length by
      rw [hN.length_eq]; exact hj)
    apply (whileTrue_collects h hI hn.length_eq hnext (by omega)).mono
    intro s' hs'
    exact ⟨m, hnext, hs'⟩

end forLoop

end Collect
