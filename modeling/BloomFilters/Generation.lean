import BloomFilters.Bench

/-! # The order of generation

    `generate_unique` is not only fresh, it is determined: it returns the
    images of consecutive numbers in their order, less the used ones. So the
    vectors of `main` are known in closed form. While the numbers of the first
    vector stay below the seed of the second, no hash is skipped; from then on
    the second vector begins where the first one ends.
-/

open Checked

namespace BloomFilters

/-! ## One call -/

/-- The hash of round `n`. -/
def image (seed : Word) (n : Nat) : Word := murmurHash (seed + BitVec.ofNat 64 n)

/-- What the first `n` rounds append. -/
def appended (seed : Word) (used : Finset Word) (n : Nat) : List Word :=
  ((List.range n).map (image seed)).filter fun h => decide (h ∉ used)

section call

variable {seed : Word} {used : Finset Word} {n : Nat} {s : UniqueState}

theorem appended_succ : appended seed used (n + 1) =
    if image seed n ∈ used then appended seed used n
    else appended seed used n ++ [image seed n] := by
  unfold appended
  rw [List.range_succ, List.map_append, List.filter_append]
  by_cases hused : image seed n ∈ used
  · simp [hused]
  · simp [hused]

/-- Fewer rounds append a prefix. -/
theorem appended_mono {m : Nat} (hle : m ≤ n) :
    appended seed used m <+: appended seed used n := by
  induction n with
  | zero =>
    obtain rfl : m = 0 := by omega
    exact List.prefix_rfl
  | succ n ih =>
    rcases Nat.lt_or_eq_of_le hle with hlt | rfl
    · apply (ih (Nat.le_of_lt_succ hlt)).trans
      rw [appended_succ]
      split
      · exact List.prefix_rfl
      · exact List.prefix_append _ _
    · exact List.prefix_rfl

/-- Until the numbers wrap around, no round meets a hash of its own call. -/
theorem image_notMem_visited (hn : n < 2 ^ 64) : image seed n ∉ visited seed n := by
  intro hmem
  have hcard := card_visited seed (n := n) (by omega)
  have hcard' := card_visited seed (n := n + 1) (by omega)
  have hsame : visited seed (n + 1) = visited seed n :=
    (visited_succ seed n).trans (Finset.insert_eq_of_mem hmem)
  rw [hsame, hcard] at hcard'
  omega

/-- **Step lemma**: the order is kept. -/
theorem Generated.next_appended (h : Generated seed used n s) (hn : n < 2 ^ 64)
    (horder : s.hashes.toList = appended seed used n) :
    Returns (nextUnique s) fun s' => s'.hashes.toList = appended seed used (n + 1) := by
  have himage : murmurHash s.value = image seed n := by rw [h.value_eq, image]
  have hused : image seed n ∈ s.used ↔ image seed n ∈ used := by
    rw [h.used_eq, Finset.mem_union, or_iff_left (image_notMem_visited hn)]
  unfold nextUnique
  dsimp only
  rw [himage, appended_succ]
  by_cases hmem : image seed n ∈ used
  · rw [if_pos (hused.mpr hmem), if_pos hmem]
    exact returns_ok horder
  · rw [if_neg (hused.not.mpr hmem), if_neg hmem]
    exact returns_ok (by rw [Array.toList_push, horder])

/-- **Run lemma**: the first `count` of the unused images, in their order. -/
theorem generate_unique_appended {reserve : Nat → Comp Unit} {fuel : Nat} {count : Word}
    (seed : Word) (used : Finset Word) (hreserve : reserve count.toNat = .ok ())
    (hroom : used.card + count.toNat ≤ 2 ^ 64) (hfuel : used.card + count.toNat < fuel) :
    Returns (generate_unique reserve fuel count seed used) fun r =>
      FreshHashes count used r.1 r.2 ∧
      r.1.toList = (appended seed used (used.card + count.toNat)).take count.toNat := by
  have hbound : ∀ n (s : UniqueState), (Generated seed used n s ∧ s.hashes.size ≤ count.toNat) ∧
      s.hashes.toList = appended seed used n → decide (s.hashes.size < count.toNat) = true →
      n < used.card + count.toNat :=
    fun n s hs hmissing => hs.1.1.lt_of_missing hroom (of_decide_eq_true hmissing)
  have hround : ∀ n (s : UniqueState), (Generated seed used n s ∧ s.hashes.size ≤ count.toNat) ∧
      s.hashes.toList = appended seed used n → decide (s.hashes.size < count.toNat) = true →
      Returns (nextUnique s) fun s' =>
        (Generated seed used (n + 1) s' ∧ s'.hashes.size ≤ count.toNat) ∧
        s'.hashes.toList = appended seed used (n + 1) := by
    intro n s hs hmissing
    have hn := hbound n s hs hmissing
    obtain ⟨s', hs', hnext⟩ := hs.1.1.next_le (of_decide_eq_true hmissing)
    obtain ⟨s'', hs'', horder⟩ := hs.1.1.next_appended (by omega) hs.2
    obtain rfl := Except.ok.inj (hs'.symm.trans hs'')
    exact ⟨s', hs', hnext, horder⟩
  obtain ⟨s, hs, ⟨m, hm, ⟨hgen, hle⟩, horder⟩, hstop⟩ := whileLoop_returns _ _ hround hbound
    ⟨⟨generated_start seed used, Nat.zero_le _⟩, rfl⟩ (Nat.zero_le _)
    (show used.card + count.toNat < 0 + fuel by omega)
  have hsize : s.hashes.size = count.toNat :=
    Nat.le_antisymm hle (Nat.not_lt.mp (of_decide_eq_false hstop))
  have hreturns : generate_unique reserve fuel count seed used = .ok (s.hashes, s.used) := by
    unfold generate_unique
    rw [hreserve, ok_bind, hs]
    rfl
  refine ⟨_, hreturns, freshHashes_of_generate_unique hreturns, ?_⟩
  -- The rounds that were made append a prefix, and it is long enough.
  have hinitial := @appended_mono seed used _ _ hm
  have hlength : (appended seed used m).length = count.toNat := by
    rw [← horder, Array.length_toList, hsize]
  rw [List.prefix_iff_eq_take, hlength] at hinitial
  exact horder.trans hinitial

end call

/-! ## The vectors of `main` -/

/-- The hashes of `n` consecutive numbers. -/
def hashesFrom (start n : Nat) : Array Word :=
  (Array.range n).map fun i => murmurHash (BitVec.ofNat 64 (start + i))

theorem filter_range_ge (k n : Nat) :
    (List.range n).filter (fun i => decide (k ≤ i)) = List.range' k (n - k) := by
  induction n with
  | zero => simp
  | succ n ih =>
    rw [List.range_succ, List.filter_append, ih]
    rcases Nat.lt_or_ge n k with hlt | hge
    · have hzero : n + 1 - k = 0 := by omega
      have hzero' : n - k = 0 := by omega
      simp [hzero, hzero', hlt]
    · have hnext : n + 1 - k = n - k + 1 := by omega
      have hlast : k + (n - k) = n := by omega
      simp [hnext, hge, List.range'_1_concat, hlast]

/-- A call that finds the images of exactly its first `k` numbers used. -/
theorem take_appended {seed : Word} {used : Finset Word} {k n count : Nat}
    (hused : ∀ i, i < n → (image seed i ∈ used ↔ i < k)) (hn : k + count ≤ n) :
    (appended seed used n).take count = (List.range' k count).map (image seed) := by
  have hfilter : (List.range n).filter (fun i => decide (image seed i ∉ used)) =
      (List.range n).filter fun i => decide (k ≤ i) := by
    apply List.filter_congr
    intro i hi
    rw [decide_eq_decide, hused i (List.mem_range.mp hi), Nat.not_lt]
  unfold appended
  rw [List.filter_map]
  show ((List.filter (fun i => decide (image seed i ∉ used)) _).map _).take _ = _
  rw [hfilter, filter_range_ge, ← List.map_take, List.take_range'_of_length_ge (by omega)]

theorem map_image_eq {seed : Word} {k count : Nat} :
    (List.range' k count).map (image seed) = (hashesFrom (seed.toNat + k) count).toList := by
  apply List.ext_getElem (by simp [hashesFrom])
  intro i hi _
  simp only [hashesFrom, Array.getElem_toList, List.getElem_map, List.getElem_range',
    Array.getElem_map, Array.getElem_range, image]
  congr 1
  apply BitVec.eq_of_toNat_eq
  simp [BitVec.toNat_add, Nat.add_assoc]

/-- The numbers of the second vector that the first one has used. -/
theorem image_mem_first {rows j : Nat} (hlt : 2 ^ 32 + j < 2 ^ 64) (hrows : rows < 2 ^ 60) :
    image 0x100000000 j ∈ (hashesFrom 1 rows).toList.toFinset ↔ j < rows + 1 - 2 ^ 32 := by
  rw [List.mem_toFinset, Array.mem_toList_iff, Array.mem_iff_getElem]
  constructor
  · rintro ⟨i, hi, heq⟩
    have hi' : i < rows := by simpa [hashesFrom] using hi
    simp only [hashesFrom, Array.getElem_map, Array.getElem_range] at heq
    -- Equal images come from equal numbers.
    have hnum := congrArg BitVec.toNat (murmurPerm.injective heq)
    rw [BitVec.toNat_add, BitVec.toNat_ofNat, BitVec.toNat_ofNat] at hnum
    have hseed : (0x100000000 : Word).toNat = 2 ^ 32 := rfl
    omega
  · intro hj
    have hi : 2 ^ 32 + j - 1 < (hashesFrom 1 rows).size := by
      simp [hashesFrom]
      omega
    refine ⟨2 ^ 32 + j - 1, hi, ?_⟩
    simp only [hashesFrom, Array.getElem_map, Array.getElem_range]
    apply congrArg murmurHash
    apply BitVec.eq_of_toNat_eq
    have hseed : (0x100000000 : Word).toNat = 2 ^ 32 := rfl
    rw [BitVec.toNat_add, BitVec.toNat_ofNat, BitVec.toNat_ofNat]
    omega

/-- The two calls of `main`, and the vector that it mixes from them. -/
theorem generate_workload_eq {reserve : Nat → Comp Unit} {fuel : Nat} {config : Config}
    (hcoupled : config.rows = config.negative_queries)
    (hreserve : reserve config.rows.toNat = .ok ()) (hrows : config.rows.toNat < 2 ^ 60)
    (hfuel : 2 * config.rows.toNat < fuel) :
    ∃ mixed, Alternates (hashesFrom 1 config.rows.toNat)
        (hashesFrom (max (2 ^ 32) (config.rows.toNat + 1)) config.rows.toNat) mixed ∧
      generate_workload reserve fuel config =
        (reserve (config.rows.toNat + config.rows.toNat) >>= fun _ =>
          .ok ⟨hashesFrom 1 config.rows.toNat,
            hashesFrom (max (2 ^ 32) (config.rows.toNat + 1)) config.rows.toNat, mixed⟩) := by
  obtain ⟨⟨first, used⟩, hcall, hfresh, horder⟩ := generate_unique_appended 0x1 ∅ hreserve
    (by simp; omega) (show (∅ : Finset Word).card + config.rows.toNat < fuel by simp; omega)
  -- Nothing is used before the first call.
  have hfirst : first = hashesFrom 1 config.rows.toNat := by
    have htake := @take_appended 0x1 ∅ 0 _ config.rows.toNat (fun i _ => by simp)
      (show 0 + _ ≤ (∅ : Finset Word).card + config.rows.toNat by simp)
    exact Array.toList_inj.mp (horder.trans (htake.trans map_image_eq))
  subst hfirst
  have hcard : used.card = config.rows.toNat := by simpa using hfresh.card_used
  have hused : used = (hashesFrom 1 config.rows.toNat).toList.toFinset := by
    exact hfresh.used_eq.trans (Finset.empty_union _)
  obtain ⟨⟨second, used'⟩, hcall', hfresh', horder'⟩ := generate_unique_appended 0x100000000 used
    hreserve (by omega) (show used.card + config.rows.toNat < fuel by omega)
  have hsecond : second =
      hashesFrom (max (2 ^ 32) (config.rows.toNat + 1)) config.rows.toNat := by
    have htake := @take_appended 0x100000000 used (config.rows.toNat + 1 - 2 ^ 32)
      (used.card + config.rows.toNat) config.rows.toNat
      (fun i hi => hused ▸ image_mem_first (by omega) hrows) (by omega)
    have hstart : (0x100000000 : Word).toNat + (config.rows.toNat + 1 - 2 ^ 32) =
        max (2 ^ 32) (config.rows.toNat + 1) := by
      have hseed : (0x100000000 : Word).toNat = 2 ^ 32 := rfl
      omega
    rw [← hstart]
    exact Array.toList_inj.mp (horder'.trans (htake.trans map_image_eq))
  subst hsecond
  have hsize : ∀ start, (hashesFrom start config.rows.toNat).size = config.rows.toNat := by
    intro start
    simp [hashesFrom]
  obtain ⟨mixed, halternates, hmix⟩ := mix_vector_spec reserve
    ((hsize 1).trans (hsize (max (2 ^ 32) (config.rows.toNat + 1))).symm)
  refine ⟨mixed, halternates, ?_⟩
  rw [generate_workload, hcall, ok_bind, ← hcoupled]
  simp only [hcall', ok_bind]
  rw [hmix, hsize, hsize, bind_assoc]
  rfl

/-- **The workload in closed form**, for every accepted command line: the rows
    follow the numbers from 1 on, the negative queries those from `2 ^ 32` on
    that are left. -/
theorem workload_closed_form {reserve : Nat → Comp Unit} {fuel : Nat} {args : List String}
    {config : Config} (hlimit : ∀ n, 2 ^ 60 ≤ n → ∃ e, reserve n = .error e)
    (hargs : parse_args args = .ok config) (hreserve : reserve config.rows.toNat = .ok ())
    (hmixed : reserve (config.rows.toNat + config.rows.toNat) = .ok ())
    (hfuel : 2 * config.rows.toNat < fuel) :
    Returns (generate_workload reserve fuel config) fun w => w.Sound config.rows.toNat ∧
      w.to_insert = hashesFrom 1 config.rows.toNat ∧
      w.not_present = hashesFrom (max (2 ^ 32) (config.rows.toNat + 1)) config.rows.toNat := by
  obtain ⟨hcoupled, -, -⟩ := parse_args_ok hargs
  have hrows : config.rows.toNat < 2 ^ 60 := by
    by_contra hge
    obtain ⟨e, he⟩ := hlimit config.rows.toNat (by omega)
    rw [hreserve] at he
    cases he
  obtain ⟨w, hsound, hw⟩ := generate_workload_spec hcoupled hreserve hrows hfuel
  obtain ⟨mixed, -, hclosed⟩ := generate_workload_eq hcoupled hreserve hrows hfuel
  rw [hmixed, ok_bind] at hw hclosed
  obtain rfl := Except.ok.inj (hw.symm.trans hclosed)
  exact ⟨_, hw, hsound, rfl, rfl⟩

/-- Three rows. -/
theorem workload_closed_form_three :
    Returns (generate_workload (fun n => if n < 2 ^ 60 then .ok () else .error .thrown) 7
      { rows := 3, negative_queries := 3 }) fun w =>
        w.Sound 3 ∧ w.to_insert = hashesFrom 1 3 ∧
        w.not_present = hashesFrom (max (2 ^ 32) (3 + 1)) 3 :=
  @workload_closed_form (fun n => if n < 2 ^ 60 then .ok () else .error .thrown) 7 ["-nr", "3"]
    { rows := 3, negative_queries := 3 } (fun n hn => ⟨.thrown, if_neg (Nat.not_lt.mpr hn)⟩)
    (by decide) rfl rfl (by decide)

end BloomFilters
