import BloomFilters.BatchProbe
import BloomFilters.CommandLine
import BloomFilters.Sizes
import BloomFilters.Workload

/-! # The benchmark

    `src/bench.cpp`, as far as it decides what the false-positive rate
    means: the generated vectors and the count of reported queries, for every
    command line that is accepted. The timed runs, the table of rows and the
    output file are in the modules that build on this one.
-/

open Checked BitArray Window Footprint

namespace BloomFilters

/-! ## The generated vectors -/

/-- The vectors of `main`. -/
structure Workload where
  to_insert : Array Word
  not_present : Array Word
  mixed : Array Word

/-- `main` from the parsed configuration to its vectors. `used_hashes` is
    shared by the two calls. -/
def generate_workload (reserve : Nat → Comp Unit) (fuel : Nat) (config : Config) :
    Comp Workload := do
  let used_hashes : Finset Word := ∅
  let (to_insert, used_hashes) ← generate_unique reserve fuel config.rows 0x1 used_hashes
  let (not_present, _) ←
    generate_unique reserve fuel config.negative_queries 0x100000000 used_hashes
  let mixed ← mix_vector reserve to_insert not_present
  return { to_insert := to_insert, not_present := not_present, mixed := mixed }

/-- What the benchmark relies on. -/
structure Workload.Sound (w : Workload) (rows : Nat) : Prop where
  to_insert_size : w.to_insert.size = rows
  not_present_size : w.not_present.size = rows
  to_insert_nodup : w.to_insert.toList.Nodup
  not_present_nodup : w.not_present.toList.Nodup
  disjoint : ∀ h ∈ w.not_present, h ∉ w.to_insert
  mixed : Alternates w.to_insert w.not_present w.mixed

/-- The vectors are sound, and once the first `reserve` succeeds only the one
    of `mix_vector` can still throw. -/
theorem generate_workload_spec {reserve : Nat → Comp Unit} {fuel : Nat} {config : Config}
    (hcoupled : config.rows = config.negative_queries)
    (hreserve : reserve config.rows.toNat = .ok ()) (hrows : config.rows.toNat < 2 ^ 60)
    (hfuel : 2 * config.rows.toNat < fuel) :
    ∃ w, w.Sound config.rows.toNat ∧ generate_workload reserve fuel config =
      (reserve (config.rows.toNat + config.rows.toNat) >>= fun _ => .ok w) := by
  obtain ⟨⟨to_insert, used⟩, hcall, hfresh⟩ := generate_unique_spec 0x1 ∅ hreserve
    (by simp; omega) (show (∅ : Finset Word).card + config.rows.toNat < fuel by simp; omega)
  have hsize : to_insert.size = config.rows.toNat := hfresh.size_eq
  have hcard : used.card = config.rows.toNat := by simpa using hfresh.card_used
  obtain ⟨⟨not_present, used'⟩, hcall', hfresh'⟩ := generate_unique_spec 0x100000000 used
    hreserve (by omega) (show used.card + config.rows.toNat < fuel by omega)
  have hsize' : not_present.size = config.rows.toNat := hfresh'.size_eq
  obtain ⟨mixed, halternates, hmix⟩ := mix_vector_spec reserve (hsize.trans hsize'.symm)
  refine ⟨⟨to_insert, not_present, mixed⟩, ⟨hsize, hsize', hfresh.nodup, hfresh'.nodup,
    fun h hh => ?_, halternates⟩, ?_⟩
  · -- The second call finds the inserted hashes in the shared set.
    intro hmem
    exact hfresh'.fresh h hh ((hfresh.mem_used_iff h).mpr (Or.inr hmem))
  · rw [generate_workload, hcall, ok_bind, ← hcoupled]
    simp only [hcall', ok_bind]
    rw [hmix, hsize, hsize', bind_assoc]
    rfl

/-! ## The false-positive rate -/

/-- What `run_allBenchmark` divides to get `fp_rate`, and the filter that it
    measured. -/
structure Measurement (Impl : Type) where
  filter : Impl
  false_positives : Nat
  queries : Nat

/-- `run_allBenchmark` from the filter it probes to `fp_rate`. -/
def measure_fp {Impl : Type} [BloomFilter Impl] (filter : Impl)
    (to_insert not_present : Array Word) : Comp (Measurement Impl) := do
  let filter ← insertBatch filter to_insert
  let hit_result := Array.replicate (result_bytes not_present.size) 0
  let hit_result ← containsBatch filter not_present hit_result
  let false_positives ← count_packed_true hit_result not_present.size
  return { filter := filter, false_positives := false_positives, queries := not_present.size }

/-- The measurement counts the hashes of `not_present` that the filter
    reports after the insertion of `to_insert`. -/
def CountsFalsePositives {Impl : Type} [BloomFilter Impl] (filter : Impl) (w : Workload) : Prop :=
  Returns (measure_fp filter w.to_insert w.not_present) fun m =>
    insertBatch filter w.to_insert = .ok m.filter ∧
    m.false_positives = {h | h ∈ w.not_present ∧ contains m.filter h = .ok true}.ncard ∧
    m.queries = w.not_present.size ∧ m.queries ≠ 0

section lawful

variable {Impl : Type} [BloomFilter Impl] [LawfulBloomFilter Impl] {f : Impl}

open LawfulBloomFilter

theorem countsFalsePositives_of_lawful (hvalid : Valid (shape f)) {w : Workload} {rows : Nat}
    (hsound : w.Sound rows) (hpos : 1 ≤ rows) (hrows : rows < 2 ^ 60)
    (hinsert : ∀ h ∈ w.to_insert, HasMask Impl h) (hprobe : ∀ h ∈ w.not_present, HasMask Impl h) :
    CountsFalsePositives f w := by
  have hsize := hsound.not_present_size
  have hbytes : result_bytes w.not_present.size = (w.not_present.size + 7) / 8 :=
    result_bytes_eq (by omega)
  obtain ⟨f', hf', hshape, -⟩ := foldlM_insert_spec f w.to_insert.toList hvalid
    fun h hh => hinsert h (Array.mem_toList_iff.mp hh)
  rw [← insertBatch_eq] at hf'
  obtain ⟨p, hp⟩ := answers_of_lawful (hshape ▸ hvalid) hprobe
  have hbatch := containsBatch_eq f' w.not_present
    (Array.replicate (result_bytes w.not_present.size) 0) p hp (by omega) (by simp)
  unfold CountsFalsePositives measure_fp
  rw [hf', ok_bind]
  simp only [hbatch, ok_bind]
  rw [hbytes, count_packed_true_ok (by simp), ok_bind]
  refine returns_ok ⟨rfl, ?_, rfl, ?_⟩
  · -- Each bit answers one hash of `not_present`, and no hash occurs twice.
    rw [← count_eq_ncard hsound.not_present_nodup (b := p)]
    · apply count_congr
      intro i _ hi
      rw [bitAt_packBits (by simp) (by omega)]
      have hlt : i < w.not_present.size := by omega
      simp [answers, hlt]
    · intro i hi
      rw [hp i hi]
      simp
  · show w.not_present.size ≠ 0
    omega

end lawful

/-- The block filters whose masks come from a table. -/
theorem countsFalsePositives_of_blocks {Impl : Type} [BloomFilter Impl] [BlockFilter Impl]
    (f : Impl) (hmask : ∀ h, BlockFilter.HasMask Impl h) {w : Workload} {rows : Nat}
    (hsound : w.Sound rows) (hpos : 1 ≤ rows) (hrows : rows < 2 ^ 60) : CountsFalsePositives f w :=
  countsFalsePositives_of_lawful (BlockFilter.valid f) hsound hpos hrows (fun h _ => hmask h)
    fun h _ => hmask h

/-- The filters that `main` hands to `run_allBenchmark`; those of the blocked
    class as far as its `mask` returns. -/
structure Workload.Measured (w : Workload) (rows : Word) : Prop where
  basic : CountsFalsePositives
    (BasicBloomFilter.new (calculate_arrow_equivalent_bits rows 8 512) 5) w
  blocked : (∀ h, h ∈ w.to_insert ∨ h ∈ w.not_present → ∃ m, BlockedBloomFilter.mask h = .ok m) →
    Returns (BlockedBloomFilter.new rows) fun f => CountsFalsePositives f w
  arrow : ∀ masks mode, CountsFalsePositives (ArrowBloomFilter.new masks rows mode) w
  modified : ∀ masks mode, CountsFalsePositives (ModifiedArrowBloomFilter.new masks rows mode) w
  improved : ∀ masks mode, CountsFalsePositives (ImprovedArrowBloomFilter.new masks rows mode) w

theorem Workload.Sound.measured {w : Workload} {rows : Word} (hsound : w.Sound rows.toNat)
    (hpos : 1 ≤ rows.toNat) (hrows : rows.toNat < 2 ^ 60) : w.Measured rows where
  basic := by
    have hbits := calculate_arrow_equivalent_bits_range hrows
    have hsized : BasicBloomFilter.Sized (calculate_arrow_equivalent_bits rows 8 512) :=
      ⟨Nat.le_trans (by decide) hbits.1, hbits.2.trans (by decide)⟩
    exact countsFalsePositives_of_lawful (BasicBloomFilter.valid_new hsized 5) hsound hpos hrows
      (fun _ _ => trivial) fun _ _ => trivial
  blocked hmask := by
    have hproduct := blocked_product hrows
    apply (BlockedBloomFilter.new_returns (by omega) (by omega)).mono
    intro f _
    apply countsFalsePositives_of_lawful (BlockFilter.valid f) hsound hpos hrows
    · intro h hh
      exact hmask h (.inl hh)
    · intro h hh
      exact hmask h (.inr hh)
  arrow masks mode := countsFalsePositives_of_blocks _ (fun _ => trivial) hsound hpos hrows
  modified masks mode := countsFalsePositives_of_blocks _ (fun _ => trivial) hsound hpos hrows
  improved masks mode := countsFalsePositives_of_blocks _ (fun _ => trivial) hsound hpos hrows

/-- **Real false positives**: for every accepted command line, the counts that
    the benchmark divides are those of hashes that were never inserted. A
    `reserve` of too many elements throws. -/
theorem measured_false_positives_are_real (reserve : Nat → Comp Unit)
    (hlimit : ∀ n, 2 ^ 60 ≤ n → ∃ e, reserve n = .error e) {args : List String} {config : Config}
    (hargs : parse_args args = .ok config) :
    (config.rows = config.negative_queries ∧ 1 ≤ config.rows.toNat ∧
      1 ≤ config.hot_runs.toNat) ∧
    (∀ fuel e, reserve config.rows.toNat = .error e →
      generate_workload reserve fuel config = .error e) ∧
    (∀ fuel, reserve config.rows.toNat = .ok () → 2 * config.rows.toNat < fuel →
      ∃ w, w.Sound config.rows.toNat ∧ w.Measured config.rows ∧
        generate_workload reserve fuel config =
          (reserve (config.rows.toNat + config.rows.toNat) >>= fun _ => .ok w)) := by
  obtain ⟨hcoupled, hrows, hruns⟩ := parse_args_ok hargs
  refine ⟨⟨hcoupled, hrows, hruns⟩, fun fuel e he => ?_, fun fuel hok hfuel => ?_⟩
  · rw [generate_workload, generate_unique, he]
    rfl
  · have hlt : config.rows.toNat < 2 ^ 60 := by
      -- So many rows and `reserve` would have thrown.
      by_contra hge
      obtain ⟨e, he⟩ := hlimit config.rows.toNat (by omega)
      rw [hok] at he
      cases he
    obtain ⟨w, hsound, hw⟩ := generate_workload_spec hcoupled hok hlt hfuel
    exact ⟨w, hsound, hsound.measured hrows hlt, hw⟩

/-- Nine rows, under the limit of the standard library: the packed answers end
    within their second byte. -/
theorem measured_false_positives_are_real_nine_rows :
    ∃ w : Workload, w.Sound 9 ∧ w.Measured 9 ∧
      generate_workload (fun n => if n < 2 ^ 60 then .ok () else .error .thrown) 19
        { rows := 9, negative_queries := 9 } = .ok w :=
  (measured_false_positives_are_real (fun n => if n < 2 ^ 60 then .ok () else .error .thrown)
    (fun n hn => ⟨.thrown, if_neg (Nat.not_lt.mpr hn)⟩)
    (show parse_args ["-nr", "9"] = .ok { rows := 9, negative_queries := 9 } from by decide)).2.2
    19 rfl (by decide)

end BloomFilters
