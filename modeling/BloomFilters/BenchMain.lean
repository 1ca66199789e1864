import BloomFilters.BenchRuns

/-! # The benchmark program

    `main` of `src/bench.cpp` from its arguments to `test_results`: thirteen
    benchmarks on one workload, one after the other. The tables of the three
    classes are static, so all filters of a class share them.

    * **Rows**: names and modes are fixed; the rows of one class report one
      false-positive rate, whatever the modes are.
    * **Termination**: the benchmark comes to its end iff the stages of
      `BlockedBloomFilter::mask` do, on every generated hash.
-/

open Checked

namespace BloomFilters

/-! ## The thirteen benchmarks -/

/-- The static tables. -/
structure MaskTables where
  arrow : BloomFilterMasks
  modified : ModifiedBloomFilterMasks
  improved : ImprovedBloomFilterMasks

/-- Tables that the constructors return, from whatever they draw. -/
structure MaskTables.Generated (tables : MaskTables) : Prop where
  arrow : ∃ random fuel storage, BloomFilterMasks.new random fuel storage = .ok tables.arrow
  modified : ∃ rng fuel, ModifiedBloomFilterMasks.new rng fuel = .ok tables.modified
  improved : ∃ random fuel, ImprovedBloomFilterMasks.new random fuel = .ok tables.improved

theorem MaskTables.exists_generated : ∃ tables : MaskTables, tables.Generated := by
  obtain ⟨fuel, arrow, harrow⟩ := BloomFilterMasks.exists_new_counting (.replicate _ 0)
  obtain ⟨fuel', modified, hmodified⟩ := ModifiedBloomFilterMasks.exists_new_digitDraws
  obtain ⟨fuel'', improved, himproved⟩ := ImprovedBloomFilterMasks.exists_new_counting
  exact ⟨⟨arrow, modified, improved⟩, ⟨_, fuel, _, harrow⟩, ⟨_, fuel', hmodified⟩,
    ⟨_, fuel'', himproved⟩⟩

section program

variable {D : Type} [LinearOrder D]

abbrev Benchmark (D : Type) := BenchState → Comp (BenchmarkResult D × BenchState)

/-- What `main` passes to `test_results.push_back`, in its order. -/
def benchmarks (d : Doubles D) (perf : Readings D) (reserve : Nat → Comp Unit)
    (tables : MaskTables) (w : Workload) (config : Config) : List (Benchmark D) :=
  let basic_num_bits := calculate_arrow_equivalent_bits config.rows 8 512
  let make_basic_filter : Comp BasicBloomFilter := .ok (BasicBloomFilter.new basic_num_bits 5)
  let make_blocked_filter := BlockedBloomFilter.new config.rows
  let make_arrow_filter : Comp (ArrowBloomFilter tables.arrow) :=
    .ok (ArrowBloomFilter.new tables.arrow config.rows .scalar)
  let make_arrow_filter_avx2 : Comp (ArrowBloomFilter tables.arrow) :=
    .ok (ArrowBloomFilter.new tables.arrow config.rows .avx2)
  let make_modified_arrow_filter : Comp (ModifiedArrowBloomFilter tables.modified) :=
    .ok (ModifiedArrowBloomFilter.new tables.modified config.rows .scalar)
  let make_modified_arrow_filter_avx2 : Comp (ModifiedArrowBloomFilter tables.modified) :=
    .ok (ModifiedArrowBloomFilter.new tables.modified config.rows .avx2)
  let make_impr_arrow_filter : Comp (ImprovedArrowBloomFilter tables.improved) :=
    .ok (ImprovedArrowBloomFilter.new tables.improved config.rows .scalar)
  let make_impr_arrow_filter_avx2 : Comp (ImprovedArrowBloomFilter tables.improved) :=
    .ok (ImprovedArrowBloomFilter.new tables.improved config.rows .avx2)
  [run_allBenchmark d perf reserve "BasicBloomFilter" make_basic_filter
      .scalar .scalar w config,
    run_allBenchmark d perf reserve "BasicBloomFilter" make_basic_filter
      .batch .batch w config,
    run_allBenchmark d perf reserve "BlockedBloomFilter" make_blocked_filter
      .scalar .scalar w config,
    run_allBenchmark d perf reserve "BlockedBloomFilter" make_blocked_filter
      .batch .batch w config,
    run_allBenchmark d perf reserve "ArrowBloomFilter" make_arrow_filter
      .scalar .scalar w config,
    run_allBenchmark d perf reserve "ArrowBloomFilter" make_arrow_filter
      .batch .batch w config,
    run_allBenchmark d perf reserve "ArrowBloomFilter_avx2" make_arrow_filter_avx2
      .batch .batch w config,
    run_allBenchmark d perf reserve "ModifiedArrowFilter" make_modified_arrow_filter
      .scalar .scalar w config,
    run_allBenchmark d perf reserve "ModifiedArrowFilter" make_modified_arrow_filter
      .batch .batch w config,
    run_allBenchmark d perf reserve "ModifiedArrowFilter_avx2" make_modified_arrow_filter_avx2
      .batch .batch w config,
    run_allBenchmark d perf reserve "ImprovedArrow" make_impr_arrow_filter
      .scalar .scalar w config,
    run_allBenchmark d perf reserve "ImprovedArrow" make_impr_arrow_filter
      .batch .batch w config,
    run_allBenchmark d perf reserve "ImprovedArrow_avx2" make_impr_arrow_filter_avx2
      .batch .batch w config]

/-- `test_results.push_back(...)` for one benchmark. -/
def pushResult (t : List (BenchmarkResult D) × BenchState) (run : Benchmark D) :
    Comp (List (BenchmarkResult D) × BenchState) := do
  let (result, s) ← run t.2
  return (t.1 ++ [result], s)

/-- `main` from its vectors to `test_results`. -/
def run_benchmarks (d : Doubles D) (perf : Readings D) (reserve : Nat → Comp Unit)
    (tables : MaskTables) (w : Workload) (config : Config) (s : BenchState) :
    Comp (List (BenchmarkResult D) × BenchState) :=
  (benchmarks d perf reserve tables w config).foldlM pushResult ([], s)

/-! ## One benchmark after the other -/

variable {d : Doubles D} {perf : Readings D} {reserve : Nat → Comp Unit} {w : Workload}
         {config : Config}

/-- A benchmark that returns `row`, in every state. -/
def Yields (d : Doubles D) (perf : Readings D) (w : Workload) (config : Config)
    (run : Benchmark D) (row : Row) : Prop :=
  ∀ s, Returns (run s) fun res => row.Reports d perf w config s.measured res.1 ∧
    res.2 = row.after config s

/-- Row `i` of the results takes its readings behind those of the rows before. -/
def RowsReported (d : Doubles D) (perf : Readings D) (w : Workload) (config : Config)
    (first : Nat) (rows : List Row) (results : List (BenchmarkResult D)) : Prop :=
  List.Forall₂ (fun (p : Row × Nat) result =>
    p.1.Reports d perf w config (first + 5 * config.hot_runs.toNat * p.2) result)
    rows.zipIdx results

/-- The benchmarks from row `n` on. -/
theorem foldlM_pushResult {first : Nat} {runs : List (Benchmark D)} {rows : List Row}
    (h : List.Forall₂ (Yields d perf w config) runs rows) (n : Nat)
    (results : List (BenchmarkResult D)) {s : BenchState}
    (hs : s.measured = first + 5 * config.hot_runs.toNat * n) :
    Returns (runs.foldlM pushResult (results, s)) fun t =>
      t.2 = rows.foldl (fun s row => row.after config s) s ∧
      ∃ behind, t.1 = results ++ behind ∧ List.Forall₂ (fun (p : Row × Nat) result =>
        p.1.Reports d perf w config (first + 5 * config.hot_runs.toNat * p.2) result)
        (rows.zipIdx n) behind := by
  induction h generalizing n results s with
  | nil => exact returns_ok ⟨rfl, [], (List.append_nil _).symm, .nil⟩
  | @cons run row runs rows hrun _ ih =>
    obtain ⟨⟨result, s'⟩, hres, hreports, hafter⟩ := hrun s
    have hnext : s'.measured = first + 5 * config.hot_runs.toNat * (n + 1) := by
      have hmeasured : s'.measured = s.measured + 5 * config.hot_runs.toNat :=
        congrArg BenchState.measured hafter
      rw [hmeasured, hs, Nat.mul_succ, Nat.add_assoc]
    have hpush : pushResult (results, s) run = .ok (results ++ [result], s') := by
      rw [pushResult, hres]
      rfl
    rw [List.foldlM_cons, hpush, ok_bind]
    apply (ih (n + 1) (results ++ [result]) hnext).mono
    rintro t ⟨hstate, behind, ht, hbehind⟩
    refine ⟨?_, result :: behind, ?_, ?_⟩
    · rw [hstate, List.foldl_cons]
      exact congrArg (fun s => rows.foldl (fun s row => row.after config s) s) hafter
    · rw [ht, List.append_assoc, List.singleton_append]
    · exact .cons (hs ▸ hreports) hbehind

omit [LinearOrder D] in
/-- Every benchmark of a list that is run to its end returns. -/
theorem exists_of_foldlM_pushResult {runs : List (Benchmark D)}
    {t t' : List (BenchmarkResult D) × BenchState} (h : runs.foldlM pushResult t = .ok t')
    {run : Benchmark D} (hrun : run ∈ runs) : ∃ s res, run s = .ok res := by
  induction runs generalizing t with
  | nil => cases hrun
  | cons first runs ih =>
    rw [List.foldlM_cons] at h
    obtain ⟨t₁, hpush, hrest⟩ := exists_of_bind_ok h
    obtain ⟨res, hres, -⟩ := exists_of_bind_ok hpush
    rcases List.mem_cons.mp hrun with rfl | hmem
    · exact ⟨t.2, res, hres⟩
    · exact ih hrest hmem

/-! ## What the classes report -/

/-- The rows of the output, with the values of the five classes. -/
def rowsOf (basic blocked arrow modified improved : ClassValues) : List Row :=
  [⟨"BasicBloomFilter", .scalar, .scalar, basic⟩,
    ⟨"BasicBloomFilter", .batch, .batch, basic⟩,
    ⟨"BlockedBloomFilter", .scalar, .scalar, blocked⟩,
    ⟨"BlockedBloomFilter", .batch, .batch, blocked⟩,
    ⟨"ArrowBloomFilter", .scalar, .scalar, arrow⟩,
    ⟨"ArrowBloomFilter", .batch, .batch, arrow⟩,
    ⟨"ArrowBloomFilter_avx2", .batch, .batch, arrow⟩,
    ⟨"ModifiedArrowFilter", .scalar, .scalar, modified⟩,
    ⟨"ModifiedArrowFilter", .batch, .batch, modified⟩,
    ⟨"ModifiedArrowFilter_avx2", .batch, .batch, modified⟩,
    ⟨"ImprovedArrow", .scalar, .scalar, improved⟩,
    ⟨"ImprovedArrow", .batch, .batch, improved⟩,
    ⟨"ImprovedArrow_avx2", .batch, .batch, improved⟩]

/-- The values of a class are those of its filters, in either mode. -/
structure ClassesCompute (tables : MaskTables) (w : Workload) (rows : Word)
    (basic blocked arrow modified improved : ClassValues) : Prop where
  basic : Computes (BasicBloomFilter.new (calculate_arrow_equivalent_bits rows 8 512) 5) w basic
  blocked : Returns (BlockedBloomFilter.new rows) fun f => Computes f w blocked
  arrow : ∀ mode, Computes (ArrowBloomFilter.new tables.arrow rows mode) w arrow
  modified : ∀ mode, Computes (ModifiedArrowBloomFilter.new tables.modified rows mode) w modified
  improved : ∀ mode, Computes (ImprovedArrowBloomFilter.new tables.improved rows mode) w improved

theorem Benchable.of_blocks {Impl : Type} [BloomFilter Impl] [BlockFilter Impl] (f : Impl)
    {rows : Nat} (hsound : w.Sound rows) (hpos : 1 ≤ rows) (hrows : rows < 2 ^ 60)
    (hmask : ∀ h, h ∈ w.to_insert ∨ h ∈ w.not_present → BlockFilter.HasMask Impl h) :
    Benchable f w rows :=
  ⟨BlockFilter.valid f, hsound, hpos, hrows, fun h hh => hmask h (.inl hh),
    fun h hh => hmask h (.inr hh)⟩

theorem benchable_basic {rows : Word} (hsound : w.Sound rows.toNat) (hpos : 1 ≤ rows.toNat)
    (hrows : rows.toNat < 2 ^ 60) :
    Benchable (BasicBloomFilter.new (calculate_arrow_equivalent_bits rows 8 512) 5) w
      rows.toNat := by
  have hbits := calculate_arrow_equivalent_bits_range hrows
  have hsized : BasicBloomFilter.Sized (calculate_arrow_equivalent_bits rows 8 512) :=
    ⟨Nat.le_trans (by decide) hbits.1, hbits.2.trans (by decide)⟩
  exact ⟨BasicBloomFilter.valid_new hsized 5, hsound, hpos, hrows, fun _ _ => trivial,
    fun _ _ => trivial⟩

/-- Once the masks of a workload are there, all classes compute. -/
theorem exists_classesCompute (tables : MaskTables) {rows : Word} (hsound : w.Sound rows.toNat)
    (hpos : 1 ≤ rows.toNat) (hrows : rows.toNat < 2 ^ 60)
    (hmask : ∀ h, h ∈ w.to_insert ∨ h ∈ w.not_present →
      ∃ m, BlockedBloomFilter.mask h = .ok m) :
    ∃ basic blocked arrow modified improved,
      ClassesCompute tables w rows basic blocked arrow modified improved := by
  have hproduct := blocked_product hrows
  obtain ⟨f, hf, -⟩ := @BlockedBloomFilter.new_returns rows (by omega) (by omega)
  have harrow := Benchable.of_blocks (ArrowBloomFilter.new tables.arrow rows .scalar) hsound hpos
    hrows fun _ _ => trivial
  have hmodified := Benchable.of_blocks (ModifiedArrowBloomFilter.new tables.modified rows .scalar)
    hsound hpos hrows fun _ _ => trivial
  have himproved := Benchable.of_blocks (ImprovedArrowBloomFilter.new tables.improved rows .scalar)
    hsound hpos hrows fun _ _ => trivial
  obtain ⟨basic, hbasic⟩ := (benchable_basic hsound hpos hrows).exists_computes
  obtain ⟨blocked, hblocked⟩ := (Benchable.of_blocks f hsound hpos hrows hmask).exists_computes
  obtain ⟨arrow, ha⟩ := harrow.exists_computes
  obtain ⟨modified, hm⟩ := hmodified.exists_computes
  obtain ⟨improved, hi⟩ := himproved.exists_computes
  refine ⟨basic, blocked, arrow, modified, improved, hbasic, ⟨f, hf, hblocked⟩, ?_, ?_, ?_⟩
  · intro mode
    exact harrow.computes_congr (g := .new tables.arrow rows mode) rfl rfl ha
  · intro mode
    exact hmodified.computes_congr (g := .new tables.modified rows mode) rfl rfl hm
  · intro mode
    exact himproved.computes_congr (g := .new tables.improved rows mode) rfl rfl hi

/-- The thirteen benchmarks return the thirteen rows. -/
theorem benchmarks_yield {tables : MaskTables} (hsound : w.Sound config.rows.toNat)
    (hpos : 1 ≤ config.rows.toNat) (hrows : config.rows.toNat < 2 ^ 60)
    (hruns : RunsFit reserve config.hot_runs.toNat)
    (hmask : ∀ h, h ∈ w.to_insert ∨ h ∈ w.not_present →
      ∃ m, BlockedBloomFilter.mask h = .ok m)
    {basic blocked arrow modified improved : ClassValues}
    (h : ClassesCompute tables w config.rows basic blocked arrow modified improved) :
    List.Forall₂ (Yields d perf w config) (benchmarks d perf reserve tables w config)
      (rowsOf basic blocked arrow modified improved) := by
  have hbasic := benchable_basic hsound hpos hrows
  obtain ⟨f, hf, hblocked⟩ := h.blocked
  have hblocked' := Benchable.of_blocks f hsound hpos hrows hmask
  have harrow := fun mode => Benchable.of_blocks
    (ArrowBloomFilter.new tables.arrow config.rows mode) hsound hpos hrows fun _ _ => trivial
  have hmodified := fun mode => Benchable.of_blocks
    (ModifiedArrowBloomFilter.new tables.modified config.rows mode) hsound hpos hrows
    fun _ _ => trivial
  have himproved := fun mode => Benchable.of_blocks
    (ImprovedArrowBloomFilter.new tables.improved config.rows mode) hsound hpos hrows
    fun _ _ => trivial
  unfold benchmarks rowsOf
  rw [hf]
  exact
    .cons (hbasic.run_allBenchmark_spec hruns h.basic _ _ _) <|
    .cons (hbasic.run_allBenchmark_spec hruns h.basic _ _ _) <|
    .cons (hblocked'.run_allBenchmark_spec hruns hblocked _ _ _) <|
    .cons (hblocked'.run_allBenchmark_spec hruns hblocked _ _ _) <|
    .cons ((harrow .scalar).run_allBenchmark_spec hruns (h.arrow .scalar) _ _ _) <|
    .cons ((harrow .scalar).run_allBenchmark_spec hruns (h.arrow .scalar) _ _ _) <|
    .cons ((harrow .avx2).run_allBenchmark_spec hruns (h.arrow .avx2) _ _ _) <|
    .cons ((hmodified .scalar).run_allBenchmark_spec hruns (h.modified .scalar) _ _ _) <|
    .cons ((hmodified .scalar).run_allBenchmark_spec hruns (h.modified .scalar) _ _ _) <|
    .cons ((hmodified .avx2).run_allBenchmark_spec hruns (h.modified .avx2) _ _ _) <|
    .cons ((himproved .scalar).run_allBenchmark_spec hruns (h.improved .scalar) _ _ _) <|
    .cons ((himproved .scalar).run_allBenchmark_spec hruns (h.improved .scalar) _ _ _) <|
    .cons ((himproved .avx2).run_allBenchmark_spec hruns (h.improved .avx2) _ _ _) .nil

/-! ## Termination -/

/-- A benchmark of a blocked filter that returns has found every mask. -/
theorem masks_of_run_allBenchmark {name : String} {filter_obj : Comp BlockedBloomFilter}
    {insert_mode probe_mode : Mode} {s : BenchState} {res : BenchmarkResult D × BenchState}
    (hcount : w.not_present.size + 7 < 2 ^ 64)
    (h : run_allBenchmark d perf reserve name filter_obj insert_mode probe_mode w config s =
      .ok res)
    {x : Word} (hx : x ∈ w.to_insert ∨ x ∈ w.not_present) :
    ∃ m, BlockedBloomFilter.mask x = .ok m := by
  -- The false positives are counted behind the builds and the insertions.
  unfold run_allBenchmark at h
  obtain ⟨⟨build_res, s₁⟩, _, h⟩ := exists_of_bind_ok h
  obtain ⟨⟨insert_res, s₂⟩, _, h⟩ := exists_of_bind_ok h
  obtain ⟨f, _, h⟩ := exists_of_bind_ok h
  obtain ⟨m, hm, _⟩ := exists_of_bind_ok h
  obtain ⟨f', hf', hm⟩ := exists_of_bind_ok hm
  obtain ⟨r, hr, _⟩ := exists_of_bind_ok hm
  rcases hx with hins | habs
  · have hfold : insertBatch f w.to_insert = w.to_insert.toList.foldlM insert f :=
      BlockFilter.insertBatch_eq f w.to_insert
    have hall := (BlockedBloomFilter.foldlM_insert_returns_iff f _).mp ⟨f', hfold ▸ hf'⟩
    exact hall x (Array.mem_toList_iff.mpr hins)
  · have hall := (@fillAndProbe_returns_iff (contains f') _ _ hcount (by simp)).mp ⟨r, hr⟩
    exact (BlockedBloomFilter.contains_returns_iff f' x).mp (hall x habs)

theorem blocked_mem_benchmarks {tables : MaskTables} :
    run_allBenchmark d perf reserve "BlockedBloomFilter" (BlockedBloomFilter.new config.rows)
      .scalar .scalar w config ∈ benchmarks d perf reserve tables w config :=
  .tail _ (.tail _ (.head _))

/-! ## The whole run -/

/-- What `main` has in `test_results` and in its state at the end: the rows of a
    class report the values of its filters, and each takes its own readings. -/
def Reported (d : Doubles D) (perf : Readings D) (tables : MaskTables) (w : Workload)
    (config : Config) (s : BenchState) (t : List (BenchmarkResult D) × BenchState) : Prop :=
  ∃ basic blocked arrow modified improved,
    ClassesCompute tables w config.rows basic blocked arrow modified improved ∧
    RowsReported d perf w config s.measured (rowsOf basic blocked arrow modified improved) t.1 ∧
    t.2 = (rowsOf basic blocked arrow modified improved).foldl
      (fun s row => row.after config s) s

/-- A configuration for which all vectors can be reserved, and its workload. -/
structure Ready (reserve : Nat → Comp Unit) (fuel : Nat) (config : Config) (w : Workload) :
    Prop where
  sound : w.Sound config.rows.toNat
  pos : 1 ≤ config.rows.toNat
  rows_lt : config.rows.toNat < 2 ^ 60
  runs : RunsFit reserve config.hot_runs.toNat
  generated : generate_workload reserve fuel config = .ok w

theorem exists_ready (hlimit : ∀ n, 2 ^ 60 ≤ n → ∃ e, reserve n = .error e)
    {args : List String} (hargs : parse_args args = .ok config)
    (hrows : reserve config.rows.toNat = .ok ())
    (hmixed : reserve (config.rows.toNat + config.rows.toNat) = .ok ())
    (hruns : reserve config.hot_runs.toNat = .ok ()) {fuel : Nat}
    (hfuel : 2 * config.rows.toNat < fuel) : ∃ w, Ready reserve fuel config w := by
  obtain ⟨hcoupled, hpos, hhot⟩ := parse_args_ok hargs
  have hlt : config.rows.toNat < 2 ^ 60 := by
    by_contra hge
    obtain ⟨e, he⟩ := hlimit config.rows.toNat (by omega)
    rw [hrows] at he
    cases he
  obtain ⟨w, hsound, hw⟩ := generate_workload_spec hcoupled hrows hlt hfuel
  rw [hmixed, ok_bind] at hw
  exact ⟨w, hsound, hpos, hlt, ⟨hhot, config.hot_runs.isLt, hruns⟩, hw⟩

namespace Ready

variable {fuel : Nat} (h : Ready reserve fuel config w) (tables : MaskTables) (s : BenchState)

include h

/-- With all masks there, the rows come out one after the other. -/
theorem reported_of_masks (hmask : ∀ x, x ∈ w.to_insert ∨ x ∈ w.not_present →
    ∃ m, BlockedBloomFilter.mask x = .ok m) :
    Returns (run_benchmarks d perf reserve tables w config s)
      (Reported d perf tables w config s) := by
  obtain ⟨basic, blocked, arrow, modified, improved, hcompute⟩ :=
    exists_classesCompute tables h.sound h.pos h.rows_lt hmask
  have hyield : List.Forall₂ (Yields d perf w config) (benchmarks d perf reserve tables w config)
      (rowsOf basic blocked arrow modified improved) :=
    benchmarks_yield h.sound h.pos h.rows_lt h.runs hmask hcompute
  have hstart : s.measured = s.measured + 5 * config.hot_runs.toNat * 0 := by simp
  apply (foldlM_pushResult hyield 0 [] hstart).mono
  rintro t ⟨hstate, behind, ht, hbehind⟩
  rw [List.nil_append] at ht
  exact ⟨basic, blocked, arrow, modified, improved, hcompute, ht ▸ hbehind, hstate⟩

/-- A run that comes to its end has found every mask. -/
theorem masks_of_run {t : List (BenchmarkResult D) × BenchState}
    (ht : run_benchmarks d perf reserve tables w config s = .ok t) {x : Word}
    (hx : x ∈ w.to_insert ∨ x ∈ w.not_present) : ∃ m, BlockedBloomFilter.mask x = .ok m := by
  have hsize := h.sound.not_present_size
  have hlt := h.rows_lt
  obtain ⟨s', res, hres⟩ := exists_of_foldlM_pushResult ht blocked_mem_benchmarks
  exact masks_of_run_allBenchmark (by omega) hres hx

theorem reported_of_run {t : List (BenchmarkResult D) × BenchState}
    (ht : run_benchmarks d perf reserve tables w config s = .ok t) :
    Reported d perf tables w config s t := by
  have hreturns : Returns (run_benchmarks d perf reserve tables w config s)
      (Reported d perf tables w config s) :=
    h.reported_of_masks tables s fun x => h.masks_of_run tables s ht
  obtain ⟨t', ht', hreported⟩ := hreturns
  obtain rfl := Except.ok.inj (ht.symm.trans ht')
  exact hreported

end Ready

/-- **The benchmark**: for every accepted command line, the thirteen rows are
    complete iff `mask` ends on every generated hash. -/
theorem benchmark_rows (hlimit : ∀ n, 2 ^ 60 ≤ n → ∃ e, reserve n = .error e)
    {args : List String} (hargs : parse_args args = .ok config)
    (hrows : reserve config.rows.toNat = .ok ())
    (hmixed : reserve (config.rows.toNat + config.rows.toNat) = .ok ())
    (hruns : reserve config.hot_runs.toNat = .ok ()) {fuel : Nat}
    (hfuel : 2 * config.rows.toNat < fuel) (tables : MaskTables) (s : BenchState) :
    ∃ w, w.Sound config.rows.toNat ∧ generate_workload reserve fuel config = .ok w ∧
      ((∃ t, run_benchmarks d perf reserve tables w config s = .ok t) ↔
        ∀ h, h ∈ w.to_insert ∨ h ∈ w.not_present → BlockedBloomFilter.MaskEscapes h) ∧
      ∀ t, run_benchmarks d perf reserve tables w config s = .ok t →
        Reported d perf tables w config s t := by
  obtain ⟨w, hready⟩ := exists_ready hlimit hargs hrows hmixed hruns hfuel
  refine ⟨w, hready.sound, hready.generated, ?_, fun t => hready.reported_of_run tables s⟩
  simp only [← BlockedBloomFilter.mask_returns_iff]
  constructor
  · rintro ⟨t, ht⟩
    exact fun x => hready.masks_of_run tables s ht
  · intro hmask
    have hreturns : Returns (run_benchmarks d perf reserve tables w config s)
        (Reported d perf tables w config s) := hready.reported_of_masks tables s hmask
    obtain ⟨t, ht, -⟩ := hreturns
    exact ⟨t, ht⟩

/-! ## The file -/

/-- `main` from `test_results` on: what is sent to the file, if one was asked for. -/
def write_results (format : D → String) (opened : Bool) (config : Config)
    (test_results : List (BenchmarkResult D)) : Except String (Option String) :=
  if config.csv_path ≠ "" then
    (write_csv format opened config.csv_path test_results).map some
  else .ok none

/-- Row `i` of the file, with the readings of row `i`. -/
def RowsPrinted (format : D → String) (d : Doubles D) (perf : Readings D) (w : Workload)
    (config : Config) (first : Nat) (rows : List Row) (lines : List (BenchmarkResult String)) :
    Prop :=
  List.Forall₂ (fun (p : Row × Nat) line => ∃ result, line = result.print format ∧
    p.1.Reports d perf w config (first + 5 * config.hot_runs.toNat * p.2) result)
    rows.zipIdx lines

/-- The names are constants without separators. -/
theorem plain_of_mem_rowsOf {basic blocked arrow modified improved : ClassValues} {row : Row}
    (h : row ∈ rowsOf basic blocked arrow modified improved) : Plain row.implementation_name := by
  have hall : ∀ name ∈ ["BasicBloomFilter", "BasicBloomFilter", "BlockedBloomFilter",
      "BlockedBloomFilter", "ArrowBloomFilter", "ArrowBloomFilter", "ArrowBloomFilter_avx2",
      "ModifiedArrowFilter", "ModifiedArrowFilter", "ModifiedArrowFilter_avx2", "ImprovedArrow",
      "ImprovedArrow", "ImprovedArrow_avx2"], Plain name := by decide
  exact hall _ (List.mem_map_of_mem (f := Row.implementation_name) h)

theorem RowsReported.plain {first : Nat} {rows : List Row} {results : List (BenchmarkResult D)}
    (h : RowsReported d perf w config first rows results)
    (hrows : ∀ row ∈ rows, Plain row.implementation_name) :
    ∀ result ∈ results, Plain result.implementation_name := by
  intro result hresult
  obtain ⟨i, hi, rfl⟩ := List.mem_iff_getElem.mp hresult
  obtain ⟨hlength, hreports⟩ := List.forall₂_iff_get.mp h
  -- The result at `i` carries the name of the row at `i`.
  have hrow := hreports i (by omega) hi
  have hname : results[i].implementation_name = _ := hrow.name_eq
  rw [hname]
  exact hrows _ (List.fst_mem_of_mem_zipIdx (List.get_mem _ _))

/-- Printing keeps the order of the rows. -/
theorem RowsReported.printed {first : Nat} {rows : List Row} {results : List (BenchmarkResult D)}
    (h : RowsReported d perf w config first rows results) (format : D → String) :
    RowsPrinted format d perf w config first rows
      (results.map (BenchmarkResult.print format)) := by
  rw [RowsPrinted, List.forall₂_map_right_iff]
  exact h.imp fun p result hreports => ⟨result, rfl, hreports⟩

/-- **The file**: for every accepted command line with a path that can be opened,
    a run that comes to its end has sent a text to the file from which the rows
    can be read back, provided that a number is printed without commas and line
    breaks. Nothing checks that the writes succeed. -/
theorem benchmark_file (hlimit : ∀ n, 2 ^ 60 ≤ n → ∃ e, reserve n = .error e)
    {args : List String} (hargs : parse_args args = .ok config)
    (hrows : reserve config.rows.toNat = .ok ())
    (hmixed : reserve (config.rows.toNat + config.rows.toNat) = .ok ())
    (hruns : reserve config.hot_runs.toNat = .ok ()) {fuel : Nat}
    (hfuel : 2 * config.rows.toNat < fuel) (tables : MaskTables) (s : BenchState)
    {format : D → String} (hformat : ∀ x, Plain (format x)) (hpath : config.csv_path ≠ "") :
    ∃ w, generate_workload reserve fuel config = .ok w ∧
      ∀ t, run_benchmarks d perf reserve tables w config s = .ok t →
        ∃ basic blocked arrow modified improved text lines,
          ClassesCompute tables w config.rows basic blocked arrow modified improved ∧
          write_results format true config t.1 = .ok (some text) ∧ read_csv text = some lines ∧
          RowsPrinted format d perf w config s.measured
            (rowsOf basic blocked arrow modified improved) lines := by
  obtain ⟨w, hready⟩ := exists_ready hlimit hargs hrows hmixed hruns hfuel
  refine ⟨w, hready.generated, fun t ht => ?_⟩
  obtain ⟨basic, blocked, arrow, modified, improved, hcompute, hreported, -⟩ :=
    hready.reported_of_run tables s ht
  have hplain := hreported.plain fun row => plain_of_mem_rowsOf
  have hfile : write_results format true config t.1 =
      .ok (some (csvHeader ++ String.join (t.1.map (csvLine format)))) := by
    unfold write_results
    rw [if_pos hpath]
    rfl
  exact ⟨basic, blocked, arrow, modified, improved, _, _, hcompute, hfile,
    read_csv_lines format hformat hplain, hreported.printed format⟩

end program

/-- `std::vector<std::uint64_t>::reserve` under the limit of the standard
    library. -/
def vectorReserve (n : Nat) : Comp Unit := if n < 2 ^ 60 then .ok () else .error .thrown

/-- Natural numbers for the doubles, with the quotients rounded down. -/
def Doubles.whole : Doubles Nat :=
  ⟨fun a b => a / b, fun c n => c / n, fun t n => t * 10 ^ 9 / n, fun a b => (a + b) / 2⟩

theorem vectorReserve_limit (n : Nat) (hn : 2 ^ 60 ≤ n) : ∃ e, vectorReserve n = .error e :=
  ⟨.thrown, if_neg (Nat.not_lt.mpr hn)⟩

theorem workload_one_row (path : String) :
    generate_workload vectorReserve 3 { rows := 1, negative_queries := 1, csv_path := path } =
      .ok ⟨#[murmurHash 1], #[murmurHash 0x100000000],
        #[murmurHash 1, murmurHash 0x100000000]⟩ := rfl

/-- Six rounds in each stage are enough for either hash. -/
theorem masks_one_row (h : Word) (hh : h ∈ #[murmurHash 1] ∨ h ∈ #[murmurHash 0x100000000]) :
    ∃ m, BlockedBloomFilter.mask h = .ok m := by
  rcases hh with hh | hh
  · have hm : BlockedBloomFilter.maskWithin 6 (murmurHash 1) = .ok 2226940542976 := rfl
    rw [Array.mem_singleton.mp hh]
    exact ⟨_, BlockedBloomFilter.mask_of_maskWithin hm⟩
  · have hm : BlockedBloomFilter.maskWithin 6 (murmurHash 0x100000000) = .ok 70403103932417 := rfl
    rw [Array.mem_singleton.mp hh]
    exact ⟨_, BlockedBloomFilter.mask_of_maskWithin hm⟩

/-- One row and ten runs: both hashes have masks in the blocked filter, so the run
    is complete. -/
theorem benchmark_rows_one_row : ∃ tables : MaskTables, tables.Generated ∧
    Returns (run_benchmarks .whole (fun i => (i, i)) vectorReserve tables
      ⟨#[murmurHash 1], #[murmurHash 0x100000000], #[murmurHash 1, murmurHash 0x100000000]⟩
      { rows := 1, negative_queries := 1 } ⟨0, 0⟩) fun t => t.2.measured = 650 := by
  obtain ⟨tables, hgenerated⟩ := MaskTables.exists_generated
  obtain ⟨w, -, hw, hiff, hrows⟩ := @benchmark_rows Nat _ .whole (fun i => (i, i)) vectorReserve
    { rows := 1, negative_queries := 1 } vectorReserve_limit _
    (show parse_args ["-nr", "1"] = .ok { rows := 1, negative_queries := 1 } from by decide) rfl rfl
    rfl _ (show 2 * 1 < 3 by decide) tables ⟨0, 0⟩
  obtain rfl := Except.ok.inj (hw.symm.trans (workload_one_row ""))
  simp only [← BlockedBloomFilter.mask_returns_iff] at hiff
  obtain ⟨t, ht⟩ := hiff.mpr masks_one_row
  obtain ⟨basic, blocked, arrow, modified, improved, -, -, hstate⟩ := hrows t ht
  exact ⟨tables, hgenerated, t, ht, congrArg BenchState.measured hstate⟩

theorem plain_repr (n : Nat) : Plain n.repr := by
  have hdigit : ∀ c ∈ n.repr.toList, c.isDigit = true := by
    intro c hc
    rw [Nat.toList_repr] at hc
    exact Nat.isDigit_of_mem_toDigits (by decide) (by decide) hc
  exact ⟨fun hcomma => absurd (hdigit _ hcomma) (by decide),
    fun hline => absurd (hdigit _ hline) (by decide)⟩

/-- The same run with a path. -/
theorem benchmark_file_one_row : ∃ tables t text lines, MaskTables.Generated tables ∧
    run_benchmarks .whole (fun i => (i, i)) vectorReserve tables
      ⟨#[murmurHash 1], #[murmurHash 0x100000000], #[murmurHash 1, murmurHash 0x100000000]⟩
      { rows := 1, negative_queries := 1, csv_path := "x.csv" } ⟨0, 0⟩ = .ok t ∧
    write_results Nat.repr true { rows := 1, negative_queries := 1, csv_path := "x.csv" } t.1 =
      .ok (some text) ∧
    read_csv text = some lines ∧ lines.length = 13 := by
  obtain ⟨tables, hgenerated⟩ := MaskTables.exists_generated
  have hargs : parse_args ["-nr", "1", "-f", "x.csv"] =
      .ok { rows := 1, negative_queries := 1, csv_path := "x.csv" } := by decide
  have hready : Ready vectorReserve 3 { rows := 1, negative_queries := 1, csv_path := "x.csv" }
      ⟨#[murmurHash 1], #[murmurHash 0x100000000], #[murmurHash 1, murmurHash 0x100000000]⟩ := by
    obtain ⟨w, hready⟩ := exists_ready vectorReserve_limit hargs rfl rfl rfl
      (show 2 * 1 < 3 by decide)
    obtain rfl := Except.ok.inj (hready.generated.symm.trans (workload_one_row "x.csv"))
    exact hready
  obtain ⟨w, hw, hfile⟩ := @benchmark_file Nat _ .whole (fun i => (i, i)) vectorReserve
    { rows := 1, negative_queries := 1, csv_path := "x.csv" } vectorReserve_limit _ hargs rfl rfl
    rfl _ (show 2 * 1 < 3 by decide) tables ⟨0, 0⟩ Nat.repr plain_repr (by decide)
  obtain rfl := Except.ok.inj (hw.symm.trans (workload_one_row "x.csv"))
  obtain ⟨t, ht, -⟩ := @Ready.reported_of_masks Nat _ .whole (fun i => (i, i)) _ _ _ _ hready
    tables ⟨0, 0⟩ masks_one_row
  obtain ⟨basic, blocked, arrow, modified, improved, text, lines, -, hwritten, hread, hprinted⟩ :=
    hfile t ht
  exact ⟨tables, t, text, lines, hgenerated, ht, hwritten, hread, hprinted.length_eq.symm⟩

end BloomFilters
