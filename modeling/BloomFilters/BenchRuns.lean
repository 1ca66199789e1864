import BloomFilters.Bench
import BloomFilters.Report

/-! # Benchmark runs

    The timed part of `src/bench.cpp`: warm-up and hot runs of building,
    inserting and probing, and the thirteen benchmarks of `main`. Doubles are
    an ordered type with the operations that the code uses. The performance
    counters are a stream of readings, one pair for each measured region;
    `benchmark_sink` and the number of readings taken are the state.

    * **Runs**: a run that always yields the same checksum toggles the sink,
      and the reported time is the median of the readings that it took.
    * **Benchmarks**: neither the insert mode nor the probe mode changes
      anything but the readings.
-/

open Checked BitArray Footprint

namespace BloomFilters

/-! ## State -/

/-- What the benchmark computes with doubles. -/
structure Doubles (D : Type) where
  /-- `static_cast<double>(false_positives) / static_cast<double>(count)` -/
  rate : Nat → Nat → D
  /-- `cycles_elapsed / static_cast<double>(count)` -/
  cycles_r : D → Nat → D
  /-- `perf.getDuration() * 1e9 / static_cast<double>(count)` -/
  ns_r : D → Nat → D
  /-- `(a + b) / 2.0` -/
  mid : D → D → D

/-- `perf.getCounter("cycle")` and `perf.getDuration()` after each measured
    region. -/
abbrev Readings (D : Type) := Nat → D × D

structure Timekeeper (D : Type) where
  cycles_per_tuple : D
  ns_per_tuple : D

structure BenchState where
  benchmark_sink : Word
  /-- Regions measured so far. -/
  measured : Nat

/-- The variables of the hot runs; `data` is what the runs share. -/
structure HotRuns (σ D : Type) where
  data : σ
  benchmark_sink : Word
  measured : Nat
  cycle_results : Array D
  ns_results : Array D

/-- `to_insert.back()` -/
def back (to_insert : Array Word) : Comp Word := load to_insert (to_insert.size - 1)

/-! ## Runs -/

section runs

variable {D : Type} [LinearOrder D] {σ : Type}

/-- A run whose reading is discarded; the value that `once` yields goes into the
    sink. -/
def warmupRun (once : σ → Comp (σ × Word)) (s : σ × Word) : Comp (σ × Word) := do
  let (data, result) ← once s.1
  return (data, s.2 ^^^ result)

/-- A measured run; `cycles` and `ns` convert the reading. -/
def hotRun (perf : Readings D) (cycles ns : D → D) (once : σ → Comp (σ × Word))
    (hot : HotRuns σ D) : Comp (HotRuns σ D) := do
  let (data, result) ← once hot.data
  let (cycles_elapsed, duration) := perf hot.measured
  return {
    data := data
    benchmark_sink := hot.benchmark_sink ^^^ result
    measured := hot.measured + 1
    cycle_results := hot.cycle_results.push (cycles cycles_elapsed)
    ns_results := hot.ns_results.push (ns duration) }

/-- What the three benchmark functions have in common. Both vectors reserve room
    for the hot runs. -/
def benchmark (d : Doubles D) (perf : Readings D) (reserve : Nat → Comp Unit) (cycles ns : D → D)
    (once : σ → Comp (σ × Word)) (warmup_runs hot_runs : Nat) (data : σ) (s : BenchState) :
    Comp (Timekeeper D × BenchState) := do
  let (data, benchmark_sink) ←
    forLoop 0 warmup_runs 1 (fun _ => warmupRun once) (data, s.benchmark_sink)
  reserve hot_runs
  reserve hot_runs
  let hot ← forLoop 0 hot_runs 1 (fun _ => hotRun perf cycles ns once)
    { data := data, benchmark_sink := benchmark_sink, measured := s.measured,
      cycle_results := #[], ns_results := #[] }
  let cycles_per_tuple ← median d.mid hot.cycle_results
  let ns_per_tuple ← median d.mid hot.ns_results
  return (⟨cycles_per_tuple, ns_per_tuple⟩, ⟨hot.benchmark_sink, hot.measured⟩)

variable {Impl : Type} [BloomFilter Impl]

/-- `for (h : to_insert) filter->insert(h);` or one call of `insertBatch`. -/
def insertAll (insert_mode : Mode) (filter : Impl) (to_insert : Array Word) : Comp Impl :=
  match insert_mode with
  | .scalar => insertLoop insert to_insert 0 filter
  | .batch => insertBatch filter to_insert

/-- The loop over `contains` on a cleared buffer, or one call of
    `containsBatch`. -/
def probeAll (probe_mode : Mode) (filter : Impl) (queries : Array Word)
    (probe_result : Array Byte) : Comp (Array Byte) :=
  match probe_mode with
  | .scalar => BENCH_scalarProbe filter queries probe_result
  | .batch => containsBatch filter queries probe_result

/-- The readings of `BENCH_buildFilters` are not divided. -/
def BENCH_buildFilters (d : Doubles D) (perf : Readings D) (reserve : Nat → Comp Unit)
    (filter_obj : Comp Impl) (to_insert : Array Word) (warmup_runs hot_runs : Nat)
    (s : BenchState) : Comp (Timekeeper D × BenchState) :=
  benchmark d perf reserve (fun cycles_elapsed => cycles_elapsed) (fun s_r => s_r) (fun _ => do
    let filter ← filter_obj
    let reported ← contains filter (← back to_insert)
    return ((), BitVec.ofNat 64 reported.toNat)) warmup_runs hot_runs () s

def BENCH_insertFilters (d : Doubles D) (perf : Readings D) (reserve : Nat → Comp Unit)
    (filter_obj : Comp Impl) (to_insert : Array Word) (insert_mode : Mode)
    (warmup_runs hot_runs : Nat) (s : BenchState) : Comp (Timekeeper D × BenchState) :=
  benchmark d perf reserve (d.cycles_r · to_insert.size) (d.ns_r · to_insert.size) (fun _ => do
    let filter ← filter_obj
    let filter ← insertAll insert_mode filter to_insert
    let reported ← contains filter (← back to_insert)
    return ((), BitVec.ofNat 64 reported.toNat)) warmup_runs hot_runs () s

/-- The runs share the buffer. -/
def BENCH_probeFilters (d : Doubles D) (perf : Readings D) (reserve : Nat → Comp Unit)
    (filter : Impl) (queries : Array Word) (probe_mode : Mode) (warmup_runs hot_runs : Nat)
    (s : BenchState) : Comp (Timekeeper D × BenchState) :=
  benchmark d perf reserve (d.cycles_r · queries.size) (d.ns_r · queries.size)
    (fun probe_result => do
      let probe_result ← probeAll probe_mode filter queries probe_result
      return (probe_result, result_checksum probe_result)) warmup_runs hot_runs
    (Array.replicate (result_bytes queries.size) 0) s

def run_allBenchmark (d : Doubles D) (perf : Readings D) (reserve : Nat → Comp Unit)
    (name : String) (filter_obj : Comp Impl) (insert_mode probe_mode : Mode) (w : Workload)
    (config : Config) (s : BenchState) : Comp (BenchmarkResult D × BenchState) := do
  let warmup_runs := config.warmup_runs.toNat
  let hot_runs := config.hot_runs.toNat
  let (build_res, s) ←
    BENCH_buildFilters d perf reserve filter_obj w.to_insert warmup_runs hot_runs s
  let (insert_res, s) ←
    BENCH_insertFilters d perf reserve filter_obj w.to_insert insert_mode warmup_runs hot_runs s
  let filter ← filter_obj
  let m ← measure_fp filter w.to_insert w.not_present
  let fp_rate := d.rate m.false_positives m.queries
  let (hit_probe, s) ←
    BENCH_probeFilters d perf reserve m.filter w.to_insert probe_mode warmup_runs hot_runs s
  let (miss_probe, s) ←
    BENCH_probeFilters d perf reserve m.filter w.not_present probe_mode warmup_runs hot_runs s
  let (mixed_probe, s) ←
    BENCH_probeFilters d perf reserve m.filter w.mixed probe_mode warmup_runs hot_runs s
  return ({
    implementation_name := name
    insert_mode := insert_mode
    probe_mode := probe_mode
    fp_rate := fp_rate
    build_cycles := build_res.cycles_per_tuple
    insert_cycles_per_tuple := insert_res.cycles_per_tuple
    probe_hit_cycles_per_tuple := hit_probe.cycles_per_tuple
    probe_miss_cycles_per_tuple := miss_probe.cycles_per_tuple
    probe_mixed_cycles_per_tuple := mixed_probe.cycles_per_tuple
    build_s := build_res.ns_per_tuple
    insert_ns_per_tuple := insert_res.ns_per_tuple
    probe_hit_ns_per_tuple := hit_probe.ns_per_tuple
    probe_miss_ns_per_tuple := miss_probe.ns_per_tuple
    probe_mixed_ns_per_tuple := mixed_probe.ns_per_tuple }, s)

end runs

/-! ## What runs leave behind -/

/-- The sink after `n` runs that yield `r` each. -/
def toggled (n : Nat) (r benchmark_sink : Word) : Word :=
  if n % 2 = 1 then benchmark_sink ^^^ r else benchmark_sink

theorem toggled_succ (n : Nat) (r benchmark_sink : Word) :
    toggled (n + 1) r benchmark_sink = toggled n r benchmark_sink ^^^ r := by
  unfold toggled
  by_cases hodd : n % 2 = 1
  · have heven : ¬ (n + 1) % 2 = 1 := by omega
    rw [if_pos hodd, if_neg heven, BitVec.xor_assoc, BitVec.xor_self, BitVec.xor_zero]
  · have hnext : (n + 1) % 2 = 1 := by omega
    rw [if_neg hodd, if_pos hnext]

/-- Two benchmarks with equally many runs toggle the sink as one. -/
theorem toggled_toggled (n : Nat) (r r' benchmark_sink : Word) :
    toggled n r' (toggled n r benchmark_sink) = toggled n (r ^^^ r') benchmark_sink := by
  unfold toggled
  by_cases hodd : n % 2 = 1
  · rw [if_pos hodd, if_pos hodd, if_pos hodd, BitVec.xor_assoc]
  · rw [if_neg hodd, if_neg hodd, if_neg hodd]

section runs

variable {D : Type} [LinearOrder D] {σ : Type} {d : Doubles D} {perf : Readings D}
         {reserve : Nat → Comp Unit}

/-- The readings of `n` hot runs, converted. -/
def readings (perf : Readings D) (convert : D × D → D) (first n : Nat) : Array D :=
  (Array.range n).map fun i => convert (perf (first + i))

omit [LinearOrder D] in
theorem readings_succ (convert : D × D → D) (first n : Nat) :
    readings perf convert first (n + 1) =
      (readings perf convert first n).push (convert (perf (first + n))) := by
  simp [readings, Array.range_succ]

/-- A number of hot runs that has a median and fits into its vector. -/
structure RunsFit (reserve : Nat → Comp Unit) (hot_runs : Nat) : Prop where
  pos : 0 < hot_runs
  lt : hot_runs < 2 ^ 64
  reserved : reserve hot_runs = .ok ()

/-- The reported times are medians over `n` readings. -/
structure TimedBy (d : Doubles D) (perf : Readings D) (cycles ns : D → D) (first n : Nat)
    (cycles_per_tuple ns_per_tuple : D) : Prop where
  cycles_eq : median d.mid (readings perf (fun r => cycles r.1) first n) = .ok cycles_per_tuple
  ns_eq : median d.mid (readings perf (fun r => ns r.2) first n) = .ok ns_per_tuple

section once

variable {cycles ns : D → D} {once : σ → Comp (σ × Word)} {I : σ → Prop} {r : Word}

omit [LinearOrder D] in
theorem readings_zero (convert : D × D → D) (first : Nat) :
    readings perf convert first 0 = #[] := by
  simp [readings]

/-- The warm-up runs toggle the sink and measure nothing. -/
theorem warmupRuns_spec (honce : ∀ data, I data → Returns (once data) fun p => I p.1 ∧ p.2 = r)
    {data : σ} (hdata : I data) (warmup_runs : Nat) (benchmark_sink : Word) :
    Returns (forLoop 0 warmup_runs 1 (fun _ => warmupRun once) (data, benchmark_sink)) fun t =>
      I t.1 ∧ t.2 = toggled warmup_runs r benchmark_sink := by
  apply forLoop_returns (fun i (t : σ × Word) => I t.1 ∧ t.2 = toggled i r benchmark_sink)
    Nat.one_pos (Nat.zero_le _) (Nat.one_dvd _) ⟨hdata, rfl⟩
  intro i t _ _ _ ht
  apply (honce t.1 ht.1).bind
  intro p hp
  refine returns_ok ⟨hp.1, ?_⟩
  rw [hp.2, ht.2, toggled_succ]

/-- The hot runs after `w` toggles and before any reading from `first` on. -/
structure HotState (I : σ → Prop) (perf : Readings D) (cycles ns : D → D) (r sink : Word)
    (w first i : Nat) (hot : HotRuns σ D) : Prop where
  data : I hot.data
  sink_eq : hot.benchmark_sink = toggled (w + i) r sink
  measured_eq : hot.measured = first + i
  cycles_eq : hot.cycle_results = readings perf (fun r => cycles r.1) first i
  ns_eq : hot.ns_results = readings perf (fun r => ns r.2) first i

omit [LinearOrder D] in
/-- Each hot run toggles the sink once more and takes one reading. -/
theorem HotState.next (honce : ∀ data, I data → Returns (once data) fun p => I p.1 ∧ p.2 = r)
    {sink : Word} {w first i : Nat} {hot : HotRuns σ D}
    (h : HotState I perf cycles ns r sink w first i hot) :
    Returns (hotRun perf cycles ns once hot)
      (HotState I perf cycles ns r sink w first (i + 1)) := by
  apply (honce hot.data h.data).bind
  intro p hp
  refine returns_ok ⟨hp.1, ?_, ?_, ?_, ?_⟩
  · rw [hp.2, h.sink_eq, ← toggled_succ, Nat.add_assoc]
  · rw [h.measured_eq, Nat.add_assoc]
  · rw [h.cycles_eq, h.measured_eq, readings_succ]
  · rw [h.ns_eq, h.measured_eq, readings_succ]

/-- **Runs**: `once` keeps an invariant of its data and always yields `r`. -/
theorem benchmark_spec (honce : ∀ data, I data → Returns (once data) fun p => I p.1 ∧ p.2 = r)
    {data : σ} (hdata : I data) (warmup_runs : Nat) {hot_runs : Nat}
    (hruns : RunsFit reserve hot_runs) (s : BenchState) :
    Returns (benchmark d perf reserve cycles ns once warmup_runs hot_runs data s) fun res =>
      res.2 = ⟨toggled (warmup_runs + hot_runs) r s.benchmark_sink, s.measured + hot_runs⟩ ∧
      TimedBy d perf cycles ns s.measured hot_runs res.1.cycles_per_tuple
        res.1.ns_per_tuple := by
  unfold benchmark
  apply (warmupRuns_spec honce hdata warmup_runs s.benchmark_sink).bind
  intro t ht
  dsimp only
  have hstart : HotState I perf cycles ns r s.benchmark_sink warmup_runs s.measured 0
      { data := t.1, benchmark_sink := t.2, measured := s.measured, cycle_results := #[],
        ns_results := #[] } :=
    ⟨ht.1, ht.2, rfl, (readings_zero _ _).symm, (readings_zero _ _).symm⟩
  have hhot := forLoop_returns (HotState I perf cycles ns r s.benchmark_sink warmup_runs s.measured)
    Nat.one_pos (Nat.zero_le hot_runs) (Nat.one_dvd _) hstart
    fun i hot _ _ _ h => h.next honce
  rw [hruns.reserved, ok_bind, ok_bind]
  apply hhot.bind
  intro hot h
  have hcycles : hot.cycle_results.size = hot_runs := by simp [h.cycles_eq, readings]
  have hns : hot.ns_results.size = hot_runs := by simp [h.ns_eq, readings]
  obtain ⟨c, hc⟩ := exists_median d.mid (hcycles.symm ▸ hruns.pos) (hcycles.symm ▸ hruns.lt)
  obtain ⟨n, hn⟩ := exists_median d.mid (hns.symm ▸ hruns.pos) (hns.symm ▸ hruns.lt)
  rw [hc, ok_bind, hn, ok_bind]
  rw [h.cycles_eq] at hc
  rw [h.ns_eq] at hn
  exact returns_ok ⟨by rw [h.sink_eq, h.measured_eq], hc, hn⟩

end once

end runs

/-! ## The three benchmarks -/

section lawful

variable {D : Type} [LinearOrder D] {d : Doubles D} {perf : Readings D}
         {reserve : Nat → Comp Unit} {Impl : Type} [BloomFilter Impl] [LawfulBloomFilter Impl]
         {f : Impl}

open LawfulBloomFilter

omit [LawfulBloomFilter Impl] in
theorem back_ok {to_insert : Array Word} (hpos : 0 < to_insert.size) :
    back to_insert = .ok to_insert[to_insert.size - 1] :=
  load_ok (by omega)

/-- Both modes insert the same hashes one after the other. -/
theorem insertAll_eq (insert_mode : Mode) (f : Impl) (to_insert : Array Word) :
    insertAll insert_mode f to_insert = insertBatch f to_insert := by
  cases insert_mode with
  | scalar =>
    show insertLoop insert to_insert 0 f = _
    rw [insertLoop_eq_foldlM, insertBatch_eq]
  | batch => rfl

omit [LawfulBloomFilter Impl] in
/-- Building toggles the sink by the answer of the new filter to the last row. -/
theorem BENCH_buildFilters_spec {to_insert : Array Word} {built : Bool}
    (hbuilt : (back to_insert >>= contains f) = .ok built) (warmup_runs : Nat) {hot_runs : Nat}
    (hruns : RunsFit reserve hot_runs) (s : BenchState) :
    Returns (BENCH_buildFilters d perf reserve (.ok f) to_insert warmup_runs hot_runs s) fun res =>
      res.2 = ⟨toggled (warmup_runs + hot_runs) (BitVec.ofNat 64 built.toNat) s.benchmark_sink,
        s.measured + hot_runs⟩ ∧
      TimedBy d perf (fun c => c) (fun t => t) s.measured hot_runs res.1.cycles_per_tuple
        res.1.ns_per_tuple := by
  obtain ⟨last, hlast, hcontains⟩ := exists_of_bind_ok hbuilt
  apply benchmark_spec (I := fun _ => True) _ trivial warmup_runs hruns s
  intro _ _
  rw [ok_bind, hlast, ok_bind, hcontains, ok_bind]
  exact returns_ok ⟨trivial, rfl⟩

/-- Inserting toggles it by the answer after the insertions, in either mode. -/
theorem BENCH_insertFilters_spec {to_insert : Array Word} {filter : Impl} {reported : Bool}
    (hfilter : insertBatch f to_insert = .ok filter)
    (hreported : (back to_insert >>= contains filter) = .ok reported) (insert_mode : Mode)
    (warmup_runs : Nat) {hot_runs : Nat} (hruns : RunsFit reserve hot_runs) (s : BenchState) :
    Returns (BENCH_insertFilters d perf reserve (.ok f) to_insert insert_mode warmup_runs
      hot_runs s) fun res =>
      res.2 = ⟨toggled (warmup_runs + hot_runs) (BitVec.ofNat 64 reported.toNat) s.benchmark_sink,
        s.measured + hot_runs⟩ ∧
      TimedBy d perf (d.cycles_r · to_insert.size) (d.ns_r · to_insert.size) s.measured hot_runs
        res.1.cycles_per_tuple res.1.ns_per_tuple := by
  obtain ⟨last, hlast, hcontains⟩ := exists_of_bind_ok hreported
  apply benchmark_spec (I := fun _ => True) _ trivial warmup_runs hruns s
  intro _ _
  rw [ok_bind, insertAll_eq, hfilter, ok_bind, hlast, ok_bind, hcontains, ok_bind]
  exact returns_ok ⟨trivial, rfl⟩

/-- The buffer of a probe is overwritten as a whole. -/
theorem packBits_of_size {p : Nat → Bool} {n : Nat} {result result' : Array Byte}
    (h : result.size = n) (h' : result'.size = n) : packBits p n result = packBits p n result' := by
  apply Array.ext (by simp [h, h'])
  intro i hi _
  have hlt : i < n := by simpa [h] using hi
  simp [hlt]

/-- Both modes give the same bytes. -/
theorem probeAll_eq (hvalid : Valid (shape f)) (probe_mode : Mode) {queries : Array Word}
    (hmask : ∀ h ∈ queries, HasMask Impl h) (hcount : queries.size + 7 < 2 ^ 64)
    {buffer : Array Byte} (hbuffer : buffer.size = result_bytes queries.size) :
    probeAll probe_mode f queries buffer = containsBatch f queries buffer := by
  cases probe_mode with
  | scalar =>
    have hexact := exactBatchProbe hvalid fun g (hg : g = f) => ⟨by rw [hg], by rw [hg]⟩
    exact (hexact.scalar_loop queries buffer hmask hcount hbuffer).symm
  | batch => rfl

/-- **Probes**: every run, in either mode, leaves the buffer of one batch
    probe. -/
theorem BENCH_probeFilters_spec (hvalid : Valid (shape f)) {queries : Array Word}
    (hmask : ∀ h ∈ queries, HasMask Impl h) (hcount : queries.size + 7 < 2 ^ 64)
    (probe_mode : Mode) (warmup_runs : Nat) {hot_runs : Nat} (hruns : RunsFit reserve hot_runs)
    {result : Array Byte} (hresult : containsBatch f queries
      (Array.replicate (result_bytes queries.size) 0) = .ok result) (s : BenchState) :
    Returns (BENCH_probeFilters d perf reserve f queries probe_mode warmup_runs hot_runs s)
      fun res =>
      res.2 = ⟨toggled (warmup_runs + hot_runs) (result_checksum result) s.benchmark_sink,
        s.measured + hot_runs⟩ ∧
      TimedBy d perf (d.cycles_r · queries.size) (d.ns_r · queries.size) s.measured hot_runs
        res.1.cycles_per_tuple res.1.ns_per_tuple := by
  obtain ⟨p, hp⟩ := answers_of_lawful hvalid hmask
  rw [containsBatch_eq f queries _ p hp hcount (by simp)] at hresult
  obtain rfl := Except.ok.inj hresult
  -- The buffer keeps its size, and nothing of it survives a run.
  apply benchmark_spec (I := fun buffer : Array Byte => buffer.size = result_bytes queries.size)
    _ (by simp) warmup_runs hruns s
  intro buffer hbuffer
  have hbatch := containsBatch_eq f queries buffer p hp hcount (by omega)
  rw [probeAll_eq hvalid probe_mode hmask hcount hbuffer, hbatch, ok_bind]
  refine returns_ok ⟨by simpa using hbuffer, ?_⟩
  exact congrArg result_checksum (packBits_of_size hbuffer (by simp))

/-- What one or more insertions of the same hashes leave behind. -/
structure Inserted (f : Impl) (hashes : Array Word) (g : Impl) : Prop where
  shape_eq : shape g = shape f
  bits_eq : bitSet (table g) =
    bitSet (table f) ∪ occupied (footprint (shape f)) {h | h ∈ hashes.toList}

/-- Inserted hashes are reported. -/
theorem Inserted.contains (hvalid : Valid (shape f)) {hashes : Array Word} {g : Impl}
    (hg : Inserted f hashes g) {h : Word} (hmask : HasMask Impl h) (hmem : h ∈ hashes) :
    contains g h = .ok true := by
  obtain ⟨b, hb, hiff⟩ := contains_spec g h (hg.shape_eq ▸ hvalid) hmask
  have hin : h ∈ {h | h ∈ hashes.toList} := Array.mem_toList_iff.mpr hmem
  have hreported : Reports (footprint (shape f))
      (bitSet (table f) ∪ occupied (footprint (shape f)) {h | h ∈ hashes.toList}) h :=
    (reports_of_mem hin).mono Set.subset_union_right
  rw [← hg.bits_eq, ← hg.shape_eq] at hreported
  rw [hb, hiff.mpr hreported]

/-- All filters that hold the same hashes give the same answers. -/
theorem Inserted.contains_congr (hvalid : Valid (shape f)) {hashes : Array Word} {g g' : Impl}
    (hg : Inserted f hashes g) (hg' : Inserted f hashes g') {h : Word} (hmask : HasMask Impl h) :
    BloomFilters.contains g h = BloomFilters.contains g' h := by
  have hshape : shape g = shape g' := hg.shape_eq.trans hg'.shape_eq.symm
  exact BloomFilters.contains_congr (hg.shape_eq ▸ hvalid) hshape
    (table_eq_of_bitSet hshape (hg.bits_eq.trans hg'.bits_eq.symm)) hmask

/-- Inserting a batch returns, and then holds it. -/
theorem insertBatch_inserted (hvalid : Valid (shape f)) {hashes : Array Word}
    (hmask : ∀ h ∈ hashes, HasMask Impl h) :
    Returns (insertBatch f hashes) (Inserted f hashes) := by
  rw [insertBatch_eq]
  apply (foldlM_insert_spec f hashes.toList hvalid fun h hh =>
    hmask h (Array.mem_toList_iff.mp hh)).mono
  rintro g ⟨hshape, hbits⟩
  exact ⟨hshape, hbits⟩

/-- What one run of each benchmark computes. -/
structure RunValues (f : Impl) (w : Workload) (filter : Impl) (built : Bool)
    (hit miss mixed : Array Byte) : Prop where
  built_eq : (back w.to_insert >>= contains f) = .ok built
  filter_eq : insertBatch f w.to_insert = .ok filter
  last_inserted : (back w.to_insert >>= contains filter) = .ok true
  hit_eq : containsBatch filter w.to_insert
    (Array.replicate (result_bytes w.to_insert.size) 0) = .ok hit
  miss_eq : containsBatch filter w.not_present
    (Array.replicate (result_bytes w.not_present.size) 0) = .ok miss
  mixed_eq : containsBatch filter w.mixed
    (Array.replicate (result_bytes w.mixed.size) 0) = .ok mixed

/-- What the rows of one filter have in common. -/
structure ClassValues where
  false_positives : Nat
  /-- What a run of each of the five benchmarks puts into the sink. -/
  checksum : Word

/-- The values that come out of benchmarks of `f`. -/
def Computes (f : Impl) (w : Workload) (v : ClassValues) : Prop :=
  ∃ filter built hit miss mixed, RunValues f w filter built hit miss mixed ∧
    v.false_positives = {h | h ∈ w.not_present ∧ contains filter h = .ok true}.ncard ∧
    v.checksum = BitVec.ofNat 64 built.toNat ^^^ 1 ^^^ result_checksum hit ^^^
      result_checksum miss ^^^ result_checksum mixed

/-- A row of the output, as far as it does not depend on the readings. -/
structure Row where
  implementation_name : String
  insert_mode : Mode
  probe_mode : Mode
  values : ClassValues

/-- A result whose readings are those from `first` on. -/
structure Row.Reports (d : Doubles D) (perf : Readings D) (w : Workload) (config : Config)
    (row : Row) (first : Nat) (res : BenchmarkResult D) : Prop where
  name_eq : res.implementation_name = row.implementation_name
  insert_mode_eq : res.insert_mode = row.insert_mode
  probe_mode_eq : res.probe_mode = row.probe_mode
  fp_rate_eq : res.fp_rate = d.rate row.values.false_positives w.not_present.size
  build : TimedBy d perf (fun c => c) (fun t => t) first config.hot_runs.toNat
    res.build_cycles res.build_s
  insert : TimedBy d perf (d.cycles_r · w.to_insert.size) (d.ns_r · w.to_insert.size)
    (first + config.hot_runs.toNat) config.hot_runs.toNat
    res.insert_cycles_per_tuple res.insert_ns_per_tuple
  probe_hit : TimedBy d perf (d.cycles_r · w.to_insert.size) (d.ns_r · w.to_insert.size)
    (first + 2 * config.hot_runs.toNat) config.hot_runs.toNat
    res.probe_hit_cycles_per_tuple res.probe_hit_ns_per_tuple
  probe_miss : TimedBy d perf (d.cycles_r · w.not_present.size) (d.ns_r · w.not_present.size)
    (first + 3 * config.hot_runs.toNat) config.hot_runs.toNat
    res.probe_miss_cycles_per_tuple res.probe_miss_ns_per_tuple
  probe_mixed : TimedBy d perf (d.cycles_r · w.mixed.size) (d.ns_r · w.mixed.size)
    (first + 4 * config.hot_runs.toNat) config.hot_runs.toNat
    res.probe_mixed_cycles_per_tuple res.probe_mixed_ns_per_tuple

/-- The state behind a row. -/
def Row.after (row : Row) (config : Config) (s : BenchState) : BenchState where
  benchmark_sink := toggled (config.warmup_runs.toNat + config.hot_runs.toNat)
    row.values.checksum s.benchmark_sink
  measured := s.measured + 5 * config.hot_runs.toNat

omit [BloomFilter Impl] [LawfulBloomFilter Impl] in
/-- The mixed vector has no elements of its own. -/
theorem mem_of_mem_mixed {v1 v2 mixed : Array Word} (h : Alternates v1 v2 mixed)
    (hsize : v1.size = v2.size) {x : Word} (hx : x ∈ mixed) : x ∈ v1 ∨ x ∈ v2 := by
  obtain ⟨j, hj, rfl⟩ := Array.mem_iff_getElem.mp hx
  have hlt : j < v1.size + v2.size := h.size_eq ▸ hj
  rcases Nat.even_or_odd' j with ⟨i, rfl | rfl⟩
  · have heven := h.even i (by omega)
    rw [Array.getElem?_eq_getElem hj, Array.getElem?_eq_getElem (by omega)] at heven
    exact .inl (Option.some.inj heven ▸ Array.getElem_mem _)
  · have hodd := h.odd i (by omega)
    rw [Array.getElem?_eq_getElem hj, Array.getElem?_eq_getElem (by omega)] at hodd
    exact .inr (Option.some.inj hodd ▸ Array.getElem_mem _)

/-- A filter that can answer all hashes of a sound workload. -/
structure Benchable (f : Impl) (w : Workload) (rows : Nat) : Prop where
  valid : Valid (shape f)
  sound : w.Sound rows
  rows_pos : 1 ≤ rows
  rows_lt : rows < 2 ^ 60
  to_insert : ∀ h ∈ w.to_insert, HasMask Impl h
  not_present : ∀ h ∈ w.not_present, HasMask Impl h

namespace Benchable

variable {w : Workload} {rows : Nat}

theorem mixed (h : Benchable f w rows) : ∀ x ∈ w.mixed, HasMask Impl x := by
  intro x hx
  have hsize := h.sound.to_insert_size.trans h.sound.not_present_size.symm
  rcases mem_of_mem_mixed h.sound.mixed hsize hx with hins | habs
  · exact h.to_insert x hins
  · exact h.not_present x habs

theorem size_mixed (h : Benchable f w rows) : w.mixed.size = rows + rows := by
  rw [h.sound.mixed.size_eq, h.sound.to_insert_size, h.sound.not_present_size]

/-- What the insertions leave behind can be benchmarked as well. -/
theorem of_inserted (h : Benchable f w rows) {filter : Impl}
    (hfilter : Inserted f w.to_insert filter) : Benchable filter w rows :=
  { h with valid := hfilter.shape_eq ▸ h.valid }

/-- Each of the three batches is answered. -/
theorem probe_all (h : Benchable f w rows) {queries : Array Word}
    (hmask : ∀ x ∈ queries, HasMask Impl x) (hcount : queries.size + 7 < 2 ^ 64) :
    ∃ r, containsBatch f queries (Array.replicate (result_bytes queries.size) 0) = .ok r := by
  obtain ⟨p, hp⟩ := answers_of_lawful h.valid hmask
  exact ⟨_, containsBatch_eq f queries _ p hp hcount (by simp)⟩

/-- Benchmarks compute something. -/
theorem exists_computes (h : Benchable f w rows) : ∃ v, Computes f w v := by
  have hsizes := h.sound.to_insert_size
  have hsizes' := h.sound.not_present_size
  have hmixed := h.size_mixed
  have hpos := h.rows_pos
  have hlt := h.rows_lt
  have hend : w.to_insert.size - 1 < w.to_insert.size := by omega
  have hback : back w.to_insert = .ok w.to_insert[w.to_insert.size - 1] := back_ok (by omega)
  have hlast : w.to_insert[w.to_insert.size - 1] ∈ w.to_insert := Array.getElem_mem hend
  obtain ⟨built, hbuilt, -⟩ := contains_spec f _ h.valid (h.to_insert _ hlast)
  obtain ⟨filter, hfilter, hinserted⟩ := insertBatch_inserted h.valid h.to_insert
  have hfull := h.of_inserted hinserted
  have hreported := hinserted.contains h.valid (h.to_insert _ hlast) hlast
  obtain ⟨hit, hhit⟩ := hfull.probe_all h.to_insert (by omega)
  obtain ⟨miss, hmiss⟩ := hfull.probe_all h.not_present (by omega)
  obtain ⟨mixed, hmixed⟩ := hfull.probe_all h.mixed (by omega)
  have hv : RunValues f w filter built hit miss mixed := {
    built_eq := by rw [hback, ok_bind, hbuilt]
    filter_eq := hfilter
    last_inserted := by rw [hback, ok_bind, hreported]
    hit_eq := hhit
    miss_eq := hmiss
    mixed_eq := hmixed }
  exact ⟨⟨_, _⟩, filter, built, hit, miss, mixed, hv, rfl, rfl⟩

/-- Equal bits stay equal, whatever the mode in which they are inserted. -/
theorem inserted_congr {g : Impl} (h : Benchable f w rows) (hshape : shape f = shape g)
    (htable : table f = table g) {filter : Impl}
    (hfilter : insertBatch f w.to_insert = .ok filter) :
    ∃ filter', insertBatch g w.to_insert = .ok filter' ∧ Valid (shape filter) ∧
      shape filter = shape filter' ∧ table filter = table filter' := by
  obtain ⟨f', hf', hinserted⟩ := insertBatch_inserted h.valid h.to_insert
  obtain ⟨g', hg', hinserted'⟩ := insertBatch_inserted (hshape ▸ h.valid) h.to_insert
  obtain rfl := Except.ok.inj (hfilter.symm.trans hf')
  have hshape' : shape filter = shape g' := by
    rw [hinserted.shape_eq, hinserted'.shape_eq, hshape]
  refine ⟨g', hg', (h.of_inserted hinserted).valid, hshape', ?_⟩
  apply table_eq_of_bitSet hshape'
  rw [hinserted.bits_eq, hinserted'.bits_eq, hshape, htable]

/-- The same bits in another mode compute the same. -/
theorem computes_congr {g : Impl} (h : Benchable f w rows) (hshape : shape f = shape g)
    (htable : table f = table g) {v : ClassValues} (hcomputes : Computes f w v) :
    Computes g w v := by
  obtain ⟨filter, built, hit, miss, mixed, hv, hpositives, hchecksum⟩ := hcomputes
  obtain ⟨g', hg', hvalid, hshape', htable'⟩ := h.inserted_congr hshape htable hv.filter_eq
  have hsizes := h.sound.to_insert_size
  have hsizes' := h.sound.not_present_size
  have hmixed := h.size_mixed
  have hpos := h.rows_pos
  have hlt := h.rows_lt
  have hend : w.to_insert.size - 1 < w.to_insert.size := by omega
  have hback : back w.to_insert = .ok w.to_insert[w.to_insert.size - 1] := back_ok (by omega)
  have hlast := h.to_insert _ (Array.getElem_mem hend)
  have hcontains : (back w.to_insert >>= contains f) = (back w.to_insert >>= contains g) := by
    rw [hback, ok_bind, ok_bind, contains_congr h.valid hshape htable hlast]
  have hcontains' : (back w.to_insert >>= contains filter) =
      (back w.to_insert >>= contains g') := by
    rw [hback, ok_bind, ok_bind, contains_congr hvalid hshape' htable' hlast]
  have hbatch : ∀ queries : Array Word, (∀ x ∈ queries, HasMask Impl x) →
      queries.size + 7 < 2 ^ 64 →
      containsBatch filter queries (Array.replicate (result_bytes queries.size) 0) =
        containsBatch g' queries (Array.replicate (result_bytes queries.size) 0) := by
    intro queries hqueries hcount
    have hexact := exactBatchProbe hvalid fun k (hk : k = g') =>
      show shape filter = shape k ∧ table filter = table k from ⟨hk ▸ hshape', hk ▸ htable'⟩
    exact hexact.mode_irrelevant g' queries _ rfl hqueries hcount
      (by rw [Array.size_replicate, result_bytes_eq hcount])
  refine ⟨g', built, hit, miss, mixed, ?_, ?_, hchecksum⟩
  · exact {
      built_eq := hcontains ▸ hv.built_eq
      filter_eq := hg'
      last_inserted := hcontains' ▸ hv.last_inserted
      hit_eq := hbatch _ h.to_insert (by omega) ▸ hv.hit_eq
      miss_eq := hbatch _ h.not_present (by omega) ▸ hv.miss_eq
      mixed_eq := hbatch _ h.mixed (by omega) ▸ hv.mixed_eq }
  · have hset : {x | x ∈ w.not_present ∧ contains filter x = .ok true} =
        {x | x ∈ w.not_present ∧ contains g' x = .ok true} := by
      ext x
      refine and_congr_right fun hx => ?_
      rw [contains_congr hvalid hshape' htable' (h.not_present x hx)]
    rw [hpositives, hset]

/-- **Benchmarks**: what `run_allBenchmark` returns, for every name, mode and
    stream of readings. -/
theorem run_allBenchmark_spec (h : Benchable f w rows) {config : Config}
    (hruns : RunsFit reserve config.hot_runs.toNat) {v : ClassValues} (hcomputes : Computes f w v)
    (name : String) (insert_mode probe_mode : Mode) (s : BenchState) :
    Returns (run_allBenchmark d perf reserve name (.ok f) insert_mode probe_mode w config s)
      fun res => (Row.mk name insert_mode probe_mode v).Reports d perf w config s.measured res.1 ∧
        res.2 = (Row.mk name insert_mode probe_mode v).after config s := by
  obtain ⟨filter, built, hit, miss, mixed, hv, hpositives, hchecksum⟩ := hcomputes
  have hsizes := h.sound.to_insert_size
  have hsizes' := h.sound.not_present_size
  have hmixed := h.size_mixed
  have hrows := h.rows_lt
  obtain ⟨filter', hfilter', hinserted⟩ := insertBatch_inserted h.valid h.to_insert
  rw [hv.filter_eq] at hfilter'
  obtain rfl := Except.ok.inj hfilter'
  have hvalid := (h.of_inserted hinserted).valid
  unfold run_allBenchmark
  apply (BENCH_buildFilters_spec hv.built_eq config.warmup_runs.toNat hruns s).bind
  rintro ⟨build_res, s₁⟩ ⟨rfl, hbuild⟩
  apply (BENCH_insertFilters_spec hv.filter_eq hv.last_inserted insert_mode
    config.warmup_runs.toNat hruns _).bind
  rintro ⟨insert_res, s₂⟩ ⟨rfl, hinsert⟩
  -- The filter is built once more and its false positives are counted.
  obtain ⟨m, hm, hm_filter, hcount, hqueries, -⟩ := countsFalsePositives_of_lawful h.valid h.sound
    h.rows_pos h.rows_lt h.to_insert h.not_present
  rw [hv.filter_eq] at hm_filter
  obtain rfl := Except.ok.inj hm_filter
  dsimp only
  rw [ok_bind, hm, ok_bind]
  -- The three probes run on this filter.
  apply (BENCH_probeFilters_spec hvalid h.to_insert (by omega) probe_mode
    config.warmup_runs.toNat hruns hv.hit_eq _).bind
  rintro ⟨hit_probe, s₃⟩ ⟨rfl, hhit⟩
  apply (BENCH_probeFilters_spec hvalid h.not_present (by omega) probe_mode
    config.warmup_runs.toNat hruns hv.miss_eq _).bind
  rintro ⟨miss_probe, s₄⟩ ⟨rfl, hmiss⟩
  apply (BENCH_probeFilters_spec hvalid h.mixed (by omega) probe_mode
    config.warmup_runs.toNat hruns hv.mixed_eq _).bind
  rintro ⟨mixed_probe, s₅⟩ ⟨rfl, hmixed_probe⟩
  have htwo : s.measured + config.hot_runs.toNat + config.hot_runs.toNat =
    s.measured + 2 * config.hot_runs.toNat := by omega
  have hthree : s.measured + 2 * config.hot_runs.toNat + config.hot_runs.toNat =
    s.measured + 3 * config.hot_runs.toNat := by omega
  have hfour : s.measured + 3 * config.hot_runs.toNat + config.hot_runs.toNat =
    s.measured + 4 * config.hot_runs.toNat := by omega
  dsimp only at hhit hmiss hmixed_probe ⊢
  rw [htwo] at hhit hmiss hmixed_probe ⊢
  rw [hthree] at hmiss hmixed_probe ⊢
  rw [hfour] at hmixed_probe ⊢
  refine returns_ok ⟨?_, ?_⟩
  · exact {
      name_eq := rfl
      insert_mode_eq := rfl
      probe_mode_eq := rfl
      fp_rate_eq := congrArg₂ d.rate (hcount.trans hpositives.symm) hqueries
      build := hbuild
      insert := hinsert
      probe_hit := hhit
      probe_miss := hmiss
      probe_mixed := hmixed_probe }
  · simp only [toggled_toggled]
    rw [Row.after, hchecksum]
    have hfive : s.measured + 4 * config.hot_runs.toNat + config.hot_runs.toNat =
      s.measured + 5 * config.hot_runs.toNat := by omega
    rw [hfive]
    rfl

end Benchable

end lawful

end BloomFilters
