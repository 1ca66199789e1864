import BloomFilters.Framework.Harness
import BloomFilters.BenchMain
import BloomFilters.FreshFilters
import BloomFilters.Generation

/-! # The tests

    `src/test.cpp`: the unit tests, `run_allTests`, and the run of `main` over
    eight filters. Doubles are a type with a comparison, of which no law is asked:
    the NaN that `rate` makes of no queries is a value that is not `≤` anything.
    `rate` divides two counts and `print` is the output of a rate.

    * **Meaning**: what a filter has shown when the tests pass, for any
      implementation of the four functions.
    * **Outcome**: on the filters of this program only the false-positive rate
      can fail.
    * **Windows**: `UT_batchContains` needs 129 queries; with fewer of them its
      index wraps.
-/

open Checked BitArray Words Footprint Harness

namespace BloomFilters

/-! ## The unit tests -/

/-- `__FILE__`, as the Makefile names it. -/
def testFile : String := "src/test.cpp"

def check_filter (condition : Bool) (msg file : String) (line : Nat) : Test Unit :=
  if condition then .ok ()
  else .error (.failed ("TEST failed at " ++ file ++ ":" ++ toString line ++ ": " ++ msg))

section tests

variable {Filter : Type} [BloomFilter Filter]

def UT_createEmpty (filter : Filter) (queries : Array Word) (name : String) : Test Unit :=
  forM queries.toList fun h => do
    let reported ← call (contains filter h)
    check_filter (!reported) (name ++ ": empty filter returns true for some values") testFile 41

/-- `for (h : inserted) check_filter(filter.contains(h), ...);` -/
def checkInserted (filter : Filter) (inserted : Array Word) (msg : String) (line : Nat) :
    Test Unit :=
  forM inserted.toList fun h => do
    let reported ← call (contains filter h)
    check_filter reported msg testFile line

/-- Insert, check, insert the same once more, check. -/
def insertTwice (build : Filter → Comp Filter) (filter : Filter) (inserted : Array Word)
    (msg : String) (line : Nat) (duplicateMsg : String) (duplicateLine : Nat) : Test Filter := do
  let filter ← call (build filter)
  checkInserted filter inserted msg line
  let filter ← call (build filter)
  checkInserted filter inserted duplicateMsg duplicateLine
  return filter

def UT_scalarInsert (filter : Filter) (inserted : Array Word) (name : String) : Test Filter :=
  insertTwice (insertLoop insert inserted 0) filter inserted
    (name ++ " returns false negative after scalar insertion.") 58
    (name ++ " returns false negative after duplicate scalar insertion.") 67

def UT_batchInsert (filter : Filter) (inserted : Array Word) (name : String) : Test Filter :=
  insertTwice (fun filter => insertBatch filter inserted) filter inserted
    (name ++ " returns false negative after batch insertion.") 79
    (name ++ " returns false negative after duplicate batch insertion.") 84

def UT_batchInsert_compareImpl (s_filter b_filter : Filter) (queries : Array Word)
    (name : String) : Test Unit :=
  forM queries.toList fun h => do
    let s ← call (contains s_filter h)
    let b ← call (contains b_filter h)
    check_filter (s == b)
      (name ++ " returns different results for scalar and batch insertions.") testFile 96

/-- `(i * 7) % (max_idx + 1)`, where `max_idx` is `queries.size() - count`. -/
def q_start (size count : Nat) : Comp Nat :=
  let max_idx := (size + (2 ^ 64 - count)) % 2 ^ 64
  if (max_idx + 1) % 2 ^ 64 = 0 then .error .divZero
  else .ok (count * 7 % 2 ^ 64 % ((max_idx + 1) % 2 ^ 64))

/-- The hashes that a batch from `queries.data() + q_start` may read. -/
def batch_queries (queries : Array Word) (q_start count : Nat) : Comp (Array Word) :=
  if q_start + count ≤ queries.size then .ok (queries.extract q_start (q_start + count))
  else .error .bounds

/-- One element of a batch, against `contains`. -/
def compareAt (filter : Filter) (queries : Array Word) (name : String) (q_start : Nat)
    (result : Array Byte) (j : Nat) : Test Unit := do
  let r_scalar ← call (load queries (q_start + j) >>= contains filter)
  let r_batch ← call (packed_result_bit result j)
  check_filter (r_scalar == r_batch)
    (name ++ " scalar/batch implementation mismatch at element " ++ toString j) testFile 128

/-- One batch size. -/
def compareBatch (filter : Filter) (queries : Array Word) (name : String) (count : Nat) :
    Test Unit := do
  let q_start ← call (q_start queries.size count)
  let batch ← call (batch_queries queries q_start count)
  let result := Array.replicate (max (result_bytes count) 1) 0
  let result ← call (containsBatch filter batch result)
  forM (List.range count) (compareAt filter queries name q_start result)

def batch_sizes (size : Nat) : List Nat := [0, 1, 3, 4, 5, 7, 8, 9, 127, 128, 129, size]

def UT_batchContains (filter : Filter) (queries : Array Word) (name : String) : Test Unit :=
  forM (batch_sizes queries.size) (compareBatch filter queries name)

/-- `for (h : not_present) if (filter.contains(h)) fp_count = fp_count + 1;` -/
def countReported (filter : Filter) (not_present : Array Word) : Comp Nat :=
  not_present.toList.foldlM (fun fp_count h => do
    if ← contains filter h then return fp_count + 1 else return fp_count) 0

section rates

variable {D : Type} [LE D] [DecidableLE D] [DecidableEq D] (rate : Nat → Nat → D)
         (print : D → String)

def UT_fpRate (filter : Filter) (not_present : Array Word) (desired_fp : D) (name : String) :
    Test D := do
  let fp_count ← call (countReported filter not_present)
  let fp_rate := rate fp_count not_present.size
  check_filter (decide (fp_rate ≤ desired_fp))
    (name ++ ": false-positive rate unexpectedly high: " ++ print fp_rate) testFile 154
  return fp_rate

/-- What `UT_fpRate` says about the rate of a scalar build. -/
def verdict (desired_fp : D) (name : String) (fp_rate : D) : Test D :=
  if fp_rate ≤ desired_fp then .ok fp_rate
  else .error (.failed ("TEST failed at src/test.cpp:154: " ++ name ++
    " with scalar build: false-positive rate unexpectedly high: " ++ print fp_rate))

/-- The result is the rate that is printed at the end. -/
def run_allTests (name : String) (filter : Filter) (w : Workload) (desired_fp : D) : Test D := do
  let empty_filter := filter
  let scalar_filter := filter
  let batch_filter := filter
  UT_createEmpty empty_filter w.not_present name
  UT_batchContains empty_filter w.mixed name
  let scalar_filter ← UT_scalarInsert scalar_filter w.to_insert name
  UT_batchContains scalar_filter w.mixed (name ++ " with scalar build")
  let batch_filter ← UT_batchInsert batch_filter w.to_insert name
  UT_batchContains batch_filter w.mixed (name ++ " with batch build")
  UT_batchInsert_compareImpl scalar_filter batch_filter w.mixed name
  let scalar_fp ←
    UT_fpRate rate print scalar_filter w.not_present desired_fp (name ++ " with scalar build")
  let batch_fp ←
    UT_fpRate rate print batch_filter w.not_present desired_fp (name ++ " with batch build")
  check_filter (decide (scalar_fp = batch_fp))
    (name ++ ": scalar and batch insertions produced different FP rates somehow.") testFile 178
  return scalar_fp

end rates

end tests

/-! ## What a passed test has shown -/

theorem check_filter_eq_ok {condition : Bool} {msg file : String} {line : Nat} :
    check_filter condition msg file line = .ok () ↔ condition = true := by
  cases condition with
  | true => simp [check_filter]
  | false => simp [check_filter]

section meaning

variable {Filter : Type} [BloomFilter Filter] {filter filter₂ : Filter}
         {queries inserted not_present : Array Word} {name msg : String}

theorem UT_createEmpty_iff : UT_createEmpty filter queries name = .ok () ↔
    ∀ h ∈ queries, contains filter h = .ok false := by
  unfold UT_createEmpty
  rw [forM_eq_ok]
  simp only [Array.mem_toList_iff]
  refine forall₂_congr fun h _ => ?_
  rw [call_bind_eq_ok]
  simp [check_filter_eq_ok]

theorem checkInserted_iff {line : Nat} : checkInserted filter inserted msg line = .ok () ↔
    ∀ h ∈ inserted, contains filter h = .ok true := by
  unfold checkInserted
  rw [forM_eq_ok]
  simp only [Array.mem_toList_iff]
  refine forall₂_congr fun h _ => ?_
  rw [call_bind_eq_ok]
  simp [check_filter_eq_ok]

/-- `filter₂` comes from two builds, and no inserted hash is missing after
    either of them. -/
def InsertedTwice (build : Filter → Comp Filter) (filter : Filter) (inserted : Array Word)
    (filter₂ : Filter) : Prop :=
  ∃ filter₁, build filter = .ok filter₁ ∧ (∀ h ∈ inserted, contains filter₁ h = .ok true) ∧
    build filter₁ = .ok filter₂ ∧ ∀ h ∈ inserted, contains filter₂ h = .ok true

theorem insertTwice_iff {build : Filter → Comp Filter} {line duplicateLine : Nat}
    {duplicateMsg : String} :
    insertTwice build filter inserted msg line duplicateMsg duplicateLine = .ok filter₂ ↔
      InsertedTwice build filter inserted filter₂ := by
  unfold insertTwice InsertedTwice
  rw [call_bind_eq_ok]
  refine exists_congr fun filter₁ => and_congr_right fun _ => ?_
  rw [unit_bind_eq_ok, checkInserted_iff, call_bind_eq_ok]
  refine and_congr_right fun _ => ?_
  -- The last check is about the filter that is returned.
  constructor
  · rintro ⟨filter', hbuild, htest⟩
    rw [unit_bind_eq_ok, checkInserted_iff] at htest
    obtain ⟨hall, hreturn⟩ := htest
    obtain rfl := Except.ok.inj hreturn
    exact ⟨hbuild, hall⟩
  · rintro ⟨hbuild, hall⟩
    refine ⟨filter₂, hbuild, ?_⟩
    rw [unit_bind_eq_ok, checkInserted_iff]
    exact ⟨hall, rfl⟩

theorem UT_batchInsert_compareImpl_iff {s_filter b_filter : Filter} :
    UT_batchInsert_compareImpl s_filter b_filter queries name = .ok () ↔
      ∀ h ∈ queries, Returns (contains s_filter h) fun b => contains b_filter h = .ok b := by
  unfold UT_batchInsert_compareImpl
  rw [forM_eq_ok]
  simp only [Array.mem_toList_iff]
  refine forall₂_congr fun h _ => ?_
  simp only [call_bind_eq_ok, check_filter_eq_ok, beq_iff_eq]
  constructor
  · rintro ⟨s, hs, b, hb, rfl⟩
    exact ⟨s, hs, hb⟩
  · rintro ⟨s, hs, hb⟩
    exact ⟨s, hs, s, hb, rfl⟩

/-! ### Windows -/

/-- The answers to the batch of `count` hashes from `start` on are those of
    `contains`. -/
structure WindowAgrees (filter : Filter) (queries : Array Word) (start count : Nat) : Prop where
  inside : start + count ≤ queries.size
  agrees : Returns (containsBatch filter (queries.extract start (start + count))
    (Array.replicate (max (result_bytes count) 1) 0)) fun r =>
      ∀ j, j < count → Returns (load queries (start + j) >>= contains filter) fun b =>
        packed_result_bit r j = .ok b

/-- Where the window of `count` hashes begins. -/
def windowStart (size count : Nat) : Nat := 7 * count % (size - count + 1)

theorem q_start_eq {size count : Nat} (hsize : size < 2 ^ 61) (hle : count ≤ size) :
    q_start size count = .ok (windowStart size count) := by
  have hmax : (size + (2 ^ 64 - count)) % 2 ^ 64 = size - count := by omega
  have hnext : (size - count + 1) % 2 ^ 64 = size - count + 1 := by omega
  have hstart : count * 7 % 2 ^ 64 = 7 * count := by omega
  simp only [q_start, hmax, hnext, hstart]
  rw [if_neg (Nat.succ_ne_zero _)]
  rfl

theorem batch_queries_eq_ok {start count : Nat} {batch : Array Word} :
    batch_queries queries start count = .ok batch ↔
      start + count ≤ queries.size ∧ batch = queries.extract start (start + count) := by
  unfold batch_queries
  split
  · simp_all [eq_comm]
  · simp_all

theorem compareAt_iff {start j : Nat} {result : Array Byte} :
    compareAt filter queries name start result j = .ok () ↔
      Returns (load queries (start + j) >>= contains filter) fun b =>
        packed_result_bit result j = .ok b := by
  unfold compareAt
  simp only [call_bind_eq_ok, check_filter_eq_ok, beq_iff_eq]
  constructor
  · rintro ⟨s, hs, b, hb, rfl⟩
    exact ⟨s, hs, hb⟩
  · rintro ⟨s, hs, hb⟩
    exact ⟨s, hs, s, hb, rfl⟩

theorem compareBatch_iff {count : Nat} (hsize : queries.size < 2 ^ 61) :
    compareBatch filter queries name count = .ok () ↔
      count ≤ queries.size ∧
        WindowAgrees filter queries (windowStart queries.size count) count := by
  unfold compareBatch
  dsimp only
  constructor
  · intro h
    obtain ⟨start, hstart, hrest⟩ := call_bind_eq_ok.mp h
    obtain ⟨batch, hbatch, hrest⟩ := call_bind_eq_ok.mp hrest
    obtain ⟨hinside, rfl⟩ := batch_queries_eq_ok.mp hbatch
    obtain ⟨result, hresult, hrounds⟩ := call_bind_eq_ok.mp hrest
    have hle : count ≤ queries.size := by omega
    rw [q_start_eq hsize hle] at hstart
    obtain rfl := Except.ok.inj hstart
    refine ⟨hle, hinside, result, hresult, fun j hj => ?_⟩
    exact compareAt_iff.mp (forM_eq_ok.mp hrounds j (List.mem_range.mpr hj))
  · rintro ⟨hle, hinside, result, hresult, hall⟩
    rw [q_start_eq hsize hle, call_ok, ok_bind, batch_queries_eq_ok.mpr ⟨hinside, rfl⟩, call_ok,
      ok_bind, hresult, call_ok, ok_bind]
    exact forM_eq_ok.mpr fun j hj => compareAt_iff.mpr (hall j (List.mem_range.mp hj))

/-- All windows agree, and there are enough queries for them. -/
structure WindowsAgree (filter : Filter) (queries : Array Word) : Prop where
  enough : 129 ≤ queries.size
  agrees : ∀ count ∈ batch_sizes queries.size,
    WindowAgrees filter queries (windowStart queries.size count) count

theorem UT_batchContains_iff (hsize : queries.size < 2 ^ 61) :
    UT_batchContains filter queries name = .ok () ↔ WindowsAgree filter queries := by
  unfold UT_batchContains
  rw [forM_eq_ok]
  constructor
  · intro h
    exact ⟨((compareBatch_iff hsize).mp (h 129 (by simp [batch_sizes]))).1,
      fun count hcount => ((compareBatch_iff hsize).mp (h count hcount)).2⟩
  · intro h count hcount
    have henough := h.enough
    refine (compareBatch_iff hsize).mpr ⟨?_, h.agrees count hcount⟩
    simp only [batch_sizes, List.mem_cons, List.not_mem_nil, or_false] at hcount
    omega

/-! ### Rates -/

/-- The count goes up at each hash that is reported. -/
theorem foldlM_countReported {hashes : List Word} {m n : Nat} :
    hashes.foldlM (fun fp_count h => do
      if ← contains filter h then return fp_count + 1 else return fp_count) m = .ok n ↔
    (∀ h ∈ hashes, ∃ b, contains filter h = .ok b) ∧
      n = m + hashes.countP fun h => decide (contains filter h = .ok true) := by
  induction hashes generalizing m with
  | nil => simp [eq_comm]
  | cons h hashes ih =>
    rw [List.foldlM_cons, List.forall_mem_cons, List.countP_cons]
    cases contains filter h with
    | error e => simp
    | ok b =>
      rw [ok_bind]
      cases b with
      | true =>
        show List.foldlM _ (m + 1) hashes = _ ↔ _
        rw [ih]
        simp [Nat.add_assoc, Nat.add_comm]
      | false =>
        show List.foldlM _ m hashes = _ ↔ _
        rw [ih]
        simp

theorem countReported_eq_ok {n : Nat} : countReported filter not_present = .ok n ↔
    (∀ h ∈ not_present, ∃ b, contains filter h = .ok b) ∧
      n = not_present.toList.countP fun h => decide (contains filter h = .ok true) := by
  unfold countReported
  rw [foldlM_countReported, Nat.zero_add]
  simp only [Array.mem_toList_iff]

section rates

variable {D : Type} [LE D] [DecidableLE D] [DecidableEq D] {rate : Nat → Nat → D}
         {print : D → String} {desired_fp : D}

omit [DecidableEq D] in
theorem UT_fpRate_iff {r : D} :
    UT_fpRate rate print filter not_present desired_fp name = .ok r ↔
      ∃ n, countReported filter not_present = .ok n ∧ r = rate n not_present.size ∧
        r ≤ desired_fp := by
  unfold UT_fpRate
  rw [call_bind_eq_ok]
  refine exists_congr fun n => and_congr_right fun _ => ?_
  dsimp only
  rw [unit_bind_eq_ok, check_filter_eq_ok, decide_eq_true_eq]
  constructor
  · rintro ⟨hle, hr⟩
    obtain rfl := Except.ok.inj hr
    exact ⟨rfl, hle⟩
  · rintro ⟨rfl, hle⟩
    exact ⟨hle, rfl⟩

/-- What `run_allTests` establishes, step by step. -/
structure Passes (rate : Nat → Nat → D) (filter : Filter) (w : Workload) (desired_fp : D)
    (scalar_filter batch_filter : Filter) (r : D) : Prop where
  empty : ∀ h ∈ w.not_present, contains filter h = .ok false
  empty_windows : WindowsAgree filter w.mixed
  scalar : InsertedTwice (insertLoop insert w.to_insert 0) filter w.to_insert scalar_filter
  scalar_windows : WindowsAgree scalar_filter w.mixed
  batch : InsertedTwice (fun filter => insertBatch filter w.to_insert) filter w.to_insert
    batch_filter
  batch_windows : WindowsAgree batch_filter w.mixed
  same : ∀ h ∈ w.mixed, Returns (contains scalar_filter h) fun b =>
    contains batch_filter h = .ok b
  scalar_rate : ∃ n, countReported scalar_filter w.not_present = .ok n ∧
    r = rate n w.not_present.size
  batch_rate : ∃ n, countReported batch_filter w.not_present = .ok n ∧
    r = rate n w.not_present.size
  acceptable : r ≤ desired_fp

/-- **Meaning** of the tests, for every implementation. -/
theorem run_allTests_iff {w : Workload} (hsize : w.mixed.size < 2 ^ 61) {r : D} :
    run_allTests rate print name filter w desired_fp = .ok r ↔
      ∃ scalar_filter batch_filter,
        Passes rate filter w desired_fp scalar_filter batch_filter r := by
  unfold run_allTests
  dsimp only
  rw [unit_bind_eq_ok, unit_bind_eq_ok, UT_createEmpty_iff, UT_batchContains_iff hsize]
  constructor
  · rintro ⟨hempty, hwindows, htest⟩
    obtain ⟨scalar_filter, hscalar, htest⟩ := bind_eq_ok.mp htest
    obtain ⟨hscalar_windows, htest⟩ := unit_bind_eq_ok.mp htest
    obtain ⟨batch_filter, hbatch, htest⟩ := bind_eq_ok.mp htest
    obtain ⟨hbatch_windows, htest⟩ := unit_bind_eq_ok.mp htest
    obtain ⟨hsame, htest⟩ := unit_bind_eq_ok.mp htest
    obtain ⟨scalar_fp, hscalar_fp, htest⟩ := bind_eq_ok.mp htest
    obtain ⟨batch_fp, hbatch_fp, htest⟩ := bind_eq_ok.mp htest
    obtain ⟨hequal, hreturn⟩ := unit_bind_eq_ok.mp htest
    obtain rfl := Except.ok.inj hreturn
    obtain ⟨n, hn, hr, hle⟩ := UT_fpRate_iff.mp hscalar_fp
    obtain ⟨m, hm, hr', -⟩ := UT_fpRate_iff.mp hbatch_fp
    have hrates : scalar_fp = batch_fp := of_decide_eq_true (check_filter_eq_ok.mp hequal)
    exact ⟨scalar_filter, batch_filter, {
      empty := hempty
      empty_windows := hwindows
      scalar := insertTwice_iff.mp hscalar
      scalar_windows := (UT_batchContains_iff hsize).mp hscalar_windows
      batch := insertTwice_iff.mp hbatch
      batch_windows := (UT_batchContains_iff hsize).mp hbatch_windows
      same := UT_batchInsert_compareImpl_iff.mp hsame
      scalar_rate := ⟨n, hn, hr⟩
      batch_rate := ⟨m, hm, hrates.trans hr'⟩
      acceptable := hle }⟩
  · rintro ⟨scalar_filter, batch_filter, h⟩
    obtain ⟨n, hn, hr⟩ := h.scalar_rate
    obtain ⟨m, hm, hr'⟩ := h.batch_rate
    refine ⟨h.empty, h.empty_windows, ?_⟩
    refine bind_eq_ok.mpr ⟨scalar_filter, insertTwice_iff.mpr h.scalar, ?_⟩
    refine unit_bind_eq_ok.mpr ⟨(UT_batchContains_iff hsize).mpr h.scalar_windows, ?_⟩
    refine bind_eq_ok.mpr ⟨batch_filter, insertTwice_iff.mpr h.batch, ?_⟩
    refine unit_bind_eq_ok.mpr ⟨(UT_batchContains_iff hsize).mpr h.batch_windows, ?_⟩
    refine unit_bind_eq_ok.mpr ⟨UT_batchInsert_compareImpl_iff.mpr h.same, ?_⟩
    refine bind_eq_ok.mpr ⟨r, UT_fpRate_iff.mpr ⟨n, hn, hr, h.acceptable⟩, ?_⟩
    refine bind_eq_ok.mpr ⟨r, UT_fpRate_iff.mpr ⟨m, hm, hr', h.acceptable⟩, ?_⟩
    exact unit_bind_eq_ok.mpr ⟨check_filter_eq_ok.mpr (decide_eq_true rfl), rfl⟩

end rates

end meaning

/-- A basic filter of one byte, with one query over and over. -/
theorem run_allTests_iff_one :
    run_allTests (fun a b => a / b) toString "BasicBloomFilter" (BasicBloomFilter.new 8 1)
        ⟨#[1], #[2], Array.replicate 130 1⟩ 0 = .ok 0 ↔
      ∃ scalar_filter batch_filter, Passes (fun a b => a / b) (BasicBloomFilter.new 8 1)
        ⟨#[1], #[2], Array.replicate 130 1⟩ 0 scalar_filter batch_filter 0 :=
  run_allTests_iff (by rw [Array.size_replicate]; decide)

/-! ## The outcome on lawful filters -/

/-- The elements with a property, in a list without repetitions. -/
theorem ncard_eq_countP {α : Type} [DecidableEq α] {l : List α} (hnodup : l.Nodup) (p : α → Bool) :
    {x | x ∈ l ∧ p x = true}.ncard = l.countP p := by
  have hset : {x | x ∈ l ∧ p x = true} = ((l.filter p).toFinset : Set α) := by
    ext x
    simp
  rw [hset, Set.ncard_coe_finset, List.toFinset_card_of_nodup (hnodup.filter p),
    List.countP_eq_length_filter]

section lawful

variable {Impl : Type} [BloomFilter Impl] [LawfulBloomFilter Impl] {f : Impl}

open LawfulBloomFilter

/-- Any window of a batch that is long enough is answered. -/
theorem windowAgrees_of_lawful (hvalid : Valid (shape f)) {queries : Array Word}
    (hmask : ∀ h ∈ queries, HasMask Impl h) {start count : Nat}
    (hinside : start + count ≤ queries.size) (hsize : queries.size < 2 ^ 61) :
    WindowAgrees f queries start count := by
  refine ⟨hinside, ?_⟩
  have hextract : (queries.extract start (start + count)).size = count := by
    rw [Array.size_extract]
    omega
  have hbatch : ∀ h ∈ queries.extract start (start + count), HasMask Impl h := by
    intro h hh
    obtain ⟨i, hi, rfl⟩ := Array.mem_iff_getElem.mp hh
    rw [Array.getElem_extract]
    exact hmask _ (Array.getElem_mem _)
  have hexact := exactBatchProbe hvalid fun g (hg : g = f) => ⟨by rw [hg], by rw [hg]⟩
  have hbuffer : (count + 7) / 8 ≤
      (Array.replicate (max (result_bytes count) 1) (0 : Byte)).size := by
    rw [Array.size_replicate, result_bytes_eq (by omega)]
    exact Nat.le_max_left _ _
  obtain ⟨r, hr, hpacked⟩ := hexact.packs _ (Array.replicate (max (result_bytes count) 1) 0) hbatch
    (by omega) (by rw [hextract]; exact hbuffer)
  refine ⟨r, hr, fun j hj => ?_⟩
  have hanswer := hpacked.answer j (by omega)
  rw [Array.getElem_extract] at hanswer
  have hj' : start + j < queries.size := by omega
  obtain ⟨b, hb, -⟩ := contains_spec f queries[start + j] hvalid (hmask _ (Array.getElem_mem hj'))
  rw [load_ok hj', ok_bind, hb]
  exact returns_ok (hanswer.trans hb)

/-- All windows fit into 129 queries. -/
theorem windowsAgree_of_lawful (hvalid : Valid (shape f)) {queries : Array Word}
    (hmask : ∀ h ∈ queries, HasMask Impl h) (henough : 129 ≤ queries.size)
    (hsize : queries.size < 2 ^ 61) : WindowsAgree f queries := by
  refine ⟨henough, fun count hcount => ?_⟩
  have hle : count ≤ queries.size := by
    simp only [batch_sizes, List.mem_cons, List.not_mem_nil, or_false] at hcount
    omega
  have hstart : windowStart queries.size count < queries.size - count + 1 :=
    Nat.mod_lt _ (Nat.succ_pos _)
  exact windowAgrees_of_lawful hvalid hmask (by omega) hsize

omit [LawfulBloomFilter Impl] in
/-- A window that is longer than the vector: its index wraps around. -/
theorem compareBatch_beyond {queries : Array Word} {name : String} {count : Nat}
    (hlt : queries.size < count) (hcount : count ≤ 129) :
    compareBatch f queries name count =
      .error (.fault (if count = queries.size + 1 then .divZero else .bounds)) := by
  by_cases hnext : count = queries.size + 1
  · have hwrap : ((queries.size + (2 ^ 64 - count)) % 2 ^ 64 + 1) % 2 ^ 64 = 0 := by omega
    have hstart : q_start queries.size count = .error .divZero := by
      simp only [q_start]
      rw [if_pos hwrap]
    unfold compareBatch
    rw [hstart, if_pos hnext]
    rfl
  · have hwrap : ((queries.size + (2 ^ 64 - count)) % 2 ^ 64 + 1) % 2 ^ 64 =
        2 ^ 64 - (count - queries.size) + 1 := by omega
    have hproduct : count * 7 % 2 ^ 64 = 7 * count := by omega
    have hstart : q_start queries.size count = .ok (7 * count) := by
      simp only [q_start, hwrap, hproduct]
      rw [if_neg (Nat.succ_ne_zero _), Nat.mod_eq_of_lt (by omega)]
    have hbeyond : ¬ 7 * count + count ≤ queries.size := by omega
    unfold compareBatch
    rw [hstart, if_neg hnext, call_ok, ok_bind, batch_queries, if_neg hbeyond]
    rfl

/-- The first batch size that does not fit into `size` queries. -/
theorem first_beyond : ∀ size, size < 129 → ∃ count,
    (batch_sizes size).find? (fun c => decide (size < c)) = some count ∧ count ≤ 129 ∧
      (count = size + 1 ↔ size + 1 ∈ [1, 3, 4, 5, 7, 8, 9, 127, 128, 129]) := by
  have hall : ∀ size, size < 129 → ((batch_sizes size).find? fun c => decide (size < c)).any
      (fun count => decide (count ≤ 129 ∧
        (count = size + 1 ↔ size + 1 ∈ [1, 3, 4, 5, 7, 8, 9, 127, 128, 129]))) = true := by
    decide +kernel
  intro size hsize
  have hany := hall size hsize
  cases hfind : (batch_sizes size).find? fun c => decide (size < c) with
  | none =>
    rw [hfind] at hany
    cases hany
  | some count =>
    rw [hfind] at hany
    exact ⟨count, rfl, of_decide_eq_true hany⟩

/-- **Windows**: `UT_batchContains` needs 129 queries; with fewer of them it
    divides by zero or reads outside of the vector. -/
theorem windows_needed (hvalid : Valid (shape f)) {queries : Array Word}
    (hmask : ∀ h ∈ queries, HasMask Impl h) (hsize : queries.size < 2 ^ 61) (name : String) :
    (129 ≤ queries.size → UT_batchContains f queries name = .ok ()) ∧
    (queries.size < 129 → UT_batchContains f queries name =
      .error (.fault (if queries.size + 1 ∈ [1, 3, 4, 5, 7, 8, 9, 127, 128, 129] then .divZero
        else .bounds))) := by
  constructor
  · intro henough
    exact (UT_batchContains_iff hsize).mpr (windowsAgree_of_lawful hvalid hmask henough hsize)
  · intro hfew
    obtain ⟨count, hfind, hle, hnext⟩ := first_beyond queries.size hfew
    obtain ⟨hbeyond, before, after, hsplit, hbefore⟩ := List.find?_eq_some_iff_append.mp hfind
    rw [UT_batchContains,
      forM_eq_error hsplit _ (compareBatch_beyond (of_decide_eq_true hbeyond) hle)]
    · simp only [hnext]
    · intro y hy
      have hfits : y ≤ queries.size := by simpa using hbefore y hy
      have hstart : windowStart queries.size y < queries.size - y + 1 :=
        Nat.mod_lt _ (Nat.succ_pos _)
      exact (compareBatch_iff hsize).mpr
        ⟨hfits, windowAgrees_of_lawful hvalid hmask (by omega) hsize⟩

/-- Three queries are one fewer than the fourth batch asks for. -/
theorem windows_needed_three :
    UT_batchContains (BasicBloomFilter.new 8 1) #[1, 2, 3] "BasicBloomFilter" =
      .error (.fault .divZero) :=
  (windows_needed (BasicBloomFilter.valid_new ⟨by decide, by decide⟩ 1) (fun _ _ => trivial)
    (by decide) "BasicBloomFilter").2 (by decide)

/-- Both builds insert the hashes one after the other, and the second time
    changes nothing. -/
theorem insertedTwice_of_lawful (hvalid : Valid (shape f)) {hashes : Array Word}
    (hmask : ∀ h ∈ hashes, HasMask Impl h) {build : Impl → Comp Impl}
    (hbuild : ∀ g, build g = hashes.toList.foldlM insert g) :
    ∃ g, InsertedTwice build f hashes g ∧ Inserted f hashes g := by
  have hmask' : ∀ h ∈ hashes.toList, HasMask Impl h :=
    fun h hh => hmask h (Array.mem_toList_iff.mp hh)
  obtain ⟨f₁, hf₁, hshape₁, hbits₁⟩ := foldlM_insert_spec f _ hvalid hmask'
  obtain ⟨f₂, hf₂, hshape₂, hbits₂⟩ := foldlM_insert_spec f₁ _ (hshape₁ ▸ hvalid) hmask'
  have hins₁ : Inserted f hashes f₁ := ⟨hshape₁, hbits₁⟩
  have hins₂ : Inserted f hashes f₂ := by
    refine ⟨hshape₂.trans hshape₁, ?_⟩
    rw [hbits₂, hbits₁, hshape₁, Set.union_assoc, Set.union_self]
  refine ⟨f₂, ⟨f₁, ?_, ?_, ?_, ?_⟩, hins₂⟩
  · rw [hbuild, hf₁]
  · exact fun h hh => hins₁.contains hvalid (hmask h hh) hh
  · rw [hbuild, hf₂]
  · exact fun h hh => hins₂.contains hvalid (hmask h hh) hh

/-- The tests count what the benchmark counts. -/
theorem countReported_of_computes {w : Workload} {rows : Nat} (h : Benchable f w rows)
    {v : ClassValues} (hv : Computes f w v) {g : Impl} (hg : Inserted f w.to_insert g) :
    countReported g w.not_present = .ok v.false_positives := by
  obtain ⟨filter, built, hit, miss, mixed, hvalues, hpositives, -⟩ := hv
  obtain ⟨filter', hfilter', hfilter⟩ := insertBatch_inserted h.valid h.to_insert
  obtain rfl := Except.ok.inj (hvalues.filter_eq.symm.trans hfilter')
  have hsame : ∀ x ∈ w.not_present, contains filter x = contains g x :=
    fun x hx => hfilter.contains_congr h.valid hg (h.not_present x hx)
  rw [countReported_eq_ok]
  constructor
  · intro x hx
    obtain ⟨b, hb, -⟩ := contains_spec g x (hg.shape_eq ▸ h.valid) (h.not_present x hx)
    exact ⟨b, hb⟩
  · rw [hpositives, ← ncard_eq_countP h.sound.not_present_nodup]
    apply congrArg Set.ncard
    ext x
    rw [Set.mem_ofPred_eq, Set.mem_ofPred_eq, Array.mem_toList_iff, decide_eq_true_eq]
    refine and_congr_right fun hx => ?_
    rw [hsame x hx]

section rates

variable {D : Type} [LE D] [DecidableLE D] [DecidableEq D] {rate : Nat → Nat → D}
         {print : D → String} {desired_fp : D}

/-- **Outcome** of the tests on a lawful filter that starts empty. -/
theorem run_allTests_eq {w : Workload} {rows : Nat} (h : Benchable f w rows) (henough : 65 ≤ rows)
    (hempty : ∀ x ∈ w.not_present, contains f x = .ok false) {v : ClassValues}
    (hv : Computes f w v) (name : String) :
    run_allTests rate print name f w desired_fp =
      verdict print desired_fp name (rate v.false_positives w.not_present.size) := by
  have hlt := h.rows_lt
  have hmixed := h.size_mixed
  have hsize : w.mixed.size < 2 ^ 61 := by omega
  obtain ⟨s, hs, hins_s⟩ := insertedTwice_of_lawful h.valid h.to_insert
    fun g => insertLoop_eq_foldlM insert w.to_insert g
  obtain ⟨b, hb, hins_b⟩ := insertedTwice_of_lawful h.valid h.to_insert
    fun g => insertBatch_eq g w.to_insert
  have hwindows : ∀ {g}, shape g = shape f → WindowsAgree g w.mixed := fun hg =>
    windowsAgree_of_lawful (hg ▸ h.valid) h.mixed (by omega) hsize
  have hsame : ∀ x ∈ w.mixed, Returns (contains s x) fun a => contains b x = .ok a := by
    intro x hx
    obtain ⟨a, ha, -⟩ := contains_spec s x (hins_s.shape_eq ▸ h.valid) (h.mixed x hx)
    exact ⟨a, ha, hins_s.contains_congr h.valid hins_b (h.mixed x hx) ▸ ha⟩
  have hcount_s := countReported_of_computes h hv hins_s
  have hcount_b := countReported_of_computes h hv hins_b
  unfold run_allTests
  dsimp only
  rw [UT_createEmpty_iff.mpr hempty, ok_bind, (UT_batchContains_iff hsize).mpr (hwindows rfl),
    ok_bind, UT_scalarInsert, insertTwice_iff.mpr hs, ok_bind,
    (UT_batchContains_iff hsize).mpr (hwindows hins_s.shape_eq), ok_bind, UT_batchInsert,
    insertTwice_iff.mpr hb, ok_bind, (UT_batchContains_iff hsize).mpr (hwindows hins_b.shape_eq),
    ok_bind, UT_batchInsert_compareImpl_iff.mpr hsame, ok_bind, UT_fpRate, hcount_s, call_ok,
    ok_bind, UT_fpRate, hcount_b, call_ok, ok_bind]
  -- Nothing but the first comparison of rates can fail.
  unfold verdict
  by_cases hle : rate v.false_positives w.not_present.size ≤ desired_fp
  · rw [if_pos hle]
    simp [check_filter, hle]
  · rw [if_neg hle]
    have hplace : "TEST failed at src/test.cpp:154: " =
      "TEST failed at " ++ testFile ++ ":" ++ toString 154 ++ ": " := by decide
    have htext : " with scalar build: false-positive rate unexpectedly high: " =
      " with scalar build" ++ ": false-positive rate unexpectedly high: " := by decide
    simp only [check_filter, hle, decide_false, hplace, htext, String.append_assoc]
    rfl

end rates

end lawful

/-! ## The run over eight filters -/

/-- No hash has an empty mask. -/
structure MaskTables.Filled (tables : MaskTables) : Prop where
  arrow : ∀ h, 0 < bitCount (BlockFilter.maskWord (ArrowBloomFilter tables.arrow) h)
  modified : ∀ h, 0 < bitCount (BlockFilter.maskWord (ModifiedArrowBloomFilter tables.modified) h)
  improved : ∀ h, 0 < bitCount (BlockFilter.maskWord (ImprovedArrowBloomFilter tables.improved) h)

/-- Whatever the draws are, the constructors leave no mask empty. -/
theorem MaskTables.filled_of_new {tables : MaskTables} (h : tables.Generated) : tables.Filled := by
  obtain ⟨random, fuel, storage, harrow⟩ := h.arrow
  obtain ⟨rng, fuel', hmodified⟩ := h.modified
  obtain ⟨random', fuel'', himproved⟩ := h.improved
  exact ⟨BloomFilterMasks.filled harrow, ModifiedBloomFilterMasks.filled hmodified,
    ImprovedBloomFilterMasks.filled himproved⟩

/-- The masks that `mask` returns have four bits. -/
theorem BlockedBloomFilter.filled {h : Word}
    (hmask : BlockFilter.HasMask BlockedBloomFilter h) :
    0 < bitCount (BlockFilter.maskWord BlockedBloomFilter h) := by
  show 0 < bitCount (maskWord h)
  rw [(mask_safe h).1 _ (mask_eq hmask)]
  decide

/-- The outcome for a new block filter whose masks are not empty. -/
theorem run_allTests_blocks {Impl : Type} [BloomFilter Impl] [BlockFilter Impl] {f : Impl}
    {g : Geometry} (hnew : BlockFilter.toTable f = .ofGeometry g) {w : Workload} {rows : Nat}
    (hsound : w.Sound rows) (henough : 65 ≤ rows) (hrows : rows < 2 ^ 60)
    (hmask : ∀ h, h ∈ w.to_insert ∨ h ∈ w.not_present → BlockFilter.HasMask Impl h)
    (hbits : ∀ h, BlockFilter.HasMask Impl h → 0 < bitCount (BlockFilter.maskWord Impl h))
    {D : Type} [LE D] [DecidableLE D] [DecidableEq D] {rate : Nat → Nat → D}
    {print : D → String} {desired_fp : D} {v : ClassValues} (hv : Computes f w v) (name : String) :
    run_allTests rate print name f w desired_fp =
      verdict print desired_fp name (rate v.false_positives w.not_present.size) := by
  have hempty := reportsNothing_of_blocks hnew hbits
  exact run_allTests_eq (Benchable.of_blocks f hsound (by omega) hrows hmask) henough
    (fun x hx => hempty.contains_false x (hmask x (.inr hx))) hv name

section program

variable {D : Type} [LE D] [DecidableLE D] [DecidableEq D] (rate : Nat → Nat → D)
         (print : D → String)

/-- `main` from its vectors on, with the rates that it prints. -/
def all_tests (tables : MaskTables) (rows_to_insert : Word) (w : Workload) (desired_fp : D) :
    Test (List D) := do
  let basic_num_bits := calculate_arrow_equivalent_bits rows_to_insert 8 512
  let basic_filter := BasicBloomFilter.new basic_num_bits 5
  let blocked_filter ← call (BlockedBloomFilter.new rows_to_insert)
  let arrow_filter := ArrowBloomFilter.new tables.arrow rows_to_insert .scalar
  let arrow_filter_avx2 := ArrowBloomFilter.new tables.arrow rows_to_insert .avx2
  let modified_arrow_filter := ModifiedArrowBloomFilter.new tables.modified rows_to_insert .scalar
  let modified_arrow_avx2 := ModifiedArrowBloomFilter.new tables.modified rows_to_insert .avx2
  let impr_arrow_filter := ImprovedArrowBloomFilter.new tables.improved rows_to_insert .scalar
  let impr_arrow_filter_avx2 := ImprovedArrowBloomFilter.new tables.improved rows_to_insert .avx2
  [run_allTests rate print "BasicBloomFilter" basic_filter w desired_fp,
    run_allTests rate print "BlockedBloomFilter" blocked_filter w desired_fp,
    run_allTests rate print "ArrowBloomFilter_scalar" arrow_filter w desired_fp,
    run_allTests rate print "ArrowBloomFilter_avx2" arrow_filter_avx2 w desired_fp,
    run_allTests rate print "ModifiedArrowFilter_scalar" modified_arrow_filter w desired_fp,
    run_allTests rate print "ModifiedArrowFilter_avx2" modified_arrow_avx2 w desired_fp,
    run_allTests rate print "ImprovedArrow_scalar" impr_arrow_filter w desired_fp,
    run_allTests rate print "ImprovedArrow_avx2" impr_arrow_filter_avx2 w desired_fp].mapM id

/-- The names of the runs, with the values of their classes. -/
def testRows (basic blocked arrow modified improved : ClassValues) :
    List (String × ClassValues) :=
  [("BasicBloomFilter", basic), ("BlockedBloomFilter", blocked),
    ("ArrowBloomFilter_scalar", arrow), ("ArrowBloomFilter_avx2", arrow),
    ("ModifiedArrowFilter_scalar", modified), ("ModifiedArrowFilter_avx2", modified),
    ("ImprovedArrow_scalar", improved), ("ImprovedArrow_avx2", improved)]

variable {tables : MaskTables} {w : Workload} {rows : Word}

/-- The outcome for tables without an empty mask. -/
theorem all_tests_of_filled (hsound : w.Sound rows.toNat) (henough : 65 ≤ rows.toNat)
    (hrows : rows.toNat < 2 ^ 60) (hfilled : tables.Filled)
    (hmask : ∀ h, h ∈ w.to_insert ∨ h ∈ w.not_present →
      ∃ m, BlockedBloomFilter.mask h = .ok m) (desired_fp : D) :
    ∃ basic blocked arrow modified improved,
      ClassesCompute tables w rows basic blocked arrow modified improved ∧
      all_tests rate print tables rows w desired_fp =
        (testRows basic blocked arrow modified improved).mapM fun p =>
          verdict print desired_fp p.1 (rate p.2.false_positives w.not_present.size) := by
  have hpos : 1 ≤ rows.toNat := by omega
  obtain ⟨basic, blocked, arrow, modified, improved, hcompute⟩ :=
    exists_classesCompute tables hsound hpos hrows hmask
  refine ⟨basic, blocked, arrow, modified, improved, hcompute, ?_⟩
  obtain ⟨f, hf, hblocked⟩ := hcompute.blocked
  have hbasic := benchable_basic hsound hpos hrows
  have hbits := calculate_arrow_equivalent_bits_range hrows
  have hsized : BasicBloomFilter.Sized (calculate_arrow_equivalent_bits rows 8 512) :=
    ⟨Nat.le_trans (by decide) hbits.1, hbits.2.trans (by decide)⟩
  have hrun_basic : ∀ name, run_allTests rate print name
      (BasicBloomFilter.new (calculate_arrow_equivalent_bits rows 8 512) 5) w desired_fp =
      verdict print desired_fp name (rate basic.false_positives w.not_present.size) :=
    run_allTests_eq hbasic henough (fun x _ => (reportsNothing_basic hsized
      (show 1 ≤ (5 : Word).toNat by decide)).contains_false x trivial) hcompute.basic
  have hrun_blocked : ∀ name, run_allTests rate print name f w desired_fp =
      verdict print desired_fp name (rate blocked.false_positives w.not_present.size) := by
    obtain ⟨g, rfl⟩ := BlockedBloomFilter.eq_ofGeometry_of_new hf
    exact run_allTests_blocks rfl hsound henough hrows hmask
      (fun _ => BlockedBloomFilter.filled) hblocked
  have hrun_arrow : ∀ mode name, run_allTests rate print name
      (ArrowBloomFilter.new tables.arrow rows mode) w desired_fp =
      verdict print desired_fp name (rate arrow.false_positives w.not_present.size) :=
    fun mode => run_allTests_blocks rfl hsound henough hrows (fun _ _ => trivial)
      (fun h _ => hfilled.arrow h) (hcompute.arrow mode)
  have hrun_modified : ∀ mode name, run_allTests rate print name
      (ModifiedArrowBloomFilter.new tables.modified rows mode) w desired_fp =
      verdict print desired_fp name (rate modified.false_positives w.not_present.size) :=
    fun mode => run_allTests_blocks rfl hsound henough hrows (fun _ _ => trivial)
      (fun h _ => hfilled.modified h) (hcompute.modified mode)
  have hrun_improved : ∀ mode name, run_allTests rate print name
      (ImprovedArrowBloomFilter.new tables.improved rows mode) w desired_fp =
      verdict print desired_fp name (rate improved.false_positives w.not_present.size) :=
    fun mode => run_allTests_blocks rfl hsound henough hrows (fun _ _ => trivial)
      (fun h _ => hfilled.improved h) (hcompute.improved mode)
  unfold all_tests
  rw [hf, call_ok, ok_bind]
  simp only [hrun_basic, hrun_blocked, hrun_arrow, hrun_modified, hrun_improved]
  show ((testRows basic blocked arrow modified improved).map fun p =>
    verdict print desired_fp p.1 (rate p.2.false_positives w.not_present.size)).mapM id = _
  rw [List.mapM_map]
  rfl

/-- **The test program**: on a sound workload, and whatever the tables were drawn
    from, only the false-positive rates decide. They are the rates that the
    benchmark reports. -/
theorem suite_outcome (hsound : w.Sound rows.toNat) (henough : 65 ≤ rows.toNat)
    (hrows : rows.toNat < 2 ^ 60) (hgenerated : tables.Generated)
    (hmask : ∀ h, h ∈ w.to_insert ∨ h ∈ w.not_present →
      ∃ m, BlockedBloomFilter.mask h = .ok m) (desired_fp : D) :
    ∃ basic blocked arrow modified improved,
      ClassesCompute tables w rows basic blocked arrow modified improved ∧
      all_tests rate print tables rows w desired_fp =
        (testRows basic blocked arrow modified improved).mapM fun p =>
          verdict print desired_fp p.1 (rate p.2.false_positives w.not_present.size) :=
  all_tests_of_filled rate print hsound henough hrows (MaskTables.filled_of_new hgenerated) hmask
    desired_fp

end program

theorem exists_ok_of_isSome {α : Type} {c : Comp α} (h : c.toOption.isSome = true) :
    ∃ a, c = .ok a := by
  cases c with
  | ok a => exact ⟨a, rfl⟩
  | error e => cases h

/-- 65 rows, the fewest with enough queries for all windows; rates in parts per
    thousand. -/
theorem suite_outcome_65 :
    ∃ (tables : MaskTables) (w : Workload) (basic blocked arrow modified improved : ClassValues),
      tables.Generated ∧ w.Sound 65 ∧
      ClassesCompute tables w 65 basic blocked arrow modified improved ∧
      all_tests (fun a b => 1000 * a / b) toString tables 65 w 50 =
        (testRows basic blocked arrow modified improved).mapM fun p =>
          verdict toString 50 p.1 (1000 * p.2.false_positives / w.not_present.size) := by
  obtain ⟨tables, hgenerated⟩ := MaskTables.exists_generated
  obtain ⟨w, hsound, hw⟩ := @generate_workload_spec (fun _ => .ok ()) 131
    { rows := 65, negative_queries := 65 } rfl rfl (by decide) (by decide)
  obtain ⟨mixed, -, hclosed⟩ := @generate_workload_eq (fun _ => .ok ()) 131
    { rows := 65, negative_queries := 65 } rfl rfl (by decide) (by decide)
  obtain rfl := Except.ok.inj (hw.symm.trans hclosed)
  -- All masks of these hashes are found within twelve rounds of each stage.
  have hfound : ∀ start, start = 1 ∨ start = 2 ^ 32 → ∀ i, i < 65 →
      (BlockedBloomFilter.maskWithin 12
        (murmurHash (BitVec.ofNat 64 (start + i)))).toOption.isSome = true := by
    intro start hstart
    rcases hstart with rfl | rfl
    · decide +kernel
    · decide +kernel
  have hmask : ∀ start, start = 1 ∨ start = 2 ^ 32 → ∀ h ∈ hashesFrom start 65,
      ∃ m, BlockedBloomFilter.mask h = .ok m := by
    intro start hstart h hh
    obtain ⟨i, hi, rfl⟩ := Array.mem_iff_getElem.mp hh
    have hi' : i < 65 := by simpa [hashesFrom] using hi
    obtain ⟨m, hm⟩ := exists_ok_of_isSome (hfound start hstart i hi')
    simp only [hashesFrom, Array.getElem_map, Array.getElem_range]
    exact ⟨m, BlockedBloomFilter.mask_of_maskWithin hm⟩
  obtain ⟨basic, blocked, arrow, modified, improved, hcompute, htests⟩ :=
    suite_outcome (fun a b => 1000 * a / b) toString hsound (by decide) (by decide) hgenerated
      (fun h hh => hh.elim (hmask 1 (.inl rfl) h) (hmask (2 ^ 32) (.inr rfl) h)) 50
  exact ⟨tables, _, basic, blocked, arrow, modified, improved, hgenerated, hsound, hcompute, htests⟩

end BloomFilters
