import BloomFilters.HelperFuncs
import Mathlib.Data.List.Sort
import Mathlib.Order.Interval.Set.Basic

/-! # What the benchmark reports

    The functions of `src/bench.cpp` and `util/HelperFuncs.h` between a
    measurement and the output file: the checksum that keeps the optimizer
    from dropping a probe, the median over the runs, and the CSV file. Doubles
    are a linearly ordered type `D`, which leaves out the NaN, with the operations
    on them as parameters.

    * **Checksum**: it tells apart any two results that differ within three
      consecutive bytes.
    * **Median**: half of the values lie on either side of it, whatever their
      order; only an empty vector has none.
    * **File**: a reader that goes by the column names gets every result back.
-/

open Checked Words

namespace BloomFilters

/-! ## Checksums -/

def result_checksum.step (checksum : Word) (byte : Byte) : Word :=
  (checksum ^^^ byte.setWidth 64) * 0x100000001b3#64

def result_checksum (result : Array Byte) : Word :=
  result.foldl result_checksum.step 0xcbf29ce484222325#64

namespace result_checksum

/-- The inverse of the odd factor. -/
def factorInv : Word := 0xce965057aff6957b#64

theorem factor_mul_inv : 0x100000001b3#64 * factorInv = 1#64 := by decide

theorem mul_factor_injective {x y : Word} (h : x * 0x100000001b3#64 = y * 0x100000001b3#64) :
    x = y := by
  have hback := congrArg (· * factorInv) h
  simpa only [mul_mul_of_inverse factor_mul_inv] using hback

theorem step_injective_checksum {c c' : Word} {b : Byte} (h : step c b = step c' b) : c = c' :=
  (BitVec.xor_left_inj _).mp (mul_factor_injective h)

theorem step_injective_byte {c : Word} {b b' : Byte} (h : step c b = step c b') : b = b' := by
  have hbytes := (BitVec.xor_right_inj _).mp (mul_factor_injective h)
  have hnat := congrArg BitVec.toNat hbytes
  rw [BitVec.toNat_setWidth, BitVec.toNat_setWidth] at hnat
  have hb := b.isLt
  have hb' := b'.isLt
  exact BitVec.eq_of_toNat_eq (by omega)

/-- The rest of a result keeps different checksums different. -/
theorem foldl_injective (bytes : List Byte) {c c' : Word}
    (h : bytes.foldl step c = bytes.foldl step c') : c = c' := by
  induction bytes generalizing c c' with
  | nil => exact h
  | cons b bytes ih => exact step_injective_checksum (ih h)

/-- A byte is or-ed exclusively into the low eight bits. -/
theorem xor_byte_div (x : Word) (b : Byte) :
    (x ^^^ b.setWidth 64).toNat / 2 ^ 8 = x.toNat / 2 ^ 8 := by
  apply Nat.eq_of_testBit_eq
  intro i
  have hclear : b.getLsbD (i + 8) = false := BitVec.getLsbD_of_ge b _ (by omega)
  rw [Nat.testBit_div_two_pow, Nat.testBit_div_two_pow, BitVec.testBit_toNat,
    BitVec.testBit_toNat, BitVec.getLsbD_xor, BitVec.getLsbD_setWidth, hclear]
  simp

/-- The product wraps a number of times. -/
theorem toNat_mul_factor (x : Word) : ∃ k : Int,
    ((x * 0x100000001b3#64).toNat : Int) = x.toNat * 0x100000001b3 + 2 ^ 64 * k := by
  have hmul : (x * 0x100000001b3#64).toNat = x.toNat * 0x100000001b3 % 2 ^ 64 := BitVec.toNat_mul ..
  exact ⟨-(x.toNat * 0x100000001b3 / 2 ^ 64 : Nat), by omega⟩

/-- Differences of one byte each cannot cancel through two products: the factor
    moves the first of them above the reach of the others. -/
theorem differences_cancel {d e f k : Int} (hd : -256 < d ∧ d < 256) (he : -511 < e ∧ e < 511)
    (hf : -256 < f ∧ f < 256)
    (h : (d * 0x100000001b3 + e) * 0x100000001b3 = f + 2 ^ 64 * k) : d = 0 ∧ e = 0 ∧ f = 0 := by
  -- The square of the factor is `2 ^ 80 + 870 * 2 ^ 40 + 189225`.
  have hwraps : k = 2 ^ 16 * d := by omega
  subst hwraps
  have hhigh : 870 * d + e = 0 := by omega
  have hd0 : d = 0 := by omega
  subst hd0
  omega

/-- Two products between three bytes: states that agree up to the low byte each
    time agree. -/
theorem rounds_cancel {u u' v v' : Word} (hu : u.toNat / 2 ^ 8 = u'.toNat / 2 ^ 8)
    (hv : v.toNat / 2 ^ 8 = (u * 0x100000001b3#64).toNat / 2 ^ 8)
    (hv' : v'.toNat / 2 ^ 8 = (u' * 0x100000001b3#64).toNat / 2 ^ 8)
    (hw : (v * 0x100000001b3#64).toNat / 2 ^ 8 = (v' * 0x100000001b3#64).toNat / 2 ^ 8) :
    u = u' ∧ v = v' := by
  obtain ⟨k₁, hk₁⟩ := toNat_mul_factor u
  obtain ⟨k₁', hk₁'⟩ := toNat_mul_factor u'
  obtain ⟨k₂, hk₂⟩ := toNat_mul_factor v
  obtain ⟨k₂', hk₂'⟩ := toNat_mul_factor v'
  generalize (u * 0x100000001b3#64).toNat = x at *
  generalize (u' * 0x100000001b3#64).toNat = x' at *
  generalize (v * 0x100000001b3#64).toNat = y at *
  generalize (v' * 0x100000001b3#64).toNat = y' at *
  have hcancel := differences_cancel (d := u'.toNat - u.toNat)
    (e := (v'.toNat - x') - (v.toNat - x)) (f := y' - y)
    (k := -((k₁' - k₁) * 0x100000001b3 + (k₂' - k₂))) (by omega) (by omega) (by omega) (by omega)
  obtain ⟨hd, he, -⟩ := hcancel
  have hlt := v.isLt
  have hlt' := v'.isLt
  exact ⟨BitVec.eq_of_toNat_eq (by omega), BitVec.eq_of_toNat_eq (by omega)⟩

/-- Three steps keep the three bytes apart. -/
theorem step_three {c : Word} {a₁ a₂ a₃ b₁ b₂ b₃ : Byte}
    (h : step (step (step c a₁) a₂) a₃ = step (step (step c b₁) b₂) b₃) :
    a₁ = b₁ ∧ a₂ = b₂ ∧ a₃ = b₃ := by
  have hlast := congrArg (fun x : Word => x.toNat / 2 ^ 8) (mul_factor_injective h)
  simp only [xor_byte_div] at hlast
  -- The states that go into the second and into the third product.
  have hstates := @rounds_cancel (c ^^^ a₁.setWidth 64) (c ^^^ b₁.setWidth 64) _ _
    (by rw [xor_byte_div, xor_byte_div]) (xor_byte_div (step c a₁) a₂)
    (xor_byte_div (step c b₁) b₂) hlast
  obtain ⟨hfirst, hsecond⟩ := hstates
  have h₁ : step c a₁ = step c b₁ := congrArg (· * 0x100000001b3#64) hfirst
  have h₂ : step (step c a₁) a₂ = step (step c b₁) b₂ := congrArg (· * 0x100000001b3#64) hsecond
  refine ⟨step_injective_byte h₁, ?_, ?_⟩
  · rw [h₁] at h₂
    exact step_injective_byte h₂
  · rw [h₂] at h
    exact step_injective_byte h

/-- At most three bytes can be read off what they do to a checksum. -/
theorem foldl_window_injective {c : Word} {l l' : List Byte} (hlength : l.length = l'.length)
    (hle : l.length ≤ 3) (h : l.foldl step c = l'.foldl step c) : l = l' := by
  match l, l', hlength, hle, h with
  | [], [], _, _, _ => rfl
  | [a], [b], _, _, h => rw [step_injective_byte h]
  | [a₁, a₂], [b₁, b₂], _, _, h =>
    -- A third byte that is equal on both sides.
    have hpadded : step (step (step c a₁) a₂) 0 = step (step (step c b₁) b₂) 0 :=
      congrArg (step · 0) h
    obtain ⟨rfl, rfl, -⟩ := step_three hpadded
    rfl
  | [a₁, a₂, a₃], [b₁, b₂, b₃], _, _, h =>
    obtain ⟨rfl, rfl, rfl⟩ := step_three h
    rfl

end result_checksum

open result_checksum in
/-- **Checksum**: two different results of one size that agree outside of three
    consecutive bytes have different checksums. -/
theorem result_checksum_detects {result result' : Array Byte} (i : Nat)
    (hsize : result.size = result'.size)
    (hsame : ∀ j, j < i ∨ i + 3 ≤ j → result[j]? = result'[j]?)
    (hne : result ≠ result') : result_checksum result ≠ result_checksum result' := by
  intro h
  apply hne
  -- Before, within and behind the window.
  have hsplit : ∀ l : List Byte, l = l.take i ++ (l.drop i).take 3 ++ l.drop (i + 3) := by
    intro l
    rw [← List.drop_drop, List.append_assoc, List.take_append_drop, List.take_append_drop]
  have hfront : result.toList.take i = result'.toList.take i := by
    apply List.ext_getElem?
    intro j
    rw [List.getElem?_take, List.getElem?_take]
    split
    · next hj => simpa using hsame j (.inl hj)
    · rfl
  have hback : result.toList.drop (i + 3) = result'.toList.drop (i + 3) := by
    apply List.ext_getElem?
    intro j
    rw [List.getElem?_drop, List.getElem?_drop]
    simpa using hsame (i + 3 + j) (.inr (Nat.le_add_right _ j))
  rw [result_checksum, result_checksum, ← Array.foldl_toList, ← Array.foldl_toList,
    hsplit result.toList, hsplit result'.toList, List.foldl_append, List.foldl_append,
    List.foldl_append, List.foldl_append, hfront, hback] at h
  have hwindow := foldl_window_injective (by simp [hsize]) (by simp) (foldl_injective _ h)
  apply Array.toList_inj.mp
  rw [hsplit result.toList, hsplit result'.toList, hfront, hwindow, hback]

/-- Two results that differ in their second and third byte. -/
theorem result_checksum_detects_small :
    result_checksum #[1, 2, 3, 4] ≠ result_checksum #[1, 7, 8, 4] := by
  refine @result_checksum_detects #[1, 2, 3, 4] #[1, 7, 8, 4] 1 rfl ?_ (by decide)
  intro j hj
  rcases hj with hj | hj
  · obtain rfl : j = 0 := by omega
    rfl
  · rcases Nat.lt_or_ge j 5 with hlt | hge
    · obtain rfl : j = 4 := by omega
      rfl
    · rw [Array.getElem?_eq_none (by simp; omega), Array.getElem?_eq_none (by simp; omega)]

/-! ## Medians -/

section median

variable {D : Type} [LinearOrder D] (mid : D → D → D)

/-- `std::sort` and the middle of the sorted values; `mid` is half of the sum of
    two. The index before the middle wraps. -/
def median (values : Array D) : Comp D := do
  let values := (values.toList.mergeSort fun a b => decide (a ≤ b)).toArray
  let middle_pos := values.size / 2
  if values.size % 2 ≠ 0 then
    load values middle_pos
  else
    return mid (← load values ((middle_pos + (2 ^ 64 - 1)) % 2 ^ 64)) (← load values middle_pos)

/-- At least half of the values are not above `m`, and half not below. -/
structure IsMedian (values : Array D) (m : D) : Prop where
  half_le : values.size ≤ 2 * values.toList.countP (fun v => decide (v ≤ m))
  half_ge : values.size ≤ 2 * values.toList.countP (fun v => decide (m ≤ v))

/-- A minority of values cannot move a median out of the range of the others. -/
theorem IsMedian.mem_of_majority {values : Array D} {m lo hi : D} (h : IsMedian values m)
    (hmajority : values.size < 2 * values.toList.countP (fun v => decide (lo ≤ v ∧ v ≤ hi))) :
    lo ≤ m ∧ m ≤ hi := by
  -- Values on the wrong side of `m` would be too many together with the majority.
  have hdisjoint : ∀ p : D → Bool, (∀ v, (lo ≤ v ∧ v ≤ hi) → p v = false) →
      2 * values.toList.countP p < values.size := by
    intro p hp
    have hsum := List.length_eq_countP_add_countP p (l := values.toList)
    have hle := List.countP_mono_left (l := values.toList)
      (p := fun v => decide (lo ≤ v ∧ v ≤ hi)) (q := fun v => decide ¬p v = true)
      (fun v _ hv => by simpa using hp v (of_decide_eq_true hv))
    rw [Array.length_toList] at hsum
    omega
  constructor
  · by_contra hlt
    have hfew := hdisjoint (fun v => decide (v ≤ m)) fun v hv => by
      simpa using (not_le.mp hlt).trans_le hv.1
    exact absurd h.half_le (by omega)
  · by_contra hlt
    have hfew := hdisjoint (fun v => decide (m ≤ v)) fun v hv => by
      simpa using hv.2.trans_lt (not_le.mp hlt)
    exact absurd h.half_ge (by omega)

section sorted

variable {s : List D} {k : Nat}

/-- In a sorted list the first `k + 1` values are not above the one at `k`. -/
theorem le_countP_le (hs : s.Pairwise (· ≤ ·)) (hk : k < s.length) {m : D} (hm : s[k] ≤ m) :
    k + 1 ≤ s.countP (fun v => decide (v ≤ m)) := by
  have hall : ∀ v ∈ s.take (k + 1), decide (v ≤ m) = true := by
    intro v hv
    obtain ⟨i, hi, rfl⟩ := List.mem_take_iff_getElem.mp hv
    rw [decide_eq_true_eq]
    rcases Nat.lt_or_ge i k with hlt | hge
    · exact (List.pairwise_iff_getElem.mp hs i k (by omega) hk hlt).trans hm
    · obtain rfl : i = k := by omega
      exact hm
  have hcount := List.countP_eq_length.mpr hall
  have hle := (List.take_sublist (k + 1) s).countP_le (p := fun v => decide (v ≤ m))
  rw [hcount, List.length_take] at hle
  omega

/-- ... and those from `k` on are not below it. -/
theorem le_countP_ge (hs : s.Pairwise (· ≤ ·)) (hk : k < s.length) {m : D} (hm : m ≤ s[k]) :
    s.length - k ≤ s.countP (fun v => decide (m ≤ v)) := by
  have hall : ∀ v ∈ s.drop k, decide (m ≤ v) = true := by
    intro v hv
    obtain ⟨i, hi, rfl⟩ := List.mem_drop_iff_getElem.mp hv
    rw [decide_eq_true_eq]
    rcases Nat.eq_zero_or_pos i with rfl | hpos
    · exact hm
    · exact hm.trans (List.pairwise_iff_getElem.mp hs k (k + i) hk (by omega) (by omega))
  have hcount := List.countP_eq_length.mpr hall
  have hle := (List.drop_sublist k s).countP_le (p := fun v => decide (m ≤ v))
  rwa [hcount, List.length_drop] at hle

end sorted

/-- The sorted values. -/
theorem sorted_spec (values : Array D) :
    (values.toList.mergeSort fun a b => decide (a ≤ b)).Pairwise (· ≤ ·) ∧
      (values.toList.mergeSort fun a b => decide (a ≤ b)).Perm values.toList := by
  have hsorted : (values.toList.mergeSort fun a b => decide (a ≤ b)).Pairwise
      fun a b => decide (a ≤ b) = true := List.pairwise_mergeSort
    (fun a b c hab hbc => by simpa using (of_decide_eq_true hab).trans (of_decide_eq_true hbc))
    (fun a b => by simpa using le_total a b) values.toList
  exact ⟨hsorted.imp fun h => of_decide_eq_true h, List.mergeSort_perm _ _⟩

theorem median_returns {values : Array D}
    (hmid : ∀ a ∈ values, ∀ b ∈ values, a ≤ b → a ≤ mid a b ∧ mid a b ≤ b)
    (hpos : 0 < values.size) (hsize : values.size < 2 ^ 64) :
    Returns (median mid values) (IsMedian values) := by
  obtain ⟨hsorted, hperm⟩ := sorted_spec values
  unfold median
  generalize values.toList.mergeSort (fun a b => decide (a ≤ b)) = s at *
  have hlength : s.length = values.size := hperm.length_eq.trans Array.length_toList
  have hcount : ∀ p, s.countP p = values.toList.countP p := fun p => hperm.countP_eq p
  have hmiddle : s.length / 2 < s.length := by omega
  simp only [List.size_toArray]
  by_cases hodd : s.length % 2 ≠ 0
  · rw [if_pos hodd, load_ok (by simpa using hmiddle)]
    apply returns_ok
    have hle := le_countP_le hsorted hmiddle le_rfl
    have hge := le_countP_ge hsorted hmiddle le_rfl
    rw [hcount] at hle hge
    exact ⟨by simp only [List.getElem_toArray]; omega, by simp only [List.getElem_toArray]; omega⟩
  · -- The two middle values, with the median between them.
    have hwrap : (s.length / 2 + (2 ^ 64 - 1)) % 2 ^ 64 = s.length / 2 - 1 := by omega
    have hbefore : s.length / 2 - 1 < s.length := by omega
    rw [if_neg hodd, hwrap, load_ok (by simpa using hbefore), ok_bind,
      load_ok (by simpa using hmiddle), ok_bind]
    apply returns_ok
    have hordered : s[s.length / 2 - 1] ≤ s[s.length / 2] :=
      List.pairwise_iff_getElem.mp hsorted _ _ hbefore hmiddle (by omega)
    have hmem : ∀ {v}, v ∈ s → v ∈ values :=
      fun hv => Array.mem_toList_iff.mp (hperm.mem_iff.mp hv)
    obtain ⟨hlo, hhi⟩ := hmid _ (hmem (List.getElem_mem hbefore)) _
      (hmem (List.getElem_mem hmiddle)) hordered
    have hle := le_countP_le hsorted hbefore hlo
    have hge := le_countP_ge hsorted hmiddle hhi
    rw [hcount] at hle hge
    exact ⟨by simp only [List.getElem_toArray]; omega, by simp only [List.getElem_toArray]; omega⟩

/-- Without a condition on `mid` there is still some result. -/
theorem exists_median {values : Array D} (hpos : 0 < values.size) (hsize : values.size < 2 ^ 64) :
    ∃ m, median mid values = .ok m := by
  have hperm := (sorted_spec values).2
  unfold median
  generalize values.toList.mergeSort (fun a b => decide (a ≤ b)) = s at *
  have hlength : s.length = values.size := hperm.length_eq.trans Array.length_toList
  simp only [List.size_toArray]
  by_cases hodd : s.length % 2 ≠ 0
  · rw [if_pos hodd, load_ok (by simp; omega)]
    exact ⟨_, rfl⟩
  · have hwrap : (s.length / 2 + (2 ^ 64 - 1)) % 2 ^ 64 = s.length / 2 - 1 := by omega
    rw [if_neg hodd, hwrap, load_ok (by simp; omega), ok_bind, load_ok (by simp; omega), ok_bind]
    exact ⟨_, rfl⟩

/-- Sorting forgets the order in which the runs were measured. -/
theorem median_perm {values values' : Array D} (h : values.toList.Perm values'.toList) :
    median mid values = median mid values' := by
  obtain ⟨hsorted, hperm⟩ := sorted_spec values
  obtain ⟨hsorted', hperm'⟩ := sorted_spec values'
  have heq := ((hperm.trans h).trans hperm'.symm).eq_of_pairwise
    (fun a b _ _ hab hba => le_antisymm hab hba) hsorted hsorted'
  rw [median, heq, median]

/-- **Median**: only an empty vector has none, the order of the runs does not
    matter, and a minority of outliers cannot move it out of the range of the
    others. A linear order has no NaN, and the values must be such that `mid` of
    two of them lies between them: a sum of doubles that overflows does not. -/
theorem median_spec :
    median mid #[] = .error .bounds ∧
    (∀ values : Array D, 0 < values.size → values.size < 2 ^ 64 →
      (∀ a ∈ values, ∀ b ∈ values, a ≤ b → a ≤ mid a b ∧ mid a b ≤ b) →
      Returns (median mid values) fun m => IsMedian values m ∧
        ∀ lo hi, values.size < 2 * values.toList.countP (fun v => decide (lo ≤ v ∧ v ≤ hi)) →
          lo ≤ m ∧ m ≤ hi) ∧
    (∀ values values' : Array D, values.toList.Perm values'.toList →
      median mid values = median mid values') := by
  refine ⟨?_, fun values hpos hsize hmid => ?_, fun values values' => median_perm mid⟩
  · simp [median, load]
  · apply (median_returns mid hmid hpos hsize).mono
    intro m hm
    exact ⟨hm, fun lo hi => hm.mem_of_majority⟩

end median

/-- Six runs, one of them an outlier. -/
theorem median_spec_six :
    Returns (median (fun a b : Nat => (a + b) / 2) #[7, 900, 6, 8, 7, 9]) fun m =>
      IsMedian #[7, 900, 6, 8, 7, 9] m ∧ ∀ lo hi, 6 < 2 * ([7, 900, 6, 8, 7, 9] : List Nat).countP
        (fun v => decide (lo ≤ v ∧ v ≤ hi)) → lo ≤ m ∧ m ≤ hi :=
  (median_spec fun a b : Nat => (a + b) / 2).2.1 #[7, 900, 6, 8, 7, 9] (by decide) (by decide)
    fun a _ b _ hab => by omega

/-! ## The output file -/

/-- `enum class Mode` of the benchmark. -/
inductive Mode where
  | scalar
  | batch
  deriving DecidableEq, Repr

def Mode.to_string : Mode → String
  | .scalar => "scalar"
  | .batch => "batch"

/-- `struct BenchmarkResult`; `D` are the doubles. -/
structure BenchmarkResult (D : Type) where
  implementation_name : String
  insert_mode : Mode
  probe_mode : Mode
  fp_rate : D
  build_cycles : D
  insert_cycles_per_tuple : D
  probe_hit_cycles_per_tuple : D
  probe_miss_cycles_per_tuple : D
  probe_mixed_cycles_per_tuple : D
  build_s : D
  insert_ns_per_tuple : D
  probe_hit_ns_per_tuple : D
  probe_miss_ns_per_tuple : D
  probe_mixed_ns_per_tuple : D

def csvHeader : String :=
  "implementation,insert_mode,probe_mode,fp_rate," ++
  "build_cycles," ++
  "insert_cycles_per_tuple,probe_hit_cycles_per_tuple," ++
  "probe_miss_cycles_per_tuple,probe_mixed_cycles_per_tuple," ++
  "build_s," ++
  "insert_ns_per_tuple,probe_hit_ns_per_tuple," ++
  "probe_miss_ns_per_tuple,probe_mixed_ns_per_tuple\n"

section file

variable {D : Type} (format : D → String)

/-- One round of the loop; `format` prints a double with 12 digits. -/
def csvLine (i : BenchmarkResult D) : String :=
  i.implementation_name ++ "," ++
  i.insert_mode.to_string ++ "," ++
  i.probe_mode.to_string ++ "," ++
  format i.fp_rate ++ "," ++
  format i.build_cycles ++ "," ++
  format i.insert_cycles_per_tuple ++ "," ++
  format i.probe_hit_cycles_per_tuple ++ "," ++
  format i.probe_miss_cycles_per_tuple ++ "," ++
  format i.probe_mixed_cycles_per_tuple ++ "," ++
  format i.build_s ++ "," ++
  format i.insert_ns_per_tuple ++ "," ++
  format i.probe_hit_ns_per_tuple ++ "," ++
  format i.probe_miss_ns_per_tuple ++ "," ++
  format i.probe_mixed_ns_per_tuple ++ "\n"

/-- What is sent to the file. `opened` says whether it could be opened; if not,
    the text of the exception is the error. Whether the file takes the text is
    never asked: it is in the file if the writes succeed. -/
def write_csv (opened : Bool) (path : String) (res : List (BenchmarkResult D)) :
    Except String String :=
  if opened then .ok (csvHeader ++ String.join (res.map (csvLine format)))
  else .error ("Could not open output file: " ++ path)

/-! ### Reading the file back -/

/-- The lines of a text whose last line is ended, and their fields. -/
def csvFields (text : String) : List (List String) :=
  (text.toList.splitOn '\n').dropLast.map fun line => (line.splitOn ',').map String.ofList

def Mode.ofString : String → Option Mode
  | "scalar" => some .scalar
  | "batch" => some .batch
  | _ => none

/-- The result in a line, by the names of the columns. -/
def readLine (columns fields : List String) : Option (BenchmarkResult String) := do
  let field := fun name => (columns.zip fields).lookup name
  return {
    implementation_name := ← field "implementation"
    insert_mode := ← Mode.ofString (← field "insert_mode")
    probe_mode := ← Mode.ofString (← field "probe_mode")
    fp_rate := ← field "fp_rate"
    build_cycles := ← field "build_cycles"
    insert_cycles_per_tuple := ← field "insert_cycles_per_tuple"
    probe_hit_cycles_per_tuple := ← field "probe_hit_cycles_per_tuple"
    probe_miss_cycles_per_tuple := ← field "probe_miss_cycles_per_tuple"
    probe_mixed_cycles_per_tuple := ← field "probe_mixed_cycles_per_tuple"
    build_s := ← field "build_s"
    insert_ns_per_tuple := ← field "insert_ns_per_tuple"
    probe_hit_ns_per_tuple := ← field "probe_hit_ns_per_tuple"
    probe_miss_ns_per_tuple := ← field "probe_miss_ns_per_tuple"
    probe_mixed_ns_per_tuple := ← field "probe_mixed_ns_per_tuple" }

/-- The results in a file whose first line names the columns. -/
def read_csv (text : String) : Option (List (BenchmarkResult String)) :=
  match csvFields text with
  | [] => none
  | columns :: lines => lines.mapM (readLine columns)

/-- The result with its doubles printed. -/
def BenchmarkResult.print (i : BenchmarkResult D) : BenchmarkResult String where
  implementation_name := i.implementation_name
  insert_mode := i.insert_mode
  probe_mode := i.probe_mode
  fp_rate := format i.fp_rate
  build_cycles := format i.build_cycles
  insert_cycles_per_tuple := format i.insert_cycles_per_tuple
  probe_hit_cycles_per_tuple := format i.probe_hit_cycles_per_tuple
  probe_miss_cycles_per_tuple := format i.probe_miss_cycles_per_tuple
  probe_mixed_cycles_per_tuple := format i.probe_mixed_cycles_per_tuple
  build_s := format i.build_s
  insert_ns_per_tuple := format i.insert_ns_per_tuple
  probe_hit_ns_per_tuple := format i.probe_hit_ns_per_tuple
  probe_miss_ns_per_tuple := format i.probe_miss_ns_per_tuple
  probe_mixed_ns_per_tuple := format i.probe_mixed_ns_per_tuple

/-- The fields of a line, from left to right. -/
def BenchmarkResult.fields (i : BenchmarkResult D) : List String :=
  [i.implementation_name, i.insert_mode.to_string, i.probe_mode.to_string, format i.fp_rate,
    format i.build_cycles, format i.insert_cycles_per_tuple, format i.probe_hit_cycles_per_tuple,
    format i.probe_miss_cycles_per_tuple, format i.probe_mixed_cycles_per_tuple,
    format i.build_s, format i.insert_ns_per_tuple, format i.probe_hit_ns_per_tuple,
    format i.probe_miss_ns_per_tuple, format i.probe_mixed_ns_per_tuple]

/-- The fields of the header. -/
def columns : List String :=
  ["implementation", "insert_mode", "probe_mode", "fp_rate", "build_cycles",
    "insert_cycles_per_tuple", "probe_hit_cycles_per_tuple", "probe_miss_cycles_per_tuple",
    "probe_mixed_cycles_per_tuple", "build_s", "insert_ns_per_tuple", "probe_hit_ns_per_tuple",
    "probe_miss_ns_per_tuple", "probe_mixed_ns_per_tuple"]

/-- A field that the file can hold. -/
def Plain (s : String) : Prop := ',' ∉ s.toList ∧ '\n' ∉ s.toList

instance (s : String) : Decidable (Plain s) :=
  inferInstanceAs (Decidable (',' ∉ s.toList ∧ '\n' ∉ s.toList))

theorem csvLine_eq (i : BenchmarkResult D) :
    csvLine format i = ",".intercalate (i.fields format) ++ "\n" := by
  rw [← String.toList_inj]
  unfold csvLine BenchmarkResult.fields
  simp only [String.intercalate_cons_cons, String.intercalate_singleton, String.toList_append,
    List.append_assoc]

theorem csvHeader_eq : csvHeader = ",".intercalate columns ++ "\n" := by
  decide +kernel

/-- Columns and fields stand in the same order. -/
theorem readLine_fields (i : BenchmarkResult D) :
    readLine columns (i.fields format) = some (i.print format) := by
  have hmode : ∀ m : Mode, Mode.ofString m.to_string = some m := by
    intro m
    cases m <;> rfl
  simp [readLine, columns, BenchmarkResult.fields, BenchmarkResult.print, hmode, List.lookup_cons]

/-! ### Round trip -/

/-- Lines that are ended one by one. -/
theorem splitOn_lines {lines : List (List Char)} (h : ∀ line ∈ lines, '\n' ∉ line) :
    (lines.flatMap fun line => line ++ ['\n']).splitOn '\n' = lines ++ [[]] := by
  induction lines with
  | nil => rfl
  | cons line lines ih =>
    have hline := h line List.mem_cons_self
    have hrest := ih fun l hl => h l (List.mem_cons_of_mem line hl)
    rw [List.flatMap_cons, List.append_assoc, List.singleton_append,
      List.splitOn_append_cons_self_of_not_mem hline, hrest]
    rfl

/-- A line of plain fields is a plain line. -/
theorem newline_notMem_intercalate {fields : List String} (h : ∀ s ∈ fields, Plain s) :
    '\n' ∉ (",".intercalate fields).toList := by
  induction fields with
  | nil => simp
  | cons s fields ih =>
    have hs := (h s List.mem_cons_self).2
    have hrest := ih fun t ht => h t (List.mem_cons_of_mem s ht)
    cases fields with
    | nil => simpa using hs
    | cons t fields =>
      rw [String.intercalate_cons_cons, String.toList_append, String.toList_append,
        List.mem_append, List.mem_append]
      rintro ((hmem | hmem) | hmem)
      · exact hs hmem
      · exact absurd hmem (by decide)
      · exact hrest hmem

/-- A text of lines of plain fields. -/
theorem csvFields_join {rows : List (List String)}
    (h : ∀ fields ∈ rows, fields ≠ [] ∧ ∀ s ∈ fields, Plain s) :
    csvFields (String.join (rows.map fun fields => ",".intercalate fields ++ "\n")) = rows := by
  have htext : (String.join (rows.map fun fields => ",".intercalate fields ++ "\n")).toList =
      (rows.map fun fields => (",".intercalate fields).toList).flatMap
        fun line => line ++ ['\n'] := by
    rw [String.toList_join, List.flatMap_map, List.flatMap_map]
    apply List.flatMap_congr
    intro fields _
    exact String.toList_append
  have hlines : ∀ line ∈ rows.map fun fields => (",".intercalate fields).toList,
      '\n' ∉ line := by
    intro line hline
    obtain ⟨fields, hfields, rfl⟩ := List.mem_map.mp hline
    exact newline_notMem_intercalate (h fields hfields).2
  rw [csvFields, htext, splitOn_lines hlines, List.dropLast_concat, List.map_map]
  -- Within a line the commas separate exactly the fields.
  conv_rhs => rw [← List.map_id rows]
  apply List.map_congr_left
  intro fields hfields
  obtain ⟨hne, hplain⟩ := h fields hfields
  have hcommas : ∀ l ∈ fields.map String.toList, ',' ∉ l := by
    intro l hl
    obtain ⟨s, hs, rfl⟩ := List.mem_map.mp hl
    exact (hplain s hs).1
  show ((",".intercalate fields).toList.splitOn ',').map String.ofList = fields
  rw [String.toList_intercalate, show ",".toList = [','] from rfl,
    List.splitOn_intercalate ',' hcommas (by simpa using hne), List.map_map]
  simp

/-- A file of plain fields, with its header. -/
theorem read_csv_lines {res : List (BenchmarkResult D)} (hformat : ∀ d, Plain (format d))
    (hname : ∀ i ∈ res, Plain i.implementation_name) :
    read_csv (csvHeader ++ String.join (res.map (csvLine format))) =
      some (res.map (BenchmarkResult.print format)) := by
  have hplain : ∀ i ∈ res, ∀ s ∈ i.fields format, Plain s := by
    intro i hi s hs
    have hmode : ∀ m : Mode, Plain m.to_string := by
      intro m
      cases m <;> decide
    simp only [BenchmarkResult.fields, List.mem_cons, List.not_mem_nil, or_false] at hs
    rcases hs with rfl | rfl | rfl | hs
    · exact hname i hi
    · exact hmode _
    · exact hmode _
    · rcases hs with rfl | rfl | rfl | rfl | rfl | rfl | rfl | rfl | rfl | rfl | rfl <;>
        exact hformat _
  have htext : csvHeader ++ String.join (res.map (csvLine format)) =
      String.join ((columns :: res.map (BenchmarkResult.fields format)).map
        fun fields => ",".intercalate fields ++ "\n") := by
    rw [List.map_cons, String.join_cons, ← csvHeader_eq, List.map_map]
    simp only [Function.comp_def, ← csvLine_eq]
  have hfields : csvFields (csvHeader ++ String.join (res.map (csvLine format))) =
      columns :: res.map (BenchmarkResult.fields format) := by
    rw [htext]
    apply csvFields_join
    intro fields hmem
    rcases List.mem_cons.mp hmem with rfl | hmem
    · exact ⟨by decide, by decide⟩
    · obtain ⟨i, hi, rfl⟩ := List.mem_map.mp hmem
      exact ⟨by simp [BenchmarkResult.fields], hplain i hi⟩
  rw [read_csv, hfields]
  show (res.map (BenchmarkResult.fields format)).mapM (readLine columns) = _
  have hread : readLine columns ∘ BenchmarkResult.fields format =
      fun i => pure (BenchmarkResult.print format i) := funext fun i => readLine_fields format i
  rw [List.mapM_map, hread, List.mapM_pure]
  rfl

/-- **Round trip**: whoever reads what was sent to the file, by the names of its
    columns, gets the results, or the exception if it could not be opened. -/
theorem read_csv_write_csv (opened : Bool) (path : String) (res : List (BenchmarkResult D))
    (hformat : ∀ d, Plain (format d)) (hname : ∀ i ∈ res, Plain i.implementation_name) :
    read_csv <$> write_csv format opened path res =
      if opened then .ok (some (res.map (BenchmarkResult.print format)))
      else .error ("Could not open output file: " ++ path) := by
  unfold write_csv
  split
  · exact congrArg Except.ok (read_csv_lines format hformat hname)
  · rfl

end file

/-- Two rows, with the doubles 0 and 0.5. -/
theorem read_csv_write_csv_two :
    read_csv <$> write_csv (fun half : Bool => if half then "0.5" else "0") true "out.csv"
        [⟨"ArrowBloomFilter", .scalar, .scalar, false, true, true, true, true, true, true, true,
            true, true, true⟩,
          ⟨"ArrowBloomFilter_avx2", .batch, .batch, false, true, true, true, true, true, true,
            true, true, true, true⟩] =
      .ok (some ([⟨"ArrowBloomFilter", .scalar, .scalar, false, true, true, true, true,
            true, true, true, true, true, true⟩,
          ⟨"ArrowBloomFilter_avx2", .batch, .batch, false, true, true, true, true, true, true,
            true, true, true, true⟩].map
        (BenchmarkResult.print fun half => if half then "0.5" else "0"))) :=
  read_csv_write_csv (fun half : Bool => if half then "0.5" else "0") true "out.csv" _ (by decide)
    (by decide)

end BloomFilters
