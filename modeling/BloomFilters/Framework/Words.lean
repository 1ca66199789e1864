import Mathlib.Data.Finset.Card
import Mathlib.Data.Set.Card
import Mathlib.Tactic.ByContra
import Mathlib.Algebra.Group.Nat.Defs
import Mathlib.Data.Nat.Size

/-! # Words

    Facts about `w`-bit words that Lean's `BitVec` library leaves to its
    users:

    * `bitCount`: the number of set bits, under setting a bit and under
      rotation.
    * **Smearing**: or-ing in shifted copies of a word, with doubling
      shifts, fills all positions below its top bit.
    * **Invertible mixing**: an xor-shift by at least half of the width
      is its own inverse, and a product with an odd constant is undone by
      the inverse constant.
-/

namespace Words

variable {w : Nat}

/-! ## Counting set bits -/

/-- The positions of the set bits. -/
def setBits (x : BitVec w) : Finset Nat := (Finset.range w).filter fun i => x.getLsbD i = true

/-- The number of set bits. -/
def bitCount (x : BitVec w) : Nat := (setBits x).card

@[simp] theorem mem_setBits {x : BitVec w} {i : Nat} : i ∈ setBits x ↔ x.getLsbD i = true := by
  unfold setBits
  rw [Finset.mem_filter, Finset.mem_range]
  exact ⟨fun h => h.2, fun h => ⟨BitVec.lt_of_getLsbD h, h⟩⟩

@[simp] theorem bitCount_zero : bitCount 0#w = 0 := by
  simp [bitCount, setBits]

/-- Setting a bit that is clear adds one to the count. -/
theorem bitCount_or_twoPow {x : BitVec w} {b : Nat} (hb : b < w) (hclear : x.getLsbD b = false) :
    bitCount (x ||| BitVec.twoPow w b) = bitCount x + 1 := by
  have hinsert : setBits (x ||| BitVec.twoPow w b) = insert b (setBits x) := by
    ext i
    rw [mem_setBits, Finset.mem_insert, mem_setBits, BitVec.getLsbD_or, BitVec.getLsbD_twoPow]
    simp only [hb, decide_true, Bool.true_and, Bool.or_eq_true, decide_eq_true_eq]
    -- Old bits and the new one, in the order of `insert`.
    rw [or_comm, eq_comm]
  have hnot : b ∉ setBits x := by simp [hclear]
  rw [bitCount, hinsert, Finset.card_insert_of_notMem hnot, bitCount]

/-- A single bit meets a word iff the word has it set. -/
theorem and_twoPow_eq_zero {x : BitVec w} {b : Nat} (hb : b < w) :
    x &&& BitVec.twoPow w b = 0 ↔ x.getLsbD b = false := by
  constructor
  · intro h
    have hbit := congrArg (fun y : BitVec w => y.getLsbD b) h
    simpa [hb] using hbit
  · intro h
    apply BitVec.eq_of_getLsbD_eq
    intro i hi
    rw [BitVec.getLsbD_and, BitVec.getLsbD_twoPow]
    by_cases hib : b = i
    · subst hib
      simp [h]
    · simp [hib]

/-! ## Masking and rotating -/

/-- A mask of `k` ones keeps the remainder by `2 ^ k`. -/
theorem toNat_and_of_ones {x m : BitVec w} {k : Nat} (hm : m.toNat = 2 ^ k - 1) :
    (x &&& m).toNat = x.toNat % 2 ^ k := by
  rw [BitVec.toNat_and, hm, Nat.and_two_pow_sub_one_eq_mod]

/-- The mask that code builds with a shift and a decrement. -/
theorem toNat_lowMask {k : Nat} (hk : k < w) : (1#w <<< k - 1).toNat = 2 ^ k - 1 := by
  have hpow : 2 ^ k < 2 ^ w := Nat.pow_lt_pow_right (by omega) hk
  have hone : (1#w).toNat = 1 := by
    rw [BitVec.toNat_ofNat]
    exact Nat.mod_eq_of_lt (Nat.one_lt_two_pow (by omega))
  have hshift : (1#w <<< k).toNat = 2 ^ k := by
    rw [BitVec.toNat_shiftLeft, hone, Nat.shiftLeft_eq, Nat.one_mul]
    exact Nat.mod_eq_of_lt hpow
  have hle : (1 : BitVec w) ≤ 1#w <<< k := by
    rw [BitVec.le_def, hshift]
    exact hone.trans_le Nat.one_le_two_pow
  rw [BitVec.toNat_sub_of_le hle, hshift]
  exact congrArg (2 ^ k - ·) hone

theorem toNat_and_lowMask {x : BitVec w} {k : Nat} (hk : k < w) :
    (x &&& (1#w <<< k - 1)).toNat = x.toNat % 2 ^ k :=
  toNat_and_of_ones (toNat_lowMask hk)

theorem getLsbD_lowMask {k j : Nat} (hk : k < w) :
    (1#w <<< k - 1).getLsbD j = decide (j < k) := by
  rw [← BitVec.testBit_toNat, toNat_lowMask hk, Nat.testBit_two_pow_sub_one]

/-- **Residues**: each remainder by `2 ^ k` is that of equally many words. -/
theorem ncard_toNat_mod {k p : Nat} (hk : k ≤ w) (hp : p < 2 ^ k) :
    {x : BitVec w | x.toNat % 2 ^ k = p}.ncard = 2 ^ (w - k) := by
  have hpow : 2 ^ w = 2 ^ (w - k) * 2 ^ k := by
    rw [← pow_add, Nat.sub_add_cancel hk]
  have hlt : ∀ q, q < 2 ^ (w - k) → q * 2 ^ k + p < 2 ^ w := by
    intro q hq
    have hle : (q + 1) * 2 ^ k ≤ 2 ^ (w - k) * 2 ^ k := Nat.mul_le_mul_right _ hq
    rw [Nat.succ_mul] at hle
    omega
  -- The words with remainder `p` are `q * 2 ^ k + p`, one for each quotient `q`.
  have himage : {x : BitVec w | x.toNat % 2 ^ k = p} =
      Set.image (fun q => BitVec.ofNat w (q * 2 ^ k + p)) (Finset.range (2 ^ (w - k))) := by
    ext x
    rw [Set.mem_ofPred_eq, Set.mem_image]
    constructor
    · intro hx
      refine ⟨x.toNat / 2 ^ k, ?_, ?_⟩
      · rw [Finset.mem_coe, Finset.mem_range, Nat.div_lt_iff_lt_mul (Nat.two_pow_pos k), ← hpow]
        exact x.isLt
      · rw [← hx, Nat.div_add_mod', BitVec.ofNat_toNat, BitVec.setWidth_eq]
    · intro hx
      obtain ⟨q, hq, rfl⟩ := hx
      rw [Finset.mem_coe, Finset.mem_range] at hq
      rw [BitVec.toNat_ofNat, Nat.mod_eq_of_lt (hlt q hq), Nat.mul_add_mod', Nat.mod_eq_of_lt hp]
  -- Different quotients give different words.
  have hinj : Set.InjOn (fun q => BitVec.ofNat w (q * 2 ^ k + p))
      (Finset.range (2 ^ (w - k)) : Set Nat) := by
    intro q hq q' hq' heq
    rw [Finset.mem_coe, Finset.mem_range] at hq hq'
    have hnat := congrArg BitVec.toNat heq
    simp only [BitVec.toNat_ofNat, Nat.mod_eq_of_lt (hlt q hq),
      Nat.mod_eq_of_lt (hlt q' hq')] at hnat
    exact Nat.eq_of_mul_eq_mul_right (Nat.two_pow_pos k) (Nat.add_right_cancel hnat)
  rw [himage, hinj.ncard_image, Set.ncard_coe_finset, Finset.card_range]

/-- A rotation from two variable shifts, one of which may be by `w`. -/
theorem shl_or_shr_eq_rotateLeft {x : BitVec w} {r : Nat} (hr : r < w) :
    x <<< r ||| x >>> (w - r) = x.rotateLeft r := by
  rw [BitVec.rotateLeft, BitVec.rotateLeftAux, Nat.mod_eq_of_lt hr]

/-- Where a rotation by `r` takes bit `i`. -/
theorem rotate_index {r i : Nat} (hr : r < w) (hi : i < w) :
    (i + r) % w = if i + r < w then i + r else i + r - w := by
  split
  · next h => exact Nat.mod_eq_of_lt h
  · next h => rw [Nat.mod_eq_sub_mod (by omega), Nat.mod_eq_of_lt (by omega)]

/-- Which bit a rotation by `r` takes to position `j`. -/
theorem rotate_index_back {r j : Nat} (hr : r < w) (hj : j < w) :
    ((j + (w - r)) % w + r) % w = j := by
  rw [Nat.mod_add_mod, show j + (w - r) + r = j + w from by omega, Nat.add_mod_right,
    Nat.mod_eq_of_lt hj]

/-- Rotation moves bit `i` to that position. -/
theorem getLsbD_rotateLeft_add {x : BitVec w} {r i : Nat} (hr : r < w) (hi : i < w) :
    (x.rotateLeft r).getLsbD ((i + r) % w) = x.getLsbD i := by
  rw [BitVec.getLsbD_rotateLeft, Nat.mod_eq_of_lt hr, rotate_index hr hi]
  -- The bit stays below the width, or it comes in again at the low end.
  split
  · next h =>
    have hnot : ¬ i + r < r := by omega
    simp [h, hnot]
  · next h =>
    have hlt : i + r - w < r := by omega
    have hback : w - r + (i + r - w) = i := by omega
    simp [hlt, hback]

/-- Rotation keeps the number of set bits. -/
theorem bitCount_rotateLeft {x : BitVec w} {r : Nat} (hr : r < w) :
    bitCount (x.rotateLeft r) = bitCount x := by
  symm
  -- The rotation moves the set positions, one to one.
  refine Finset.card_bij (fun i _ => (i + r) % w) ?_ ?_ ?_
  · intro i hi
    rw [mem_setBits] at hi ⊢
    rwa [getLsbD_rotateLeft_add hr (BitVec.lt_of_getLsbD hi)]
  · intro i hi j hj hij
    have hiw := BitVec.lt_of_getLsbD (mem_setBits.mp hi)
    have hjw := BitVec.lt_of_getLsbD (mem_setBits.mp hj)
    simp only [rotate_index hr hiw, rotate_index hr hjw] at hij
    split at hij <;> split at hij <;> omega
  · intro j hj
    have hjw := BitVec.lt_of_getLsbD (mem_setBits.mp hj)
    have hback := rotate_index_back hr hjw
    have hlt : (j + (w - r)) % w < w := Nat.mod_lt _ (by omega)
    refine ⟨(j + (w - r)) % w, ?_, hback⟩
    rw [mem_setBits] at hj ⊢
    rwa [← getLsbD_rotateLeft_add hr hlt, hback]

/-- A rotation to the right reads bit `i` from `r` places further up. -/
theorem getLsbD_rotateRight_eq {x : BitVec w} {r i : Nat} (hr : r < w) (hi : i < w) :
    (x.rotateRight r).getLsbD i = x.getLsbD ((i + r) % w) := by
  rw [BitVec.getLsbD_rotateRight, Nat.mod_eq_of_lt hr, rotate_index hr hi]
  split
  · next h =>
    have hlt : i < w - r := by omega
    simp [hlt, Nat.add_comm]
  · next h =>
    have hnot : ¬ i < w - r := by omega
    have hback : i - (w - r) = i + r - w := by omega
    simp [hi, hnot, hback]

/-- A rotation loses no bit. -/
theorem rotateRight_injective {r : Nat} (hr : r < w) :
    Function.Injective fun x : BitVec w => x.rotateRight r := by
  intro x y h
  apply BitVec.eq_of_getLsbD_eq
  intro j hj
  -- Bit `j` can be read off the rotated word at the position it was moved to.
  have hlt : (j + (w - r)) % w < w := Nat.mod_lt _ (by omega)
  have hbit := congrArg (fun z : BitVec w => z.getLsbD ((j + (w - r)) % w)) h
  simpa only [getLsbD_rotateRight_eq hr hlt, rotate_index_back hr hj] using hbit

/-! ## Smearing -/

/-- Bit `j` of `y` says whether `x` has one of the `s` bits from `j` on. -/
def Smeared (x y : BitVec w) (s : Nat) : Prop :=
  ∀ j, y.getLsbD j = true ↔ ∃ d, d < s ∧ x.getLsbD (j + d) = true

theorem smeared_self (x : BitVec w) : Smeared x x 1 := by
  intro j
  constructor
  · intro hj
    exact ⟨0, Nat.one_pos, hj⟩
  · intro h
    obtain ⟨d, hd, hbit⟩ := h
    have hd0 : d = 0 := by omega
    rwa [hd0] at hbit

/-- A copy shifted by the reach so far doubles the reach. -/
theorem Smeared.double {x y : BitVec w} {s : Nat} (h : Smeared x y s) :
    Smeared x (y ||| y >>> s) (s + s) := by
  intro j
  rw [BitVec.getLsbD_or, BitVec.getLsbD_ushiftRight, Bool.or_eq_true, h j, h (s + j)]
  constructor
  · intro hbit
    -- The upper copy reaches the offsets from `s` on.
    rcases hbit with ⟨d, hd, hbit⟩ | ⟨d, hd, hbit⟩
    · exact ⟨d, by omega, hbit⟩
    · refine ⟨s + d, by omega, ?_⟩
      rwa [show j + (s + d) = s + j + d from by omega]
  · intro hbit
    obtain ⟨d, hd, hbit⟩ := hbit
    -- Offset `d` is reached by `y` itself or by its shifted copy.
    rcases Nat.lt_or_ge d s with hlt | hge
    · exact Or.inl ⟨d, hlt, hbit⟩
    · refine Or.inr ⟨d - s, by omega, ?_⟩
      rwa [show s + j + (d - s) = j + d from by omega]

/-- The loop `for (i = 1; i < 2 ^ m; i <<= 1) x |= x >> i`. -/
theorem smeared_foldl (x : BitVec w) (m : Nat) :
    Smeared x (((List.range m).map (2 ^ ·)).foldl (fun y i => y ||| y >>> i) x) (2 ^ m) := by
  induction m with
  | zero => exact smeared_self x
  | succ m ih =>
    rw [List.range_succ, List.map_append, List.foldl_append, Nat.pow_succ, Nat.mul_two]
    exact ih.double

/-- Smeared over its whole width, a word has every bit below its top bit. -/
theorem Smeared.toNat_eq {x y : BitVec w} {s : Nat} (h : Smeared x y s) (hs : w ≤ s) :
    y.toNat = 2 ^ Nat.size x.toNat - 1 := by
  apply Nat.eq_of_testBit_eq
  intro j
  rw [Nat.testBit_two_pow_sub_one, Bool.eq_iff_iff, decide_eq_true_eq, Nat.lt_size,
    BitVec.testBit_toNat, h j]
  -- Bit `j` is set iff `j` is below the top bit of `x`.
  constructor
  · intro hbit
    obtain ⟨d, -, hbit⟩ := hbit
    rw [← BitVec.testBit_toNat] at hbit
    exact (Nat.pow_le_pow_right (by omega) (Nat.le_add_right j d)).trans
      (Nat.ge_two_pow_of_testBit hbit)
  · intro hle
    obtain ⟨i, hij, hbit⟩ := Nat.exists_ge_and_testBit_of_ge_two_pow hle
    rw [BitVec.testBit_toNat] at hbit
    have hiw := BitVec.lt_of_getLsbD hbit
    refine ⟨i - j, by omega, ?_⟩
    rwa [Nat.add_sub_cancel' hij]

/-! ## Invertible mixing -/

/-- `x ^ (x >> s)`. -/
def xorShift (x : BitVec w) (s : Nat) : BitVec w := x ^^^ (x >>> s)

/-- A shift by at least half of the width makes the xor-shift its own
    inverse: the shifted copies of the second round fall off the word. -/
theorem xorShift_xorShift {x : BitVec w} {s : Nat} (hs : w ≤ s + s) :
    xorShift (xorShift x s) s = x := by
  have hzero : x >>> s >>> s = 0#w := by
    rw [← BitVec.shiftRight_add, BitVec.ushiftRight_eq_zero hs]
  rw [xorShift, xorShift, BitVec.ushiftRight_xor_distrib, hzero, BitVec.xor_zero,
    BitVec.xor_assoc, BitVec.xor_self, BitVec.xor_zero]

/-- A product with `c` is undone by an inverse of `c`. -/
theorem mul_mul_of_inverse {x c d : BitVec w} (h : c * d = 1#w) : x * c * d = x := by
  rw [BitVec.mul_assoc, h, BitVec.mul_one]

end Words
