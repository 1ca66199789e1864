import Mathlib.Data.Set.Lattice
import Mathlib.Tactic.IntervalCases

/-! # Bits of arrays of words

    An array of `w`-bit words is read as one long row of bits: position
    `p` is bit `p % w` of word `p / w`, counted from the low end. Byte
    buffers are the case `w = 8`, tables of 64-bit blocks the case
    `w = 64`.

    * `bitAt`, `bitSet`: one bit, and the set of positions that are set.
    * `wordBits`: the positions of the bits of one word.
    * `packBits`: a buffer whose first bytes spell a row of booleans.
-/

namespace BitArray

variable {w : Nat}

/-! ## Reading bits -/

/-- Bit `p` of an array of words; `false` past its end. -/
def bitAt (a : Array (BitVec w)) (p : Nat) : Bool := (a.getD (p / w) 0).getLsbD (p % w)

/-- The positions that are set. -/
def bitSet (a : Array (BitVec w)) : Set Nat := {p | bitAt a p = true}

@[simp] theorem mem_bitSet {a : Array (BitVec w)} {p : Nat} : p ∈ bitSet a ↔ bitAt a p = true :=
  Iff.rfl

theorem bitAt_of_lt {a : Array (BitVec w)} {p : Nat} (h : p / w < a.size) :
    bitAt a p = a[p / w].getLsbD (p % w) := by
  simp [bitAt, Array.getD, h]

theorem bitAt_of_ge {a : Array (BitVec w)} {p : Nat} (h : a.size ≤ p / w) :
    bitAt a p = false := by
  have hnot : ¬ p / w < a.size := by omega
  simp [bitAt, Array.getD, hnot]

/-- Bit `j` of word `i` is at position `i * w + j`. -/
theorem bitAt_word {a : Array (BitVec w)} {i j : Nat} (hi : i < a.size) (hj : j < w) :
    bitAt a (i * w + j) = a[i].getLsbD j := by
  have hdiv : (i * w + j) / w = i := by
    rw [Nat.mul_comm, Nat.mul_add_div (by omega), Nat.div_eq_of_lt hj, Nat.add_zero]
  have hmod : (i * w + j) % w = j := by
    rw [Nat.mul_comm, Nat.mul_add_mod, Nat.mod_eq_of_lt hj]
  simp [bitAt, Array.getD, hdiv, hmod, hi]

/-- Arrays of one size with the same bits are equal. -/
theorem eq_of_bitAt {a b : Array (BitVec w)} (hsize : a.size = b.size)
    (h : ∀ p, bitAt a p = bitAt b p) : a = b := by
  apply Array.ext hsize
  intro i hi hi'
  apply BitVec.eq_of_getLsbD_eq
  intro j hj
  rw [← bitAt_word hi hj, ← bitAt_word hi' hj]
  exact h _

theorem eq_of_bitSet {a b : Array (BitVec w)} (hsize : a.size = b.size)
    (h : bitSet a = bitSet b) : a = b := by
  apply eq_of_bitAt hsize
  intro p
  have hp : p ∈ bitSet a ↔ p ∈ bitSet b := by rw [h]
  exact Bool.eq_iff_iff.mpr hp

theorem bitAt_set {a : Array (BitVec w)} {i : Nat} {v : BitVec w} (hi : i < a.size) (p : Nat) :
    bitAt (a.set i v) p = if p / w = i then v.getLsbD (p % w) else bitAt a p := by
  -- Past the end both sides read `false`.
  by_cases hp : p / w < a.size
  · rw [bitAt_of_lt (by simpa using hp), bitAt_of_lt hp, Array.getElem_set]
    by_cases hpi : p / w = i
    · rw [if_pos hpi.symm, if_pos hpi]
    · rw [if_neg (fun h => hpi h.symm), if_neg hpi]
  · rw [bitAt_of_ge (by simp; omega), bitAt_of_ge (by omega), if_neg (by omega)]

@[simp] theorem bitAt_replicate_zero (n p : Nat) :
    bitAt (Array.replicate n 0#w) p = false := by
  by_cases hp : p / w < n
  · rw [bitAt_of_lt (by simpa using hp)]
    simp
  · exact bitAt_of_ge (by simp; omega)

@[simp] theorem bitSet_replicate_zero (n : Nat) :
    bitSet (Array.replicate n 0#w) = ∅ := by
  ext p
  simp

/-! ## The bits of one word -/

/-- The positions of the set bits of `m`, taken as word `i` of an array. -/
def wordBits (i : Nat) (m : BitVec w) : Set Nat := {p | p / w = i ∧ m.getLsbD (p % w) = true}

@[simp] theorem mem_wordBits {i p : Nat} {m : BitVec w} :
    p ∈ wordBits i m ↔ p / w = i ∧ m.getLsbD (p % w) = true := Iff.rfl

/-- `a[i] |= m` adds the bits of `m` at word `i`. -/
theorem bitSet_set_or {a : Array (BitVec w)} {i : Nat} {m : BitVec w} (hi : i < a.size) :
    bitSet (a.set i (a[i] ||| m)) = bitSet a ∪ wordBits i m := by
  ext p
  rw [mem_bitSet, bitAt_set hi, Set.mem_union, mem_bitSet, mem_wordBits]
  -- A position is in word `i`, or the store leaves it alone.
  by_cases hp : p / w = i
  · subst hp
    rw [if_pos rfl, bitAt_of_lt hi, BitVec.getLsbD_or]
    simp
  · simp [hp]

/-- The bits of `m` at word `i` lie in `S` iff every set bit of `m` does. -/
theorem wordBits_subset_iff {i : Nat} {m : BitVec w} {S : Set Nat} :
    wordBits i m ⊆ S ↔ ∀ j, j < w → m.getLsbD j = true → i * w + j ∈ S := by
  constructor
  · intro h j hj hm
    refine h ⟨?_, ?_⟩
    · rw [Nat.mul_comm, Nat.mul_add_div (by omega), Nat.div_eq_of_lt hj, Nat.add_zero]
    · rwa [Nat.mul_comm, Nat.mul_add_mod, Nat.mod_eq_of_lt hj]
  · intro h p hp
    obtain ⟨rfl, hm⟩ := hp
    -- A word with a set bit has a positive width.
    have hw : 0 < w := by
      rcases Nat.eq_zero_or_pos w with rfl | hw
      · simp at hm
      · exact hw
    have := h (p % w) (Nat.mod_lt _ hw) hm
    rwa [Nat.mul_comm, Nat.div_add_mod] at this

theorem wordBits_subset_bitSet {a : Array (BitVec w)} {i : Nat} {m : BitVec w}
    (hi : i < a.size) : wordBits i m ⊆ bitSet a ↔ a[i] &&& m = m := by
  rw [wordBits_subset_iff]
  constructor
  · intro h
    apply BitVec.eq_of_getLsbD_eq
    intro j hj
    rw [BitVec.getLsbD_and]
    cases hm : m.getLsbD j with
    | false => simp
    | true =>
      have := h j hj hm
      rw [mem_bitSet, bitAt_word hi hj] at this
      simp [this]
  · intro h j hj hm
    rw [mem_bitSet, bitAt_word hi hj]
    rw [← h, BitVec.getLsbD_and] at hm
    exact (Bool.and_eq_true_iff.mp hm).1

/-- The two forms of the mask test agree. -/
theorem and_not_eq_zero_iff {b m : BitVec w} : m &&& ~~~b = 0 ↔ b &&& m = m := by
  constructor
  · intro h
    apply BitVec.eq_of_getLsbD_eq
    intro j hj
    have hbit := congrArg (fun x : BitVec w => x.getLsbD j) h
    simp only [BitVec.getLsbD_and, BitVec.getLsbD_not, hj, decide_true, Bool.true_and] at hbit ⊢
    -- Bit `j` of both sides, for the four values that the two bits can have.
    cases hm : m.getLsbD j <;> cases hb : b.getLsbD j <;> simp [hm, hb] at hbit ⊢
  · intro h
    apply BitVec.eq_of_getLsbD_eq
    intro j hj
    have hbit := congrArg (fun x : BitVec w => x.getLsbD j) h
    simp only [BitVec.getLsbD_and, BitVec.getLsbD_not, hj, decide_true, Bool.true_and] at hbit ⊢
    cases hm : m.getLsbD j <;> cases hb : b.getLsbD j <;> simp [hm, hb] at hbit ⊢

/-- The bitwise OR of two arrays of one size. -/
def orWords (a b : Array (BitVec w)) : Array (BitVec w) := Array.zipWith (· ||| ·) a b

@[simp] theorem size_orWords {a b : Array (BitVec w)} (h : a.size = b.size) :
    (orWords a b).size = a.size := by
  simp [orWords, h]

theorem bitSet_orWords {a b : Array (BitVec w)} (h : a.size = b.size) :
    bitSet (orWords a b) = bitSet a ∪ bitSet b := by
  ext p
  rw [Set.mem_union, mem_bitSet, mem_bitSet, mem_bitSet]
  -- Past the end of both arrays there is nothing to or.
  by_cases hp : p / w < a.size
  · have hp' : p / w < b.size := by omega
    rw [bitAt_of_lt (by simpa [h] using hp'), bitAt_of_lt hp, bitAt_of_lt hp']
    simp [orWords]
  · rw [bitAt_of_ge (by rw [size_orWords h]; omega), bitAt_of_ge (by omega),
      bitAt_of_ge (by omega)]
    simp

/-! ## Packing booleans into bytes -/

/-- The byte whose bit `k` is `f k`. -/
def byteOf (f : Nat → Bool) : BitVec 8 :=
  BitVec.ofBoolListLE [f 0, f 1, f 2, f 3, f 4, f 5, f 6, f 7]

theorem getLsbD_byteOf (f : Nat → Bool) {k : Nat} (hk : k < 8) : (byteOf f).getLsbD k = f k := by
  unfold byteOf
  rw [BitVec.getLsbD_ofBoolListLE]
  interval_cases k <;> rfl

theorem byteOf_congr {f g : Nat → Bool} (h : ∀ k, k < 8 → f k = g k) : byteOf f = byteOf g := by
  apply BitVec.eq_of_getLsbD_eq
  intro k hk
  rw [getLsbD_byteOf f hk, getLsbD_byteOf g hk, h k hk]

/-- The byte with the bits `f` is the only one. -/
theorem eq_byteOf {b : BitVec 8} {f : Nat → Bool} (h : ∀ k, k < 8 → b.getLsbD k = f k) :
    b = byteOf f := by
  apply BitVec.eq_of_getLsbD_eq
  intro k hk
  rw [getLsbD_byteOf f hk, h k hk]

/-- The buffer `buf` with its first `n` bytes replaced by the booleans
    `f 0, f 1, ...`, eight to a byte from the low end. -/
def packBits (f : Nat → Bool) (n : Nat) (buf : Array (BitVec 8)) : Array (BitVec 8) :=
  buf.mapIdx fun i b => if i < n then byteOf (fun k => f (8 * i + k)) else b

@[simp] theorem size_packBits (f : Nat → Bool) (n : Nat) (buf : Array (BitVec 8)) :
    (packBits f n buf).size = buf.size := by
  simp [packBits]

@[simp] theorem getElem_packBits (f : Nat → Bool) (n : Nat) (buf : Array (BitVec 8)) (i : Nat)
    (hi : i < (packBits f n buf).size) :
    (packBits f n buf)[i] =
      if i < n then byteOf (fun k => f (8 * i + k)) else getElem buf i (by simpa using hi) := by
  simp [packBits]

@[simp] theorem packBits_zero (f : Nat → Bool) (buf : Array (BitVec 8)) :
    packBits f 0 buf = buf := by
  apply Array.ext (by simp)
  intro i hi hi'
  simp

/-- Only the booleans that are written matter. -/
theorem packBits_congr {f g : Nat → Bool} {n : Nat} {buf : Array (BitVec 8)}
    (h : ∀ q, q < 8 * n → f q = g q) : packBits f n buf = packBits g n buf := by
  apply Array.ext (by simp)
  intro i hi hi'
  rw [getElem_packBits, getElem_packBits]
  by_cases hin : i < n
  · rw [if_pos hin, if_pos hin]
    exact byteOf_congr fun k hk => h _ (by omega)
  · rw [if_neg hin, if_neg hin]

/-- Writing the next byte extends the packed part by one byte. -/
theorem set_packBits {f : Nat → Bool} {n : Nat} {buf : Array (BitVec 8)} {b : BitVec 8}
    (hn : n < buf.size) (hb : ∀ k, k < 8 → b.getLsbD k = f (8 * n + k)) :
    (packBits f n buf).set n b (by simpa using hn) = packBits f (n + 1) buf := by
  apply Array.ext (by simp)
  intro i hi hi'
  rw [Array.getElem_set, getElem_packBits, getElem_packBits]
  -- Byte `n` is the new one; the others stay on their side of the bound.
  by_cases hin : n = i
  · subst hin
    rw [if_pos rfl, if_pos (by omega)]
    exact eq_byteOf hb
  · rw [if_neg hin]
    by_cases hlt : i < n
    · rw [if_pos hlt, if_pos (by omega)]
    · rw [if_neg hlt, if_neg (by omega)]

/-- Or-ing bit `i` into its byte sets the boolean at `i`. -/
theorem set_or_packBits {f : Nat → Bool} {n i : Nat} {buf : Array (BitVec 8)}
    (hi : i / 8 < n) (hn : n ≤ buf.size) :
    (packBits f n buf).set (i / 8)
        (getElem (packBits f n buf) (i / 8) (by simp; omega) ||| BitVec.twoPow 8 (i % 8))
        (by simp; omega) =
      packBits (fun q => q = i || f q) n buf := by
  apply Array.ext (by simp)
  intro j hj hj'
  simp only [Array.getElem_set, getElem_packBits, if_pos hi]
  -- The byte of bit `i`, and the bytes beside it.
  by_cases hij : i / 8 = j
  · subst hij
    rw [if_pos rfl, if_pos hi]
    apply eq_byteOf
    intro k hk
    rw [BitVec.getLsbD_or, getLsbD_byteOf _ hk, BitVec.getLsbD_twoPow, Bool.or_comm]
    congr 1
    have hiff : (i % 8 < 8 ∧ i % 8 = k) ↔ 8 * (i / 8) + k = i := by omega
    simp only [← hiff, Bool.decide_and]
  · rw [if_neg hij]
    by_cases hlt : j < n
    · rw [if_pos hlt, if_pos hlt]
      apply byteOf_congr
      intro k hk
      have hne : 8 * j + k ≠ i := by omega
      simp [hne]
    · rw [if_neg hlt, if_neg hlt]

/-- Reading a packed buffer back. -/
theorem bitAt_packBits {f : Nat → Bool} {n q : Nat} {buf : Array (BitVec 8)}
    (hn : n ≤ buf.size) (hq : q < 8 * n) : bitAt (packBits f n buf) q = f q := by
  have hlt : q / 8 < n := by omega
  rw [bitAt_of_lt (by simp; omega), getElem_packBits, if_pos hlt,
    getLsbD_byteOf _ (Nat.mod_lt _ (by omega)), Nat.div_add_mod]

end BitArray
