import BloomFilters.Framework.Footprint
import Mathlib.Data.FinEnum
import Mathlib.Tactic.Ring

/-! # Balanced maps

    A map between finite types is *balanced* when it takes every set of
    values with the frequency that the set has among all values. For a map
    from keys to positions this says that no position is preferred.

    * **Rules**: permutations are balanced, so are compositions, and a
      permutation of one part that depends on the other keeps the balance.
    * **Criterion**: a map is balanced if its fibres can be mapped into each
      other; fields of bits are.
    * **Filters**: if one position of every key is balanced, the keys that a
      filter reports are at most the fraction of positions that it stores.
-/

namespace Balance

variable {K L P Q : Type*}

/-- Of the keys, those with a value in `S` are the fraction that `S` is of
    the values. -/
def Balanced (f : K → P) : Prop :=
  ∀ S : Set P, (Set.preimage f S).ncard * Nat.card P = S.ncard * Nat.card K

/-! ## Rules -/

theorem balanced_of_bijective {f : K → P} (hf : Function.Bijective f) : Balanced f := by
  intro S
  have hpre : (Set.preimage f S).ncard = S.ncard :=
    Set.ncard_preimage_of_injective_subset_range hf.injective (by simp [hf.surjective.range_eq])
  rw [hpre, Nat.card_eq_of_bijective f hf]

theorem Balanced.comp [Finite P] [Nonempty P] {g : P → Q} {f : K → P} (hg : Balanced g)
    (hf : Balanced f) : Balanced (g ∘ f) := by
  intro S
  have hcard : 0 < Nat.card P := Nat.card_pos
  -- The frequency of `S` among the keys is that among the values of `f`.
  apply Nat.eq_of_mul_eq_mul_left hcard
  calc Nat.card P * ((Set.preimage (g ∘ f) S).ncard * Nat.card Q)
      = (Set.preimage f (Set.preimage g S)).ncard * Nat.card P * Nat.card Q := by
        rw [Set.preimage_comp]; ring
    _ = (Set.preimage g S).ncard * Nat.card Q * Nat.card K := by rw [hf]; ring
    _ = Nat.card P * (S.ncard * Nat.card K) := by rw [hg]; ring

theorem balanced_snd : Balanced (Prod.snd : P × Q → Q) := by
  intro S
  have hpre : Set.preimage (Prod.snd : P × Q → Q) S = (Set.univ : Set P) ×ˢ S := by
    ext x; simp
  rw [hpre, Set.ncard_prod, Set.ncard_univ, Nat.card_prod]
  ring

/-- One part of a value may be permuted as another part says. -/
theorem Balanced.twist [Finite P] [Finite Q] [Nonempty P] [Nonempty Q] {f : K → P × Q}
    (hf : Balanced f) {g : P → Q → Q} (hg : ∀ p, Function.Bijective (g p)) :
    Balanced fun k => g (f k).1 (f k).2 := by
  -- Together with the part that steers it, the permuted part is a permutation.
  have hbij : Function.Bijective fun x : P × Q => (x.1, g x.1 x.2) := by
    apply Finite.injective_iff_bijective.mp
    intro x y hxy
    obtain ⟨hfst, hsnd⟩ := Prod.mk.inj hxy
    rw [hfst] at hsnd
    exact Prod.ext hfst ((hg y.1).injective hsnd)
  exact balanced_snd.comp ((balanced_of_bijective hbij).comp hf)

/-! ## Fibres -/

theorem ncard_preimage_of_fibres [Finite K] [Finite P] {f : K → P} {c : Nat}
    (h : ∀ p, {k | f k = p}.ncard = c) (S : Set P) : (Set.preimage f S).ncard = c * S.ncard := by
  induction S, S.toFinite using Set.Finite.induction_on with
  | empty => simp
  | @insert p S hp _ ih =>
    have hsplit : Set.preimage f (Insert.insert p S) = {k | f k = p} ∪ Set.preimage f S := by
      ext k; simp
    -- A key with value `p` has no value in `S`.
    have hdisjoint : Disjoint {k | f k = p} (Set.preimage f S) := by
      rw [Set.disjoint_left]
      intro k hk hkS
      have hkp : f k = p := hk
      exact hp (hkp ▸ hkS)
    rw [hsplit, Set.ncard_union_eq hdisjoint, h, ih, Set.ncard_insert_of_notMem hp]
    ring

theorem balanced_of_fibres [Finite K] [Finite P] {f : K → P} {c : Nat}
    (h : ∀ p, {k | f k = p}.ncard = c) : Balanced f := by
  intro S
  have hall := ncard_preimage_of_fibres h Set.univ
  rw [Set.preimage_univ, Set.ncard_univ, Set.ncard_univ] at hall
  rw [ncard_preimage_of_fibres h, hall]
  ring

/-- **Criterion**: fibres that can be mapped into each other are of one size. -/
theorem balanced_of_homogeneous [Finite K] [Finite P] {f : K → P}
    (h : ∀ p q, ∃ e : K → K, Function.Injective e ∧ ∀ k, f k = p → f (e k) = q) :
    Balanced f := by
  have hle : ∀ p q, {k | f k = p}.ncard ≤ {k | f k = q}.ncard := by
    intro p q
    obtain ⟨e, he, hmaps⟩ := h p q
    exact Set.ncard_le_ncard_of_injOn e (fun k hk => hmaps k hk) he.injOn
  rcases isEmpty_or_nonempty P with hempty | ⟨⟨p₀⟩⟩
  · intro S
    have hK : IsEmpty K := ⟨fun k => hempty.elim (f k)⟩
    simp
  · exact balanced_of_fibres fun p => Nat.le_antisymm (hle p p₀) (hle p₀ p)

/-! ## Fields of bits -/

variable {w : Nat}

theorem card_bitVec (w : Nat) : Nat.card (BitVec w) = 2 ^ w := by
  rw [Nat.card_eq_fintype_card, ← FinEnum.card_eq_fintypeCard, FinEnum.card_bitVec]

/-- A map onto its values that exclusive or respects. -/
theorem balanced_of_xor [Finite P] {f : BitVec w → P} (hsurj : Function.Surjective f)
    (hxor : ∀ x y z, f x = f y → f (x ^^^ z) = f (y ^^^ z)) : Balanced f := by
  apply balanced_of_homogeneous
  intro p q
  obtain ⟨x, rfl⟩ := hsurj p
  obtain ⟨y, rfl⟩ := hsurj q
  refine ⟨fun k => k ^^^ (x ^^^ y), fun k l hkl => (BitVec.xor_left_inj _).mp hkl,
    fun k hk => ?_⟩
  -- What takes `x` to `y` takes the fibre of `x` to that of `y`.
  rw [hxor k x _ hk, ← BitVec.xor_assoc, BitVec.xor_self, BitVec.zero_xor]

theorem balanced_setWidth {k : Nat} (hk : k ≤ w) :
    Balanced fun x : BitVec w => x.setWidth k := by
  apply balanced_of_xor
  · intro y
    refine ⟨y.setWidth w, ?_⟩
    show (y.setWidth w).setWidth k = y
    rw [BitVec.setWidth_setWidth_of_le _ hk, BitVec.setWidth_eq]
  · intro x y z hxy
    have hxy' : x.setWidth k = y.setWidth k := hxy
    simp only [BitVec.setWidth_xor, hxy']

/-- The low `a` bits and the `b` bits from `s` on. -/
def fields (a s b : Nat) (x : BitVec w) : BitVec a × BitVec b :=
  (x.extractLsb' 0 a, x.extractLsb' s b)

theorem fields_surjective {a s b : Nat} (ha : a ≤ s) (hb : s + b ≤ w) :
    Function.Surjective (fields (w := w) a s b) := by
  intro p
  obtain ⟨low, high⟩ := p
  refine ⟨low.setWidth w ||| high.setWidth w <<< s, ?_⟩
  apply Prod.ext
  · apply BitVec.eq_of_getLsbD_eq
    intro i hi
    have hiw : i < w := by omega
    have his : i < s := by omega
    simp [fields, hi, hiw, his]
  · apply BitVec.eq_of_getLsbD_eq
    intro i hi
    have hiw : s + i < w := by omega
    simp [fields, hi, hiw]
    intro hlow
    exact absurd (BitVec.lt_of_getLsbD hlow) (by omega)

/-- Fields that do not overlap are balanced. -/
theorem balanced_fields {a s b : Nat} (ha : a ≤ s) (hb : s + b ≤ w) :
    Balanced (fields (w := w) a s b) := by
  apply balanced_of_xor (fields_surjective ha hb)
  intro x y z hxy
  obtain ⟨hlow, hhigh⟩ := Prod.mk.inj hxy
  simp only [fields, BitVec.extractLsb'_xor, hlow, hhigh]

/-! ## Filters -/

section filters

open Footprint

variable {N : Type*} {F : K → Set N}

/-- Keys with equal slots have equal footprints: the reported keys are the
    fraction that the reported slots are. -/
theorem ncard_reports_eq {slot : K → P} (hslot : Balanced slot) {G : P → Set N}
    (h : ∀ k, G (slot k) = F k) (bits : Set N) :
    {k | Reports F bits k}.ncard * Nat.card P = {p | Reports G bits p}.ncard * Nat.card K := by
  have hpre : {k | Reports F bits k} = Set.preimage slot {p | Reports G bits p} :=
    Set.ext fun k => (reports_relabel h).symm
  rw [hpre]
  exact hslot _

/-- **Reports by chance**: if every key has a balanced position, which `place`
    puts among all, the reported keys are at most the fraction of the
    positions that is stored. -/
theorem ncard_reports_le [Finite K] {pos : K → P} (hpos : Balanced pos) {place : P → N}
    (hplace : Function.Injective place) (hmem : ∀ k, place (pos k) ∈ F k) {bits : Set N}
    (hbits : bits.Finite) :
    {k | Reports F bits k}.ncard * Nat.card P ≤ bits.ncard * Nat.card K := by
  have hstored : (Set.preimage place bits).ncard ≤ bits.ncard :=
    Set.ncard_le_ncard_of_injOn place (fun p hp => hp) hplace.injOn hbits
  -- A reported key has its position stored.
  have hle : {k | Reports F bits k}.ncard ≤ (Set.preimage pos (Set.preimage place bits)).ncard :=
    Set.ncard_le_ncard fun k hk => hk (hmem k)
  calc {k | Reports F bits k}.ncard * Nat.card P
      ≤ (Set.preimage pos (Set.preimage place bits)).ncard * Nat.card P :=
        Nat.mul_le_mul_right _ hle
    _ = (Set.preimage place bits).ncard * Nat.card K := hpos _
    _ ≤ bits.ncard * Nat.card K := Nat.mul_le_mul_right _ hstored

end filters

end Balance
