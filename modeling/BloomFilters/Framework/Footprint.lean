import Mathlib.Data.Set.Lattice
import Mathlib.Data.Set.Card

/-! # Footprints: what a Bloom filter is

    A Bloom filter gives every key a set of positions, its *footprint*,
    and stores one set of positions. Inserting a key adds its footprint;
    a key is reported when its footprint lies in what is stored. All that
    a filter promises follows from this:

    * **Set semantics**: what is stored is the union of the footprints, so
      neither the order nor the repetition of insertions matters.
    * **No false negatives**: an inserted key is reported ever after.
    * **Relabelling**: two filters whose footprints agree up to a
      relabelling of the keys store and report the same.
-/

namespace Footprint

variable {K L P : Type*} {fp : K → Set P}

/-! ## What is stored -/

/-- The positions stored after inserting the keys of `S`. -/
def occupied (fp : K → Set P) (S : Set K) : Set P := ⋃ k ∈ S, fp k

/-- A filter that stores `bits` reports `q`. -/
def Reports (fp : K → Set P) (bits : Set P) (q : K) : Prop := fp q ⊆ bits

theorem mem_occupied {S : Set K} {p : P} : p ∈ occupied fp S ↔ ∃ k ∈ S, p ∈ fp k := by
  simp [occupied]

@[simp] theorem occupied_empty : occupied fp ∅ = ∅ := by
  simp [occupied]

theorem occupied_union (S T : Set K) :
    occupied fp (S ∪ T) = occupied fp S ∪ occupied fp T :=
  Set.biUnion_union S T fp

theorem occupied_mono {S T : Set K} (h : S ⊆ T) : occupied fp S ⊆ occupied fp T :=
  Set.biUnion_subset_biUnion_left h

theorem subset_occupied {S : Set K} {k : K} (h : k ∈ S) : fp k ⊆ occupied fp S :=
  Set.subset_biUnion_of_mem h

/-- The insertion of one key. -/
def insert (fp : K → Set P) (bits : Set P) (k : K) : Set P := bits ∪ fp k

/-- **Set semantics**: a run of insertions stores the union of the
    footprints of the inserted keys. -/
theorem foldl_insert (l : List K) (bits : Set P) :
    l.foldl (insert fp) bits = bits ∪ occupied fp {k | k ∈ l} := by
  induction l generalizing bits with
  | nil => simp
  | cons k l ih =>
    -- The first key is inserted before the others; the union forgets that.
    have hset : {x | x ∈ k :: l} = {k} ∪ {x | x ∈ l} := by
      ext x; simp
    have hone : occupied fp {k} = fp k := by simp [occupied]
    rw [List.foldl_cons, ih, insert, hset, occupied_union, hone, Set.union_assoc]

/-- Keys that were inserted before add nothing. -/
theorem union_occupied_of_subset {S T : Set K} (h : T ⊆ S) :
    occupied fp S ∪ occupied fp T = occupied fp S :=
  Set.union_eq_self_of_subset_right (occupied_mono h)

/-- **Load**: keys with at most `c` positions store at most `c` for each of
    them. -/
theorem ncard_occupied_le {c : Nat} {S : Set K} (hS : S.Finite) (h : ∀ k ∈ S, (fp k).ncard ≤ c) :
    (occupied fp S).ncard ≤ c * S.ncard := by
  induction S, hS using Set.Finite.induction_on with
  | empty => simp
  | @insert k S hk hS ih =>
    have hsplit : occupied fp (Insert.insert k S) = fp k ∪ occupied fp S :=
      Set.biUnion_insert k S fp
    have hrest := ih fun l hl => h l (Set.mem_insert_of_mem k hl)
    have hkey := h k (Set.mem_insert k S)
    rw [hsplit, Set.ncard_insert_of_notMem hk hS, Nat.mul_succ]
    calc (fp k ∪ occupied fp S).ncard
        ≤ (fp k).ncard + (occupied fp S).ncard := Set.ncard_union_le _ _
      _ ≤ c * S.ncard + c := by omega

/-! ## What is reported -/

/-- **No false negatives.** -/
theorem reports_of_mem {S : Set K} {q : K} (h : q ∈ S) : Reports fp (occupied fp S) q :=
  subset_occupied h

/-- Later insertions retract no report. -/
theorem Reports.mono {bits bits' : Set P} {q : K} (h : Reports fp bits q)
    (hle : bits ⊆ bits') : Reports fp bits' q :=
  h.trans hle

/-- An empty filter reports exactly the keys without a position. -/
theorem reports_empty_iff {q : K} : Reports fp ∅ q ↔ fp q = ∅ :=
  Set.subset_empty_iff

/-! ## Relabelling -/

variable {fp' : L → Set P} {σ : K → L}

/-- **Relabelling**: the relabelled keys store the same positions. -/
theorem occupied_image (h : ∀ k, fp' (σ k) = fp k) (S : Set K) :
    occupied fp' (σ '' S) = occupied fp S := by
  simp [occupied, h]

/-- ... and the relabelled key gets the same answer. -/
theorem reports_relabel (h : ∀ k, fp' (σ k) = fp k) {bits : Set P} {q : K} :
    Reports fp' bits (σ q) ↔ Reports fp bits q := by
  rw [Reports, h, Reports]

/-- If the relabelling is a bijection, properties that agree up to it hold of
    equally many keys. -/
theorem ncard_relabel {p : K → Prop} {p' : L → Prop} (hσ : Function.Bijective σ)
    (h : ∀ k, p' (σ k) ↔ p k) : {k | p k}.ncard = {l | p' l}.ncard := by
  have hpre : {k | p k} = Set.preimage σ {l | p' l} := Set.ext fun k => (h k).symm
  rw [hpre]
  exact Set.ncard_preimage_of_injective_subset_range hσ.injective
    (by simp [hσ.surjective.range_eq])

end Footprint
