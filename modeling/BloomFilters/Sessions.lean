import BloomFilters.Relabelling
import BloomFilters.Framework.Machine

/-! # Sessions

    The whole interface of a filter: insertions and probes, one by one and in
    batches, in any order. A filter is a machine that answers such requests,
    and it refines the footprint filter, whose state is a set of positions.

    * **Refinement**: every reply is the one that the set of hashes inserted
      so far determines; how they were inserted, and what was probed in
      between, leaves no trace.
    * **Agreement**: the two modes of a filter give the same replies, and so do
      the improved filter and the Arrow filter over relabelled hashes.
-/

open Checked BitArray Footprint Machine

namespace BloomFilters

/-! ## Requests -/

/-- A call of one of the four functions of the interface. -/
inductive Request where
  | insert (hash : Word)
  | insertBatch (hash_array : Array Word)
  | contains (hash : Word)
  | containsBatch (hash_array : Array Word) (result : Array Byte)

/-- What the caller gets to see. -/
inductive Reply where
  | done
  | answer (reported : Bool)
  | result (result : Array Byte)

/-- The hashes that a request inserts. -/
def Request.hashes : Request → List Word
  | .insert hash => [hash]
  | .insertBatch hash_array => hash_array.toList
  | .contains _ => []
  | .containsBatch _ _ => []

/-- The hashes of a request satisfy `ok`, and its buffer has room for the
    answers. -/
def Request.Admissible (ok : Word → Prop) : Request → Prop
  | .insert hash => ok hash
  | .insertBatch hash_array => ∀ h ∈ hash_array, ok h
  | .contains hash => ok hash
  | .containsBatch hash_array result => (∀ h ∈ hash_array, ok h) ∧
      hash_array.size + 7 < 2 ^ 64 ∧ result_bytes hash_array.size ≤ result.size

/-- The request with other hashes. -/
def Request.relabel (σ : Word → Word) : Request → Request
  | .insert hash => .insert (σ hash)
  | .insertBatch hash_array => .insertBatch (hash_array.map σ)
  | .contains hash => .contains (σ hash)
  | .containsBatch hash_array result => .containsBatch (hash_array.map σ) result

section serve

variable {Impl : Type} [BloomFilter Impl]

/-- One call on the filter. -/
def serve (f : Impl) : Request → Comp (Impl × Reply)
  | .insert hash => do return (← insert f hash, .done)
  | .insertBatch hash_array => do return (← insertBatch f hash_array, .done)
  | .contains hash => do return (f, .answer (← contains f hash))
  | .containsBatch hash_array result => do
    return (f, .result (← containsBatch f hash_array result))

end serve

/-! ## The footprint filter as a machine -/

open Classical in
/-- The answer of a footprint filter that stores `bits`. -/
noncomputable def reply (fp : Word → Set Nat) (bits : Set Nat) (hash : Word) : Bool :=
  decide (Reports fp bits hash)

/-- What it does on a request. -/
noncomputable def specify (fp : Word → Set Nat) (bits : Set Nat) : Request → Set Nat × Reply
  | .insert hash => (Footprint.insert fp bits hash, .done)
  | .insertBatch hash_array => (hash_array.toList.foldl (Footprint.insert fp) bits, .done)
  | .contains hash => (bits, .answer (reply fp bits hash))
  | .containsBatch hash_array result => (bits, .result (packBits
      (answers (fun i => reply fp bits (hash_array.getD i 0)) hash_array.size)
      (result_bytes hash_array.size) result))

section specify

variable {fp fp' : Word → Set Nat} {σ : Word → Word}

theorem reply_eq_true_iff {bits : Set Nat} {hash : Word} :
    reply fp bits hash = true ↔ Reports fp bits hash := by
  simp [reply]

theorem reply_relabel (h : ∀ k, fp' (σ k) = fp k) (bits : Set Nat) (hash : Word) :
    reply fp' bits (σ hash) = reply fp bits hash := by
  rw [Bool.eq_iff_iff, reply_eq_true_iff, reply_eq_true_iff, reports_relabel h]

/-- A request inserts its hashes and does nothing else. -/
theorem specify_state (bits : Set Nat) (request : Request) :
    (specify fp bits request).1 = bits ∪ occupied fp {h | h ∈ request.hashes} := by
  rw [← foldl_insert]
  cases request <;> rfl

/-- Behind a sequence of requests the filter stores what these have inserted. -/
theorem foldl_specify (bits : Set Nat) (requests : List Request) :
    requests.foldl (fun bits request => (specify fp bits request).1) bits =
      bits ∪ occupied fp {h | h ∈ requests.flatMap Request.hashes} := by
  induction requests generalizing bits with
  | nil => simp
  | cons request requests ih =>
    have hset : {h | h ∈ (request :: requests).flatMap Request.hashes} =
        {h | h ∈ request.hashes} ∪ {h | h ∈ requests.flatMap Request.hashes} := by
      ext h; simp
    rw [List.foldl_cons, ih, specify_state, hset, occupied_union, Set.union_assoc]

/-- Relabelled requests to a filter with relabelled footprints. -/
theorem specify_relabel (h : ∀ k, fp' (σ k) = fp k) (bits : Set Nat) (request : Request) :
    specify fp' bits (request.relabel σ) = specify fp bits request := by
  have hinsert : ∀ bits k, Footprint.insert fp' bits (σ k) = Footprint.insert fp bits k := by
    intro bits k
    rw [Footprint.insert, h, Footprint.insert]
  cases request with
  | insert hash => simp only [Request.relabel, specify, hinsert]
  | insertBatch hash_array =>
    simp only [Request.relabel, specify, Array.toList_map, List.foldl_map, hinsert]
  | contains hash => simp only [Request.relabel, specify, reply_relabel h]
  | containsBatch hash_array result =>
    simp only [Request.relabel, specify, Array.size_map]
    congr 2
    apply packBits_congr
    intro q _
    -- Behind the batch there is no answer.
    by_cases hq : q < hash_array.size
    · simp [answers, hq, reply_relabel h]
    · simp [answers, hq]

end specify

/-! ## Refinement -/

/-- Every reply is that of the footprint filter with the hashes inserted so
    far. -/
def ServesFootprints {Impl : Type} [BloomFilter Impl] (f : Impl) (ok : Word → Prop)
    (fp : Word → Set Nat) : Prop :=
  ∀ requests : List Request, (∀ r ∈ requests, r.Admissible ok) →
    Returns (session serve f requests) fun served => served.2.length = requests.length ∧
      ∀ i, (hi : i < requests.length) → served.2[i]? = some (specify fp
        (occupied fp {h | h ∈ (requests.take i).flatMap Request.hashes}) requests[i]).2

section lawful

variable {Impl : Type} [BloomFilter Impl] [LawfulBloomFilter Impl]

open LawfulBloomFilter

/-- The filter is of shape `s` and stores `bits`. -/
def Stores (s : Shape Impl) (f : Impl) (bits : Set Nat) : Prop :=
  shape f = s ∧ bitSet (table f) = bits

/-- **Step lemma**: one call, of any of the four functions. -/
theorem refines_specify {s : Shape Impl} (hvalid : Valid s) :
    Refines serve (specify (footprint s)) (Request.Admissible (HasMask Impl)) (Stores s) := by
  intro f bits request hstores hok
  obtain ⟨rfl, rfl⟩ := hstores
  have hanswer : ∀ h, HasMask Impl h → contains f h =
      .ok (reply (footprint (shape f)) (bitSet (table f)) h) := by
    intro h hh
    obtain ⟨b, hb, hiff⟩ := contains_spec f h hvalid hh
    rw [hb, Except.ok.injEq, Bool.eq_iff_iff, reply_eq_true_iff, hiff]
  cases request with
  | insert hash =>
    apply (insert_spec f hash hvalid hok).bind
    intro f' hf'
    exact returns_ok ⟨rfl, hf'⟩
  | insertBatch hash_array =>
    have hall : ∀ h ∈ hash_array.toList, HasMask Impl h := fun h hh => hok h (by simpa using hh)
    have hbatch := foldlM_insert_simulates f hash_array.toList hvalid hall
    rw [← insertBatch_eq] at hbatch
    apply hbatch.bind
    intro f' hf'
    exact returns_ok ⟨rfl, hf'⟩
  | contains hash =>
    show Returns (contains f hash >>= fun b => _) _
    rw [hanswer hash hok, ok_bind]
    exact returns_ok ⟨rfl, rfl, rfl⟩
  | containsBatch hash_array result =>
    obtain ⟨hall, hcount, hsize⟩ := hok
    have hpacked := containsBatch_eq f hash_array result
      (fun i => reply (footprint (shape f)) (bitSet (table f)) (hash_array.getD i 0))
      (fun i hi => by rw [hanswer _ (hall _ (Array.getElem_mem hi))]; simp [hi]) hcount hsize
    show Returns (containsBatch f hash_array result >>= fun r => _) _
    rw [hpacked, ok_bind]
    exact returns_ok ⟨rfl, rfl, rfl⟩

theorem servesFootprints_of_fresh {f : Impl} (hvalid : Valid (shape f))
    (hfresh : bitSet (table f) = ∅) :
    ServesFootprints f (HasMask Impl) (footprint (shape f)) := by
  intro requests hok
  have hstores : Stores (shape f) f ∅ := ⟨rfl, hfresh⟩
  apply ((refines_specify hvalid).session hstores hok).mono
  intro served hserved
  rw [hserved.1]
  refine ⟨length_trace _ _, fun i hi => ?_⟩
  rw [trace_reply _ _ i hi, foldl_specify, Set.empty_union]

end lawful

section blocks

variable {Impl Impl' : Type} [BloomFilter Impl] [BlockFilter Impl] [BloomFilter Impl']
         [BlockFilter Impl'] {f : Impl} {f' : Impl'} {g : Geometry}

open BlockFilter

theorem servesFootprints_of_blocks (hnew : toTable f = .ofGeometry g) :
    ServesFootprints f (HasMask Impl) (footprint Impl g) := by
  rw [← shape_of_new hnew]
  exact servesFootprints_of_fresh (valid f) (fresh_of_new hnew)

/-- Two sessions give the same replies and leave the same table behind. -/
def SameSession (table : Impl → Array Word) (table' : Impl' → Array Word) (f : Impl) (f' : Impl')
    (requests requests' : List Request) : Prop :=
  Returns (session serve f requests) fun served =>
    Returns (session serve f' requests') fun served' =>
      served.2 = served'.2 ∧ table served.1 = table' served'.1

/-- Filters of one geometry whose footprints agree up to `σ`. -/
theorem sameSession_of_footprint {σ : Word → Word} (hf : toTable f = .ofGeometry g)
    (hf' : toTable f' = .ofGeometry g) (hmask : ∀ h, HasMask Impl' h)
    (hfoot : ∀ h, footprint Impl' g (σ h) = footprint Impl g h) {requests : List Request}
    (hok : ∀ r ∈ requests, r.Admissible (HasMask Impl)) :
    SameSession (fun f : Impl => (toTable f).bitvector.toArray)
      (fun f : Impl' => (toTable f).bitvector.toArray) f f' requests
      (requests.map (Request.relabel σ)) := by
  have hrefines : Refines serve (specify (footprint Impl g)) (Request.Admissible (HasMask Impl))
      (@Stores Impl _ _ g) := refines_specify trivial
  have hrefines' : Refines serve (specify (footprint Impl' g))
      (Request.Admissible (HasMask Impl')) (@Stores Impl' _ _ g) := refines_specify trivial
  have hadmissible : ∀ r : Request, r.Admissible (HasMask Impl) →
      (r.relabel σ).Admissible (HasMask Impl') := by
    intro r hr
    cases r with
    | insert hash => exact hmask _
    | insertBatch hash_array => exact fun h _ => hmask h
    | contains hash => exact hmask _
    | containsBatch hash_array result =>
      refine ⟨fun h _ => hmask h, ?_⟩
      rw [Array.size_map]
      exact hr.2
  have hagree := hrefines.agree hrefines' (specify_relabel hfoot) hadmissible
    (t := ∅) ⟨shape_of_new hf, fresh_of_new hf⟩ ⟨shape_of_new hf', fresh_of_new hf'⟩ hok
  apply hagree.mono
  intro served hserved
  apply hserved.mono
  intro served' hserved'
  obtain ⟨hreplies, bits, ⟨hshape, hbits⟩, ⟨hshape', hbits'⟩⟩ := hserved'
  have hgeometry : (toTable served.1).toGeometry = g := hshape
  have hgeometry' : (toTable served'.1).toGeometry = g := hshape'
  refine ⟨hreplies, eq_of_bitSet ?_ (hbits.trans hbits'.symm)⟩
  rw [Vector.size_toArray, Vector.size_toArray, hgeometry, hgeometry']

end blocks

theorem Request.relabel_id (request : Request) : request.relabel (fun h => h) = request := by
  cases request <;> simp [Request.relabel]

/-- One filter in two modes. -/
theorem sameSession_of_mode {Impl : Type} [BloomFilter Impl] [BlockFilter Impl] {f f' : Impl}
    {g : Geometry} (hf : BlockFilter.toTable f = .ofGeometry g)
    (hf' : BlockFilter.toTable f' = .ofGeometry g) (hmask : ∀ h, BlockFilter.HasMask Impl h)
    {requests : List Request} (hok : ∀ r ∈ requests, r.Admissible (BlockFilter.HasMask Impl)) :
    SameSession (fun f : Impl => (BlockFilter.toTable f).bitvector.toArray)
      (fun f : Impl => (BlockFilter.toTable f).bitvector.toArray) f f' requests requests := by
  have hfoot : ∀ h, BlockFilter.footprint Impl g h = BlockFilter.footprint Impl g h := fun _ => rfl
  have hsame := sameSession_of_footprint hf hf' hmask hfoot hok
  have hid : Request.relabel (fun h => h) = id := funext Request.relabel_id
  rwa [hid, List.map_id] at hsame

/-! ## Results -/

/-- **Refinement** for the five filters: sessions of insertions and probes, in
    any order. -/
theorem sessions_refine :
    (∀ num_bits num_hashes, BasicBloomFilter.Sized num_bits →
      ServesFootprints (BasicBloomFilter.new num_bits num_hashes) (fun _ => True)
        (BasicBloomFilter.positions num_bits num_hashes)) ∧
    (∀ rows_to_insert f, BlockedBloomFilter.new rows_to_insert = .ok f →
      ServesFootprints f (fun h => ∃ m, BlockedBloomFilter.mask h = .ok m)
        (BlockFilter.footprint BlockedBloomFilter f.toGeometry)) ∧
    (∀ masks rows_to_insert mode,
      ServesFootprints (ArrowBloomFilter.new masks rows_to_insert mode) (fun _ => True)
        (BlockFilter.footprint (ArrowBloomFilter masks)
          (ArrowBloomFilter.new masks rows_to_insert mode).toGeometry)) ∧
    (∀ masks rows_to_insert mode,
      ServesFootprints (ImprovedArrowBloomFilter.new masks rows_to_insert mode) (fun _ => True)
        (BlockFilter.footprint (ImprovedArrowBloomFilter masks)
          (ImprovedArrowBloomFilter.new masks rows_to_insert mode).toGeometry)) ∧
    (∀ masks rows_to_insert mode,
      ServesFootprints (ModifiedArrowBloomFilter.new masks rows_to_insert mode) (fun _ => True)
        (BlockFilter.footprint (ModifiedArrowBloomFilter masks)
          (ModifiedArrowBloomFilter.new masks rows_to_insert mode).toGeometry)) := by
  refine ⟨fun num_bits num_hashes hsized => ?_, fun rows f hf => ?_, fun masks rows mode => ?_,
    fun masks rows mode => ?_, fun masks rows mode => ?_⟩
  · exact servesFootprints_of_fresh (BasicBloomFilter.valid_new hsized num_hashes)
      (BasicBloomFilter.fresh_new num_bits num_hashes)
  · obtain ⟨g, rfl⟩ := BlockedBloomFilter.eq_ofGeometry_of_new hf
    exact servesFootprints_of_blocks rfl
  · exact servesFootprints_of_blocks rfl
  · exact servesFootprints_of_blocks rfl
  · exact servesFootprints_of_blocks rfl

/-- A probe before and a probe after an insertion. -/
theorem sessions_refine_small :
    Returns (session serve (BasicBloomFilter.new 8 1) [.contains 5, .insert 5, .contains 5])
      fun served => served.2.length = 3 ∧ ∀ i, (hi : i < 3) → served.2[i]? =
        some (specify (BasicBloomFilter.positions 8 1) (occupied (BasicBloomFilter.positions 8 1)
          {h | h ∈ ([.contains 5, .insert 5, .contains 5].take i).flatMap Request.hashes})
          ([.contains 5, .insert 5, .contains 5].get ⟨i, hi⟩)).2 :=
  sessions_refine.1 8 1 ⟨by decide, by decide⟩ _ (by simp [Request.Admissible])

/-- **Agreement**: the modes of the Arrow filters cannot be told apart, nor can
    the improved filter and the Arrow filter over relabelled hashes. -/
theorem sessions_agree :
    (∀ masks rows_to_insert mode mode' requests,
      (∀ r ∈ requests, Request.Admissible (fun _ => True) r) →
      SameSession (fun f : ArrowBloomFilter masks => f.bitvector.toArray)
        (fun f : ArrowBloomFilter masks => f.bitvector.toArray)
        (ArrowBloomFilter.new masks rows_to_insert mode)
        (ArrowBloomFilter.new masks rows_to_insert mode') requests requests) ∧
    (∀ masks rows_to_insert mode mode' requests,
      (∀ r ∈ requests, Request.Admissible (fun _ => True) r) →
      SameSession (fun f : ImprovedArrowBloomFilter masks => f.bitvector.toArray)
        (fun f : ImprovedArrowBloomFilter masks => f.bitvector.toArray)
        (ImprovedArrowBloomFilter.new masks rows_to_insert mode)
        (ImprovedArrowBloomFilter.new masks rows_to_insert mode') requests requests) ∧
    (∀ masks rows_to_insert mode mode' requests,
      (∀ r ∈ requests, Request.Admissible (fun _ => True) r) →
      SameSession (fun f : ModifiedArrowBloomFilter masks => f.bitvector.toArray)
        (fun f : ModifiedArrowBloomFilter masks => f.bitvector.toArray)
        (ModifiedArrowBloomFilter.new masks rows_to_insert mode)
        (ModifiedArrowBloomFilter.new masks rows_to_insert mode') requests requests) ∧
    (∀ (masks : ImprovedBloomFilterMasks) (masks' : BloomFilterMasks) rows_to_insert mode mode'
      requests, masks.masks.toArray = masks'.masks.toArray →
      (ImprovedArrowBloomFilter.new masks rows_to_insert mode).log_num_blocks ≤ 48 →
      (∀ r ∈ requests, Request.Admissible (fun _ => True) r) →
      SameSession (fun f : ImprovedArrowBloomFilter masks => f.bitvector.toArray)
        (fun f : ArrowBloomFilter masks' => f.bitvector.toArray)
        (ImprovedArrowBloomFilter.new masks rows_to_insert mode)
        (ArrowBloomFilter.new masks' rows_to_insert mode') requests
        (requests.map (Request.relabel (relabel
          (ImprovedArrowBloomFilter.new masks rows_to_insert mode).log_num_blocks.toNat)))) := by
  refine ⟨fun masks rows mode mode' requests hok => ?_,
    fun masks rows mode mode' requests hok => ?_, fun masks rows mode mode' requests hok => ?_,
    fun masks masks' rows mode mode' requests hmasks hk hok => ?_⟩
  · exact sameSession_of_mode rfl rfl (fun _ => trivial) hok
  · exact sameSession_of_mode rfl rfl (fun _ => trivial) hok
  · exact sameSession_of_mode rfl rfl (fun _ => trivial) hok
  · exact sameSession_of_footprint rfl rfl (fun _ => trivial) (footprint_relabel hmasks hk) hok

/-- A batch of four and one of five, with probes in between, over a table of the
    constructor. -/
theorem sessions_agree_small :
    ∃ fuel masks, BloomFilterMasks.new countingDraws fuel (.replicate _ 0) = .ok masks ∧
      SameSession (fun f : ArrowBloomFilter masks => f.bitvector.toArray)
        (fun f : ArrowBloomFilter masks => f.bitvector.toArray)
        (ArrowBloomFilter.new masks 1 .scalar) (ArrowBloomFilter.new masks 1 .avx2)
        [.insertBatch #[1, 2, 3, 4], .contains 3, .contains 0x30003,
          .insertBatch #[5, 6, 7, 8, 9]]
        [.insertBatch #[1, 2, 3, 4], .contains 3, .contains 0x30003,
          .insertBatch #[5, 6, 7, 8, 9]] ∧
      Returns (run (ArrowBloomFilter.new masks 1 .scalar) [.insertBatch #[1, 2, 3, 4]]) fun f =>
        contains f 3 = .ok true ∧ contains f 0x30003 = .ok false := by
  obtain ⟨fuel, masks, hmasks⟩ := BloomFilterMasks.exists_new_counting (.replicate _ 0)
  refine ⟨fuel, masks, hmasks, sessions_agree.1 masks 1 .scalar .avx2 _
    (by simp [Request.Admissible]), ?_⟩
  exact ArrowBloomFilter.tells_apart hmasks 1 .scalar (by decide) (by simp [inserted, Op.hashes])

end BloomFilters
