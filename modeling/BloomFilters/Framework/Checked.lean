import Mathlib.Logic.Basic

/-! # Checked imperative computations

    A shallow embedding of C-like code in which every access that the
    language leaves undefined is checked. A computation either yields a
    value or stops with the `Fault` that the access would have caused.

    This module collects:

    * **Primitives**: array accesses and scalar shifts.
    * **Triples**: `Returns c Q` (total: `c` yields a value in `Q`) and
      `Safe c Q` (partial: `c` may run forever, but commits no fault).
    * **Counting loops**: `for (i = lo; i < hi; i += k)`, with one
      invariant rule for each triple.
    * **Open loops**: `while (true) { ... break; }` with explicit fuel.
-/

namespace Checked

/-! ## Faults -/

/-- Why a computation yields no value. The last constructor is the only
    one that is not a fault of the program text: the loop never ends. -/
inductive Fault where
  /-- An access outside of the accessed object. -/
  | bounds
  /-- A scalar shift by a negative amount or by the width or more. -/
  | shift
  /-- A remainder by zero. -/
  | divZero
  /-- A signed overflow. -/
  | overflow
  /-- An exception that leaves the function. -/
  | thrown
  /-- A loop that is still running. -/
  | diverges
  deriving DecidableEq, Repr

/-- A computation that yields a value or stops with a fault. -/
abbrev Comp (α : Type) := Except Fault α

variable {α β σ : Type}

@[simp] theorem ok_bind {ε : Type} (a : α) (f : α → Except ε β) :
    (Except.ok a >>= f) = f a := rfl

@[simp] theorem error_bind (e : Fault) (f : α → Comp β) :
    (Except.error e >>= f : Comp β) = Except.error e := rfl

@[simp] theorem bind_ok (c : Comp α) : (c >>= fun a => Except.ok a) = c := by
  cases c <;> rfl

@[simp] theorem pure_eq_ok (a : α) : (pure a : Comp α) = Except.ok a := rfl

/-- A sequence that yields a value yields one at each of its steps. -/
theorem exists_of_bind_ok {ε : Type} {c : Except ε α} {f : α → Except ε β} {b : β}
    (h : (c >>= f) = .ok b) : ∃ a, c = .ok a ∧ f a = .ok b := by
  cases c with
  | error e => cases h
  | ok a => exact ⟨a, rfl, h⟩

/-- A sequence that fails fails at one of its steps. -/
theorem error_of_bind_error {ε : Type} {c : Except ε α} {f : α → Except ε β} {e : ε}
    (h : (c >>= f) = .error e) : c = .error e ∨ ∃ a, c = .ok a ∧ f a = .error e := by
  cases c with
  | error e' =>
    cases h
    exact .inl rfl
  | ok a => exact .inr ⟨a, rfl, h⟩

/-! ## Triples -/

/-- **Total correctness**: `c` yields a value that satisfies `Q`. -/
def Returns (c : Comp α) (Q : α → Prop) : Prop := ∃ a, c = .ok a ∧ Q a

/-- **Partial correctness without faults**: `c` yields a value that
    satisfies `Q`, or it is still running. -/
def Safe (c : Comp α) (Q : α → Prop) : Prop :=
  (∀ a, c = .ok a → Q a) ∧ ∀ e, c = .error e → e = .diverges

theorem Returns.mono {c : Comp α} {Q R : α → Prop} (h : Returns c Q) (hQR : ∀ a, Q a → R a) :
    Returns c R := by
  obtain ⟨a, hc, ha⟩ := h
  exact ⟨a, hc, hQR a ha⟩

theorem Returns.bind {c : Comp α} {f : α → Comp β} {Q : α → Prop} {R : β → Prop}
    (hc : Returns c Q) (hf : ∀ a, Q a → Returns (f a) R) : Returns (c >>= f) R := by
  obtain ⟨a, rfl, ha⟩ := hc
  exact hf a ha

theorem returns_ok {a : α} {Q : α → Prop} (h : Q a) : Returns (.ok a) Q := ⟨a, rfl, h⟩

theorem Safe.mono {c : Comp α} {Q R : α → Prop} (h : Safe c Q) (hQR : ∀ a, Q a → R a) :
    Safe c R :=
  ⟨fun a ha => hQR a (h.1 a ha), h.2⟩

theorem Safe.bind {c : Comp α} {f : α → Comp β} {Q : α → Prop} {R : β → Prop}
    (hc : Safe c Q) (hf : ∀ a, Q a → Safe (f a) R) : Safe (c >>= f) R := by
  cases hca : c with
  | ok a => exact hf a (hc.1 a hca)
  | error e =>
    have he : e = .diverges := hc.2 e hca
    subst he
    exact ⟨fun a ha => by simp at ha, fun e he => by simpa using he.symm⟩

theorem safe_ok {a : α} {Q : α → Prop} (h : Q a) : Safe (.ok a) Q :=
  ⟨fun b hb => by cases hb; exact h, fun e he => by cases he⟩

theorem safe_diverges {Q : α → Prop} : Safe (.error .diverges) Q :=
  ⟨fun a ha => (by cases ha), fun e he => by cases he; rfl⟩

theorem not_safe_of_fault {c : Comp α} {Q : α → Prop} {e : Fault} (hc : c = .error e)
    (he : e ≠ .diverges) : ¬ Safe c Q := by
  intro h
  exact he (h.2 e hc)

/-- A computation that returns commits no fault. -/
theorem Returns.safe {c : Comp α} {Q : α → Prop} (h : Returns c Q) : Safe c Q := by
  obtain ⟨a, rfl, ha⟩ := h
  exact safe_ok ha

/-- ... and a fault-free computation that yields a value returns. -/
theorem Safe.returns {c : Comp α} {Q : α → Prop} (h : Safe c Q) (hc : ∃ a, c = .ok a) :
    Returns c Q := by
  obtain ⟨a, ha⟩ := hc
  exact ⟨a, ha, h.1 a ha⟩

/-! ## Primitives -/

/-- Read `a[i]`. -/
def load (a : Array α) (i : Nat) : Comp α :=
  if h : i < a.size then .ok a[i] else .error .bounds

/-- Write `a[i] = v`. -/
def store (a : Array α) (i : Nat) (v : α) : Comp (Array α) :=
  if h : i < a.size then .ok (a.set i v) else .error .bounds

/-- Read entry `i` of an array whose size is fixed. -/
def loadFixed {n : Nat} (a : Vector α n) (i : Nat) : Comp α :=
  if h : i < n then .ok a[i] else .error .bounds

/-- Write entry `i` of an array whose size is fixed. -/
def storeFixed {n : Nat} (a : Vector α n) (i : Nat) (v : α) : Comp (Vector α n) :=
  if h : i < n then .ok (a.set i v) else .error .bounds

/-- `x << n` on an unsigned `w`-bit word. -/
def shl {w : Nat} (x : BitVec w) (n : Int) : Comp (BitVec w) :=
  if 0 ≤ n ∧ n < w then .ok (x <<< n.toNat) else .error .shift

/-- `x >> n` on an unsigned `w`-bit word. -/
def shr {w : Nat} (x : BitVec w) (n : Int) : Comp (BitVec w) :=
  if 0 ≤ n ∧ n < w then .ok (x >>> n.toNat) else .error .shift

theorem load_ok {a : Array α} {i : Nat} (h : i < a.size) : load a i = .ok a[i] := by
  simp [load, h]

theorem store_ok {a : Array α} {i : Nat} {v : α} (h : i < a.size) :
    store a i v = .ok (a.set i v) := by
  simp [store, h]

theorem loadFixed_ok {n : Nat} {a : Vector α n} {i : Nat} (h : i < n) :
    loadFixed a i = .ok a[i] := by
  simp [loadFixed, h]

theorem storeFixed_ok {n : Nat} {a : Vector α n} {i : Nat} {v : α} (h : i < n) :
    storeFixed a i v = .ok (a.set i v) := by
  simp [storeFixed, h]

theorem shl_ok {w : Nat} {x : BitVec w} {n : Int} (h : 0 ≤ n ∧ n < w) :
    shl x n = .ok (x <<< n.toNat) := by
  simp [shl, h]

theorem shr_ok {w : Nat} {x : BitVec w} {n : Int} (h : 0 ≤ n ∧ n < w) :
    shr x n = .ok (x >>> n.toNat) := by
  simp [shr, h]

/-! ## Counting loops -/

/-- `n` rounds of a loop body, the counter starting at `i` and advancing
    by `k`. -/
def rounds (k : Nat) (body : Nat → σ → Comp σ) : Nat → Nat → σ → Comp σ
  | 0, _, s => .ok s
  | n + 1, i, s => body i s >>= rounds k body n (i + k)

/-- `for (i = lo; i < hi; i += k) s = body(i, s);` -/
def forLoop (lo hi k : Nat) (body : Nat → σ → Comp σ) (s : σ) : Comp σ :=
  rounds k body ((hi - lo + (k - 1)) / k) lo s

theorem forLoop_done {lo hi k : Nat} {body : Nat → σ → Comp σ} {s : σ} (h : hi ≤ lo) :
    forLoop lo hi k body s = .ok s := by
  have hrounds : (hi - lo + (k - 1)) / k = 0 := by
    -- A stride of zero makes no rounds either: the division is by zero.
    rcases Nat.eq_zero_or_pos k with rfl | hk
    · simp
    · exact Nat.div_eq_of_lt (by omega)
  unfold forLoop
  rw [hrounds, rounds]

theorem forLoop_step {lo hi k : Nat} {body : Nat → σ → Comp σ} {s : σ} (hk : 0 < k)
    (h : lo < hi) :
    forLoop lo hi k body s = body lo s >>= forLoop (lo + k) hi k body := by
  have hrounds : (hi - lo + (k - 1)) / k = (hi - (lo + k) + (k - 1)) / k + 1 := by
    -- The last stride may overshoot `hi`; the count of the rest is then zero.
    rcases Nat.lt_or_ge (lo + k) hi with hlt | hge
    · rw [show hi - lo + (k - 1) = hi - (lo + k) + (k - 1) + k from by omega,
        Nat.add_div_right _ hk]
    · rw [show hi - lo + (k - 1) = hi - lo - 1 + k from by omega, Nat.add_div_right _ hk,
        Nat.div_eq_of_lt (show hi - lo - 1 < k from by omega),
        Nat.div_eq_of_lt (show hi - (lo + k) + (k - 1) < k from by omega)]
  rw [forLoop, hrounds, rounds]
  rfl

/-- **Invariant rule** (total): a counting loop whose every round keeps
    `I` ends, in a state where `I` holds at the upper bound. -/
theorem forLoop_returns {lo hi k : Nat} {body : Nat → σ → Comp σ} {s : σ}
    (I : Nat → σ → Prop) (hk : 0 < k) (hle : lo ≤ hi) (hdvd : k ∣ hi - lo) (h0 : I lo s)
    (hstep : ∀ i s, lo ≤ i → i + k ≤ hi → k ∣ i - lo → I i s →
      Returns (body i s) (I (i + k))) :
    Returns (forLoop lo hi k body s) (I hi) := by
  obtain ⟨m, hm⟩ := hdvd
  -- Induction on the number of rounds; `k` divides, so the last one ends at `hi`.
  induction m generalizing lo s with
  | zero =>
    have hlo : lo = hi := by simp at hm; omega
    subst hlo
    rw [forLoop_done (Nat.le_refl _)]
    exact returns_ok h0
  | succ m ih =>
    have hmk : k * (m + 1) = k * m + k := Nat.mul_succ k m
    rw [forLoop_step hk (by omega)]
    apply (hstep lo s (Nat.le_refl _) (by omega) (by simp) h0).bind
    intro s' hs'
    refine ih (by omega) hs' (fun i t hi hik hd ht => ?_) (by omega)
    refine hstep i t (by omega) hik ?_ ht
    rw [show i - lo = i - (lo + k) + k from by omega]
    exact Nat.dvd_add hd (Nat.dvd_refl k)

/-- **Tracking rule**: a loop whose rounds take `g i` to `g (i + k)` takes
    `g lo` to `g hi`. -/
theorem forLoop_eq_ok {lo hi k : Nat} {body : Nat → σ → Comp σ} {s : σ} (g : Nat → σ)
    (hk : 0 < k) (hle : lo ≤ hi) (hdvd : k ∣ hi - lo) (h0 : s = g lo)
    (hstep : ∀ i, lo ≤ i → i + k ≤ hi → k ∣ i - lo → body i (g i) = .ok (g (i + k))) :
    forLoop lo hi k body s = .ok (g hi) := by
  have hloop : Returns (forLoop lo hi k body s) fun t => t = g hi := by
    apply forLoop_returns (fun i t => t = g i) hk hle hdvd h0
    intro i t hlo hhi hd ht
    rw [ht]
    exact ⟨_, hstep i hlo hhi hd, rfl⟩
  obtain ⟨t, ht, heq⟩ := hloop
  rw [ht, heq]

/-- **Invariant rule** (partial): as `forLoop_returns`, for rounds that
    may run forever. -/
theorem forLoop_safe {lo hi : Nat} {body : Nat → σ → Comp σ} {s : σ}
    (I : Nat → σ → Prop) (hle : lo ≤ hi) (h0 : I lo s)
    (hstep : ∀ i s, lo ≤ i → i < hi → I i s → Safe (body i s) (I (i + 1))) :
    Safe (forLoop lo hi 1 body s) (I hi) := by
  obtain ⟨m, hm⟩ : ∃ m, hi = lo + m := ⟨hi - lo, by omega⟩
  -- Induction on the number of rounds.
  induction m generalizing lo s with
  | zero =>
    subst hm
    rw [forLoop_done (Nat.le_refl _)]
    exact safe_ok h0
  | succ m ih =>
    rw [forLoop_step Nat.one_pos (by omega)]
    apply (hstep lo s (Nat.le_refl _) (by omega) h0).bind
    intro s' hs'
    exact ih (by omega) hs' (fun i t hi hik ht => hstep i t (by omega) hik ht) (by omega)

/-- A loop may be cut at any multiple of its stride. -/
theorem forLoop_append (lo mid hi : Nat) {k : Nat} {body : Nat → σ → Comp σ} {s : σ} (hk : 0 < k)
    (h₁ : lo ≤ mid) (h₂ : mid ≤ hi) (hdvd : k ∣ mid - lo) :
    forLoop lo hi k body s = forLoop lo mid k body s >>= forLoop mid hi k body := by
  obtain ⟨m, hm⟩ := hdvd
  induction m generalizing lo s with
  | zero =>
    have hlo : lo = mid := by simp at hm; omega
    subst hlo
    rw [forLoop_done (Nat.le_refl _), ok_bind]
  | succ m ih =>
    have hmk : k * (m + 1) = k * m + k := Nat.mul_succ k m
    rw [forLoop_step hk (show lo < hi from by omega), forLoop_step hk (show lo < mid from by omega)]
    -- A fault in the first round ends both sides.
    cases body lo s with
    | error e => rfl
    | ok s' => exact ih (lo + k) (by omega) (by omega)

/-- **Unrolling**: a loop of stride `k` whose rounds each do `k` rounds of
    a unit-stride loop is that unit-stride loop. -/
theorem forLoop_unroll {lo hi k : Nat} {bodyK body : Nat → σ → Comp σ} {s : σ} (hk : 0 < k)
    (hle : lo ≤ hi) (hdvd : k ∣ hi - lo)
    (hbody : ∀ i s, lo ≤ i → i + k ≤ hi → bodyK i s = forLoop i (i + k) 1 body s) :
    forLoop lo hi k bodyK s = forLoop lo hi 1 body s := by
  obtain ⟨m, hm⟩ := hdvd
  induction m generalizing lo s with
  | zero =>
    have hlo : lo = hi := by simp at hm; omega
    rw [forLoop_done (by omega), forLoop_done (by omega)]
  | succ m ih =>
    have hmk : k * (m + 1) = k * m + k := Nat.mul_succ k m
    -- One round of stride `k` is the first `k` rounds of the unit-stride loop.
    rw [forLoop_step hk (by omega), hbody lo s (Nat.le_refl _) (by omega),
      forLoop_append lo (lo + k) hi Nat.one_pos (by omega) (by omega) (Nat.one_dvd _)]
    cases forLoop lo (lo + k) 1 body s with
    | error e => rfl
    | ok s' => exact ih (by omega) (fun i t hi hik => hbody i t (by omega) hik) (by omega)

/-- A loop that yields a value has gone through each of its rounds. -/
theorem forLoop_round {lo hi : Nat} {body : Nat → σ → Comp σ} {s t : σ}
    (h : forLoop lo hi 1 body s = .ok t) {i : Nat} (hlo : lo ≤ i) (hhi : i < hi) :
    ∃ s' t', body i s' = .ok t' := by
  rw [forLoop_append lo i hi Nat.one_pos hlo (by omega) (Nat.one_dvd _)] at h
  obtain ⟨s', -, hrest⟩ := exists_of_bind_ok h
  rw [forLoop_step Nat.one_pos hhi] at hrest
  obtain ⟨t', ht, -⟩ := exists_of_bind_ok hrest
  exact ⟨s', t', ht⟩

/-- A loop whose rounds yield what the rounds of another one yield. -/
theorem forLoop_ok_mono {lo hi : Nat} {f g : Nat → σ → Comp σ} {s t : σ}
    (h : ∀ i s s', f i s = .ok s' → g i s = .ok s') (hf : forLoop lo hi 1 f s = .ok t) :
    forLoop lo hi 1 g s = .ok t := by
  obtain ⟨m, hm⟩ : ∃ m, hi ≤ lo + m := ⟨hi, by omega⟩
  -- Induction on a bound for the number of rounds.
  induction m generalizing lo s with
  | zero => rwa [forLoop_done (by omega)] at hf ⊢
  | succ m ih =>
    rcases Nat.lt_or_ge lo hi with hlt | hge
    · rw [forLoop_step Nat.one_pos hlt] at hf ⊢
      obtain ⟨s', hs, hrest⟩ := exists_of_bind_ok hf
      rw [h lo s s' hs, ok_bind]
      exact ih hrest (by omega)
    · rwa [forLoop_done hge] at hf ⊢

/-- A loop that works on a part of its state is a loop on that part. -/
theorem forLoop_map {τ : Type} {lo hi k : Nat} {body : Nat → σ → Comp σ}
    {part : Nat → τ → Comp τ} (g : τ → σ) (t : τ) (hk : 0 < k)
    (h : ∀ i t, body i (g t) = g <$> part i t) :
    forLoop lo hi k body (g t) = g <$> forLoop lo hi k part t := by
  obtain ⟨m, hm⟩ : ∃ m, hi ≤ lo + m := ⟨hi, by omega⟩
  -- The state of the left loop is always `g` of the state of the right one.
  induction m generalizing lo t with
  | zero =>
    rw [forLoop_done (by omega), forLoop_done (by omega)]
    rfl
  | succ m ih =>
    rcases Nat.lt_or_ge lo hi with hlt | hge
    · rw [forLoop_step hk hlt, forLoop_step hk hlt, h lo t]
      cases part lo t with
      | error e => rfl
      | ok t' => exact ih t' (by omega)
    · rw [forLoop_done hge, forLoop_done hge]
      rfl

/-- A loop over the entries of an array is a fold over its list. -/
theorem forLoop_load_eq_foldlM (a : Array α) (f : σ → α → Comp σ) (s : σ) :
    forLoop 0 a.size 1 (fun i s => load a i >>= f s) s = a.toList.foldlM f s := by
  obtain ⟨l⟩ := a
  -- For the induction the list is cut where the counter is: `suf` is still to come.
  suffices h : ∀ (pre suf : List α) (s : σ), pre ++ suf = l →
      forLoop pre.length l.length 1 (fun i s => load l.toArray i >>= f s) s =
        suf.foldlM f s from h [] l s rfl
  intro pre suf
  induction suf generalizing pre with
  | nil =>
    intro s hl
    rw [forLoop_done (by rw [← hl]; simp)]
    rfl
  | cons x xs ih =>
    intro s hl
    have hlt : pre.length < l.length := by rw [← hl]; simp
    have hget : getElem l.toArray pre.length (by simpa using hlt) = x := by
      subst hl; simp
    rw [forLoop_step Nat.one_pos hlt, load_ok (by simpa using hlt), hget, ok_bind,
      List.foldlM_cons]
    cases f s x with
    | error e => rfl
    | ok s' =>
      have := ih (pre ++ [x]) s' (by simpa using hl)
      simpa using this

/-- A loop that leaves at the first round whose test fails:
    `for (i = lo; i < lo + n; i++) if (!p(i)) return false; return true;` -/
def allLoop (p : Nat → Comp Bool) : Nat → Nat → Comp Bool
  | _, 0 => .ok true
  | lo, n + 1 => do
    if ← p lo then allLoop p (lo + 1) n else return false

/-- If every test yields a value, the loop yields whether all of them hold. -/
theorem allLoop_returns {p : Nat → Comp Bool} {q : Nat → Bool} {lo n : Nat}
    (h : ∀ i, lo ≤ i → i < lo + n → p i = .ok (q i)) :
    Returns (allLoop p lo n) (fun b => b = true ↔ ∀ i, lo ≤ i → i < lo + n → q i = true) := by
  induction n generalizing lo with
  | zero => exact returns_ok (by simp; omega)
  | succ n ih =>
    unfold allLoop
    rw [h lo (Nat.le_refl _) (by omega), ok_bind]
    -- A failing test ends the loop, and it is one of those quantified over.
    by_cases hq : q lo = true
    · rw [if_pos hq]
      refine (ih fun i h1 h2 => h i (by omega) (by omega)).mono fun b hb => hb.trans ?_
      constructor
      · intro hall i h1 h2
        rcases Nat.eq_or_lt_of_le h1 with rfl | hlt
        · exact hq
        · exact hall i (by omega) (by omega)
      · intro hall i h1 h2
        exact hall i (by omega) (by omega)
    · rw [if_neg hq]
      refine returns_ok ⟨fun hb => by simp at hb, fun hall => ?_⟩
      exact absurd (hall lo (Nat.le_refl _) (by omega)) hq

/-! ## Open loops -/

/-- `while (true)` with a `break`: each round either breaks with a result
    or yields the state of the next round. The fuel bounds the rounds. -/
def whileTrue (round : σ → Comp (σ ⊕ β)) : Nat → σ → Comp β
  | 0, _ => .error .diverges
  | fuel + 1, s => do
    match ← round s with
    | .inl s' => whileTrue round fuel s'
    | .inr b => return b

/-- `while (cond) body`, as an open loop that breaks with its state. -/
def whileLoop (fuel : Nat) (cond : σ → Bool) (body : σ → Comp σ) (s : σ) : Comp σ :=
  whileTrue (fun s => if cond s then Sum.inl <$> body s else .ok (.inr s)) fuel s

/-- **Invariant rule** for open loops. -/
theorem whileTrue_safe {round : σ → Comp (σ ⊕ β)} (I : σ → Prop) (Q : β → Prop)
    (hround : ∀ s, I s → Safe (round s) (Sum.elim I Q)) (fuel : Nat) (s : σ) (hs : I s) :
    Safe (whileTrue round fuel s) Q := by
  induction fuel generalizing s with
  | zero => exact safe_diverges
  | succ fuel ih =>
    unfold whileTrue
    apply (hround s hs).bind
    intro r hr
    -- Either the next round starts with `I`, or the break delivers `Q`.
    cases r with
    | inl s' => exact ih s' hr
    | inr b => exact safe_ok hr

/-- **Invariant rule** for `while (cond) body`. -/
theorem whileLoop_safe {cond : σ → Bool} {body : σ → Comp σ} (I : σ → Prop)
    (hbody : ∀ s, I s → cond s = true → Safe (body s) I) (fuel : Nat) (s : σ) (hs : I s) :
    Safe (whileLoop fuel cond body s) (fun s' => I s' ∧ cond s' = false) := by
  refine whileTrue_safe I _ (fun s hs => ?_) fuel s hs
  by_cases hc : cond s = true
  · rw [if_pos hc]
    exact (hbody s hs hc).bind fun s' hs' => safe_ok hs'
  · rw [if_neg hc]
    exact safe_ok ⟨hs, by simpa using hc⟩

/-- **Variant rule** for `while (cond) body`: `I n` holds after `n` rounds,
    and the condition fails within `bound` of them. -/
theorem whileLoop_returns {cond : σ → Bool} {body : σ → Comp σ} (I : Nat → σ → Prop) (bound : Nat)
    (hbody : ∀ n s, I n s → cond s = true → Returns (body s) (I (n + 1)))
    (hbound : ∀ n s, I n s → cond s = true → n < bound) {n fuel : Nat} {s : σ} (hs : I n s)
    (hn : n ≤ bound) (hfuel : bound < n + fuel) :
    Returns (whileLoop fuel cond body s) fun s' =>
      (∃ m, m ≤ bound ∧ I m s') ∧ cond s' = false := by
  induction fuel generalizing n s with
  | zero => omega
  | succ fuel ih =>
    unfold whileLoop whileTrue
    by_cases hc : cond s = true
    · obtain ⟨s', hs', hI⟩ := hbody n s hs hc
      -- The round just made is one that `bound` counts.
      have hlt := hbound n s hs hc
      rw [if_pos hc, hs']
      exact ih hI hlt (by omega)
    · rw [if_neg hc]
      exact returns_ok ⟨⟨n, hn, hs⟩, by simpa using hc⟩

end Checked
