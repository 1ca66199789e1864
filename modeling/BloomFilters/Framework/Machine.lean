import BloomFilters.Framework.Checked

/-! # Machines that answer requests

    A machine takes one request after the other, each of which changes its
    state and gets a reply, or faults. A *specification* is a machine that
    never faults, over an abstract state.

    * **Refinement**: if single steps keep a relation between the two states
      and give equal replies, whole sessions do.
    * **Agreement**: two machines that refine one specification cannot be told
      apart by their replies.
-/

open Checked

namespace Machine

variable {σ σ' ι ι' ο : Type} {τ : Type*}

/-! ## Sessions -/

/-- The replies to a sequence of requests, and the state behind it. -/
def session (step : σ → ι → Comp (σ × ο)) : σ → List ι → Comp (σ × List ο)
  | s, [] => .ok (s, [])
  | s, i :: is => do
    let (s, o) ← step s i
    let (s, os) ← session step s is
    return (s, o :: os)

/-- The same for a specification. -/
def trace (spec : τ → ι → τ × ο) : τ → List ι → τ × List ο
  | t, [] => (t, [])
  | t, i :: is => ((trace spec (spec t i).1 is).1, (spec t i).2 :: (trace spec (spec t i).1 is).2)

section trace

variable {spec : τ → ι → τ × ο}

@[simp] theorem length_trace (t : τ) (is : List ι) : (trace spec t is).2.length = is.length := by
  induction is generalizing t with
  | nil => rfl
  | cons i is ih => simp [trace, ih]

/-- Each reply is given in the state that the requests before it lead to. -/
theorem trace_reply (t : τ) (is : List ι) (j : Nat) (hj : j < is.length) :
    (trace spec t is).2[j]? =
      some (spec ((is.take j).foldl (fun t i => (spec t i).1) t) is[j]).2 := by
  induction is generalizing t j with
  | nil => exact absurd hj (Nat.not_lt_zero j)
  | cons i is ih =>
    cases j with
    | zero => rfl
    | succ j => exact ih _ j (Nat.lt_of_succ_lt_succ hj)

/-- Requests that a specification does not tell apart get the same replies. -/
theorem trace_map {spec' : τ → ι' → τ × ο} {f : ι → ι'} (h : ∀ t i, spec' t (f i) = spec t i)
    (t : τ) (is : List ι) : trace spec' t (is.map f) = trace spec t is := by
  induction is generalizing t with
  | nil => rfl
  | cons i is ih => simp only [List.map_cons, trace, h, ih]

end trace

/-! ## Refinement -/

/-- Steps on admissible requests keep `R` and give the specified replies. -/
def Refines (step : σ → ι → Comp (σ × ο)) (spec : τ → ι → τ × ο) (ok : ι → Prop)
    (R : σ → τ → Prop) : Prop :=
  ∀ s t i, R s t → ok i → Returns (step s i) fun r => r.2 = (spec t i).2 ∧ R r.1 (spec t i).1

/-- **Refinement**: so do whole sessions. -/
theorem Refines.session {step : σ → ι → Comp (σ × ο)} {spec : τ → ι → τ × ο} {ok : ι → Prop}
    {R : σ → τ → Prop} (h : Refines step spec ok R) {s : σ} {t : τ} (hst : R s t) {is : List ι}
    (hok : ∀ i ∈ is, ok i) : Returns (session step s is) fun r =>
      r.2 = (trace spec t is).2 ∧ R r.1 (trace spec t is).1 := by
  induction is generalizing s t with
  | nil => exact returns_ok ⟨rfl, hst⟩
  | cons i is ih =>
    -- The first step leads to related states, from where the rest is a session again.
    apply (h s t i hst (hok i List.mem_cons_self)).bind
    intro r hr
    obtain ⟨hreply, hR⟩ := hr
    apply (ih hR fun k hk => hok k (List.mem_cons_of_mem i hk)).bind
    intro r' hr'
    obtain ⟨hreplies, hR'⟩ := hr'
    exact returns_ok ⟨by rw [hreply, hreplies]; rfl, hR'⟩

/-- **Agreement**: two machines that refine one specification give the same
    replies. -/
theorem Refines.agree {step : σ → ι → Comp (σ × ο)} {step' : σ' → ι' → Comp (σ' × ο)}
    {spec : τ → ι → τ × ο} {spec' : τ → ι' → τ × ο} {ok : ι → Prop} {ok' : ι' → Prop}
    {R : σ → τ → Prop} {R' : σ' → τ → Prop} (h : Refines step spec ok R)
    (h' : Refines step' spec' ok' R') {f : ι → ι'} (hspec : ∀ t i, spec' t (f i) = spec t i)
    (hmap : ∀ i, ok i → ok' (f i)) {s : σ} {s' : σ'} {t : τ} (hst : R s t) (hst' : R' s' t)
    {is : List ι} (hok : ∀ i ∈ is, ok i) : Returns (Machine.session step s is) fun r =>
      Returns (Machine.session step' s' (is.map f)) fun r' => r.2 = r'.2 ∧
        ∃ t, R r.1 t ∧ R' r'.1 t := by
  have hok' : ∀ i ∈ is.map f, ok' i := by
    intro i hi
    obtain ⟨k, hk, rfl⟩ := List.mem_map.mp hi
    exact hmap k (hok k hk)
  apply (h.session hst hok).mono
  intro r hr
  apply (h'.session hst' hok').mono
  intro r' hr'
  rw [trace_map hspec] at hr'
  exact ⟨hr.1.trans hr'.1.symm, _, hr.2, hr'.2⟩

end Machine
