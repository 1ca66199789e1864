import Mathlib.GroupTheory.Perm.Cycle.Basic
import BloomFilters.Framework.Checked

/-! # Redraw loops over a permutation

    `while (true) { x = f(x); if (accept(x)) break; }` with `f` a
    permutation of a finite type. Such a loop has no decreasing measure:
    the states it visits are the cycle of `f` through the first one. It
    breaks iff some element of that cycle is accepted, and then it does
    so within one turn of the cycle.
-/

open Checked

namespace Orbit

variable {α β : Type} {f : Equiv.Perm α} {accept : α → Prop} [DecidablePred accept]
         {result : α → β} {round : α → Comp (α ⊕ β)}

/-- `round` advances by `f` and breaks at an accepted element. -/
def IsRedraw (f : Equiv.Perm α) (accept : α → Prop) [DecidablePred accept] (result : α → β)
    (round : α → Comp (α ⊕ β)) : Prop :=
  ∀ x, round x = .ok (if accept (f x) then .inr (result (f x)) else .inl (f x))

/-- `y` is the first accepted element after `x`. -/
def FirstAccepted (f : Equiv.Perm α) (accept : α → Prop) (x y : α) : Prop :=
  ∃ n : Nat, (f ^ (n + 1)) x = y ∧ accept y ∧ ∀ m, m < n → ¬ accept ((f ^ (m + 1)) x)

/-- One round: the loop breaks at `f x` or goes on from there. -/
theorem whileTrue_succ (h : IsRedraw f accept result round) (fuel : Nat) (x : α) :
    whileTrue round (fuel + 1) x =
      if accept (f x) then .ok (result (f x)) else whileTrue round fuel (f x) := by
  rw [whileTrue, h x, ok_bind]
  by_cases hx : accept (f x)
  · rw [if_pos hx, if_pos hx]; rfl
  · rw [if_neg hx, if_neg hx]

/-- The loop breaks within `n + 1` rounds if the first accepted element is
    `n + 1` steps away. -/
theorem whileTrue_of_first (h : IsRedraw f accept result round) {x y : α} {n fuel : Nat}
    (hy : (f ^ (n + 1)) x = y) (hacc : accept y)
    (hfirst : ∀ m, m < n → ¬ accept ((f ^ (m + 1)) x)) (hfuel : n < fuel) :
    whileTrue round fuel x = .ok (result y) := by
  -- Induction on the distance: a step of the walk makes it shorter by one.
  induction n generalizing x fuel with
  | zero =>
    obtain ⟨fuel, rfl⟩ : ∃ k, fuel = k + 1 := ⟨fuel - 1, by omega⟩
    have hfx : f x = y := by simpa using hy
    rw [whileTrue_succ h, hfx, if_pos hacc]
  | succ n ih =>
    obtain ⟨fuel, rfl⟩ : ∃ k, fuel = k + 1 := ⟨fuel - 1, by omega⟩
    have hnot : ¬ accept (f x) := by simpa using hfirst 0 (by omega)
    rw [whileTrue_succ h, if_neg hnot]
    refine ih ?_ (fun m hm => ?_) (by omega)
    · rw [← hy, pow_succ f (n + 1), Equiv.Perm.mul_apply]
    · have := hfirst (m + 1) (by omega)
      rwa [pow_succ f (m + 1), Equiv.Perm.mul_apply] at this

/-- What a loop that breaks has computed: the result at the first accepted
    element. -/
theorem first_of_whileTrue (h : IsRedraw f accept result round) {x : α} {b : β} {fuel : Nat}
    (hb : whileTrue round fuel x = .ok b) :
    ∃ y, FirstAccepted f accept x y ∧ b = result y := by
  induction fuel generalizing x with
  | zero => simp [whileTrue] at hb
  | succ fuel ih =>
    rw [whileTrue_succ h] at hb
    by_cases hx : accept (f x)
    · rw [if_pos hx] at hb
      exact ⟨f x, ⟨0, by simp, hx, fun m hm => absurd hm (by omega)⟩, by cases hb; rfl⟩
    · rw [if_neg hx] at hb
      obtain ⟨y, ⟨n, hy, hacc, hfirst⟩, rfl⟩ := ih hb
      -- What is first after `f x` is first after `x`, which was not accepted itself.
      refine ⟨y, ⟨n + 1, ?_, hacc, fun m hm => ?_⟩, rfl⟩
      · rw [← hy, pow_succ f (n + 1), Equiv.Perm.mul_apply]
      · cases m with
        | zero => simpa using hx
        | succ m =>
          rw [pow_succ f (m + 1), Equiv.Perm.mul_apply]
          exact hfirst m (by omega)

omit [DecidablePred accept] in
/-- There is at most one first accepted element. -/
theorem FirstAccepted.unique {x y z : α} (hy : FirstAccepted f accept x y)
    (hz : FirstAccepted f accept x z) : y = z := by
  obtain ⟨n, hn, hyacc, hyfirst⟩ := hy
  obtain ⟨m, hm, hzacc, hzfirst⟩ := hz
  -- The nearer of the two would be an accepted element before the other.
  rcases Nat.lt_trichotomy n m with hlt | rfl | hgt
  · exact absurd (hn ▸ hyacc) (hzfirst n hlt)
  · rw [← hn, hm]
  · exact absurd (hm ▸ hzacc) (hyfirst m hgt)

omit [DecidablePred accept] in
/-- The elements up to the first accepted one are pairwise distinct: a
    repetition would make the walk periodic before it is accepted. -/
theorem walk_injective {x : α} {n : Nat} (hacc : accept ((f ^ (n + 1)) x))
    (hfirst : ∀ m, m < n → ¬ accept ((f ^ (m + 1)) x)) {i j : Nat} (hij : i < j) (hj : j ≤ n) :
    (f ^ (i + 1)) x ≠ (f ^ (j + 1)) x := by
  intro heq
  -- Walk on from both until the farther one arrives at the accepted element.
  have hshift : (f ^ (n - j + (i + 1))) x = (f ^ (n - j + (j + 1))) x := by
    rw [pow_add f _ (i + 1), pow_add f _ (j + 1), Equiv.Perm.mul_apply, Equiv.Perm.mul_apply, heq]
  rw [show n - j + (j + 1) = n + 1 from by omega] at hshift
  apply hfirst (n - j + i) (by omega)
  rw [Nat.add_assoc, hshift]
  exact hacc

section Finite

variable [Fintype α]

omit [DecidablePred accept] in
/-- **Escape**: if the cycle through `x` has an accepted element, the first
    one is at most one turn of the cycle away. -/
theorem exists_first_of_sameCycle {x y : α} (hxy : f.SameCycle x y) (hacc : accept y) :
    ∃ n, n < Fintype.card α ∧ accept ((f ^ (n + 1)) x) ∧
      ∀ m, m < n → ¬ accept ((f ^ (m + 1)) x) := by
  classical
  -- The cycle returns to `y`, so some positive power reaches it.
  have hex : ∃ n, accept ((f ^ (n + 1)) x) := by
    obtain ⟨i, hpos, -, hi⟩ := hxy.exists_pow_eq''
    exact ⟨i - 1, by rw [Nat.sub_add_cancel hpos, hi]; exact hacc⟩
  obtain ⟨n, hn, hfirst⟩ : ∃ n, accept ((f ^ (n + 1)) x) ∧
      ∀ m, m < n → ¬ accept ((f ^ (m + 1)) x) :=
    ⟨Nat.find hex, Nat.find_spec hex, fun m hm => Nat.find_min hex hm⟩
  have hinj : Function.Injective fun i : Fin (n + 1) => (f ^ (i.val + 1)) x := by
    intro i j hij
    rcases Nat.lt_trichotomy i.val j.val with hlt | heq | hgt
    · exact absurd hij (walk_injective hn hfirst hlt (by omega))
    · exact Fin.ext heq
    · exact absurd hij.symm (walk_injective hn hfirst hgt (by omega))
  -- So the walk is no longer than the type is large.
  have hcard := Fintype.card_le_of_injective _ hinj
  rw [Fintype.card_fin] at hcard
  exact ⟨n, by omega, hn, hfirst⟩

/-- Fuel for one turn of the longest cycle is as good as any fuel. -/
theorem whileTrue_card (h : IsRedraw f accept result round) {x : α} {b : β} {fuel : Nat}
    (hb : whileTrue round fuel x = .ok b) :
    whileTrue round (Fintype.card α) x = .ok b := by
  obtain ⟨y, hy, rfl⟩ := first_of_whileTrue h hb
  obtain ⟨k, hk, hacc, -⟩ := id hy
  obtain ⟨n, hn, hacc', hfirst⟩ :=
    exists_first_of_sameCycle (f := f) (x := x) ⟨k + 1, by exact_mod_cast hk⟩ hacc
  rw [FirstAccepted.unique hy ⟨n, rfl, hacc', hfirst⟩]
  exact whileTrue_of_first h rfl hacc' hfirst hn

end Finite

end Orbit
