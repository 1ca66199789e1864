import BloomFilters.Framework.Checked

/-! # Test harnesses

    A test is a sequence of calls into the checked code and of assertions.
    It passes, an assertion fails with its message, or one of the calls
    commits a fault.

    * **Passing**: what a test that passes has established, step by step.
    * **Loops**: a loop of assertions passes iff all of its rounds do.
-/

namespace Harness

open Checked

/-- Why a test does not pass. -/
inductive Failure where
  | fault (e : Fault)
  | failed (what : String)
  deriving DecidableEq, Repr

abbrev Test (α : Type) := Except Failure α

variable {α β : Type}

/-- A call of the code under test. -/
def call (c : Comp α) : Test α :=
  match c with
  | .ok a => .ok a
  | .error e => .error (.fault e)

@[simp] theorem call_ok (a : α) : call (.ok a) = .ok a := rfl

@[simp] theorem call_error (e : Fault) : (call (.error e) : Test α) = .error (.fault e) := rfl

theorem call_eq_ok {c : Comp α} {a : α} : call c = .ok a ↔ c = .ok a := by
  cases c with
  | ok b => simp
  | error e => simp

theorem bind_eq_ok {c : Test α} {f : α → Test β} {b : β} :
    (c >>= f) = .ok b ↔ ∃ a, c = .ok a ∧ f a = .ok b := by
  constructor
  · exact exists_of_bind_ok
  · rintro ⟨a, rfl, hf⟩
    exact hf

/-- A call, and what is done with its value. -/
theorem call_bind_eq_ok {c : Comp α} {f : α → Test β} {b : β} :
    (call c >>= f) = .ok b ↔ ∃ a, c = .ok a ∧ f a = .ok b := by
  simp only [bind_eq_ok, call_eq_ok]

/-- An assertion in front of a test. -/
theorem unit_bind_eq_ok {c : Test Unit} {t : Test β} {b : β} :
    (c >>= fun _ => t) = .ok b ↔ c = .ok () ∧ t = .ok b := by
  rw [bind_eq_ok]
  constructor
  · rintro ⟨⟨⟩, hc, ht⟩
    exact ⟨hc, ht⟩
  · rintro ⟨hc, ht⟩
    exact ⟨(), hc, ht⟩

theorem forM_eq_ok {l : List α} {f : α → Test Unit} :
    forM l f = .ok () ↔ ∀ x ∈ l, f x = .ok () := by
  induction l with
  | nil => exact ⟨fun _ x hx => (by cases hx), fun _ => rfl⟩
  | cons x l ih =>
    rw [List.forM_cons, unit_bind_eq_ok, ih, List.forall_mem_cons]

/-- The rounds in front of the first one that does not pass leave no trace. -/
theorem forM_eq_error {l : List α} {f : α → Test Unit} {before after : List α} {x : α} {e : Failure}
    (hl : l = before ++ x :: after) (hbefore : ∀ y ∈ before, f y = .ok ()) (hx : f x = .error e) :
    forM l f = .error e := by
  subst hl
  induction before with
  | nil =>
    rw [List.nil_append, List.forM_cons, hx]
    rfl
  | cons y before ih =>
    rw [List.cons_append, List.forM_cons, hbefore y (by simp), ok_bind]
    exact ih fun z hz => hbefore z (by simp [hz])

end Harness
