import Mathlib.Data.Option.Basic
import Mathlib.Logic.Basic

/-! # Computations that can fault

A triple for computations in `Except`: the result is a fault of a tolerated kind,
or a value that satisfies the postcondition. The rules follow the structure of a
`do` block. Schedules of moves that may not apply are folds in `Option`.
-/
namespace X1.Checked

universe u

variable {ε : Type*} {α β : Type u} {tolerated : ε → Prop} {r : Except ε α} {P Q : α → Prop}

/-- The computation ends in a tolerated fault or in a value with `P`. -/
def Safe (tolerated : ε → Prop) (r : Except ε α) (P : α → Prop) : Prop :=
  match r with
  | .ok a => P a
  | .error e => tolerated e

@[simp] theorem safe_ok {a : α} : Safe tolerated (.ok a : Except ε α) P ↔ P a := Iff.rfl

@[simp] theorem safe_pure {a : α} : Safe tolerated (pure a : Except ε α) P ↔ P a := Iff.rfl

@[simp] theorem safe_error {e : ε} : Safe tolerated (.error e : Except ε α) P ↔ tolerated e := Iff.rfl

theorem Safe.bind {f : α → Except ε β} {R : β → Prop} (h : Safe tolerated r P)
    (hf : ∀ a, P a → Safe tolerated (f a) R) : Safe tolerated (r >>= f) R := by
  cases r with
  | ok a => exact hf a h
  | error e => exact h

theorem Safe.mono (h : Safe tolerated r P) (hPQ : ∀ a, P a → Q a) : Safe tolerated r Q := by
  cases r with
  | ok a => exact hPQ a h
  | error e => exact h

theorem Safe.of_ok {a : α} (h : Safe tolerated r P) (hr : r = .ok a) : P a := by
  subst hr
  exact h

theorem Safe.ne_error {e : ε} (h : Safe tolerated r P) (he : ¬tolerated e) : r ≠ .error e := by
  rintro rfl
  exact he h

theorem bind_eq_ok {f : α → Except ε β} {b : β} (h : r >>= f = .ok b) :
    ∃ a, r = .ok a ∧ f a = .ok b := by
  cases r with
  | ok a => exact ⟨a,rfl,h⟩
  | error _ => cases h

/-- What each move of a schedule keeps, the schedule keeps. -/
theorem foldlM_keeps {σ μ : Type u} {f : σ → μ → Option σ} {P : σ → Prop} {ms : List μ}
    (hstep : ∀ m ∈ ms, ∀ s s', P s → f s m = some s' → P s') :
    ∀ {s s' : σ}, P s → ms.foldlM f s = some s' → P s' := by
  induction ms with
  | nil =>
    intro s s' hs h
    cases h
    exact hs
  | cons m ms ih =>
    intro s s' hs h
    rw [List.foldlM_cons] at h
    obtain ⟨s₁,h₁,h⟩ := Option.bind_eq_some_iff.mp h
    exact ih (fun m' hm' => hstep m' (List.mem_cons_of_mem _ hm')) (hstep m (by simp) s s₁ hs h₁) h

end X1.Checked
