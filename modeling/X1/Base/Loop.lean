import Mathlib.Logic.Function.Iterate

/-! # Loops with a number of turns

A loop is given a number of turns, and `none` means that it was not enough. A loop ends when
something counts its turns, and never ends when its test and something that its body keeps
go on together.
-/
namespace X1.Loop

variable {σ : Type*} {turns n : ℕ} {s : σ}

/-- `while (test) body` -/
def whileLoop (test : σ → Bool) (body : σ → σ) : ℕ → σ → Option σ
  | 0,_ => none
  | turns + 1,s => if test s then whileLoop test body turns (body s) else some s

/-- A loop whose turns are counted by its invariant. -/
theorem whileLoop_counted (test : σ → Bool) (body : σ → σ) (I : ℕ → σ → Prop) (hbody : ∀ n s,I (n + 1) s → test s = true ∧ I n (body s))
    (hend : ∀ s,I 0 s → test s = false) (h : I n s) (hturns : n < turns) :
    ∃ s',whileLoop test body turns s = some s' ∧ I 0 s' := by
  induction n generalizing s turns with
  | zero =>
    obtain ⟨turns,rfl⟩ := Nat.exists_eq_succ_of_ne_zero (Nat.ne_of_gt hturns)
    refine ⟨s,?_,h⟩
    rw [whileLoop,hend s h]
    rfl
  | succ n ih =>
    obtain ⟨turns,rfl⟩ := Nat.exists_eq_succ_of_ne_zero (Nat.ne_of_gt (Nat.zero_lt_of_lt hturns))
    obtain ⟨htest,hnext⟩ := hbody n s h
    obtain ⟨s',hrun,hs'⟩ := ih hnext (by omega : n < turns)
    refine ⟨s',?_,hs'⟩
    rw [whileLoop,htest]
    exact hrun

/-- A loop that goes on whatever the number of turns. -/
theorem whileLoop_forever (test : σ → Bool) (body : σ → σ) (I : σ → Prop) (hbody : ∀ s,I s → test s = true ∧ I (body s)) (h : I s) (turns : ℕ) :
    whileLoop test body turns s = none := by
  induction turns generalizing s with
  | zero => rfl
  | succ turns ih =>
    obtain ⟨htest,hnext⟩ := hbody s h
    rw [whileLoop,htest]
    exact ih hnext

end X1.Loop
