import Mathlib.Logic.Basic

/-! # The owner of a lock

A lock records its owner, and each agent is at a place where it holds the lock or at one
where it does not. The record is right when it names the agents that hold the lock, so that
there is at most one of them. It stays right when one agent takes the free lock, gives it
back, or moves between places that agree.
-/
namespace X1.Owner
variable {A : Type*} {owner owner' : Option A} {holds holds' : A → Bool} {a b : A}

def Owned (owner : Option A) (holds : A → Bool) : Prop := ∀ a, owner = some a ↔ holds a = true

namespace Owned

theorem update (h : Owned owner holds) (hother : ∀ b, b ≠ a → holds' b = holds b)
    (hself : (owner' = owner ∧ holds' a = holds a) ∨
      (owner = none ∧ owner' = some a ∧ holds' a = true) ∨
      (holds a = true ∧ owner' = none ∧ holds' a = false)) : Owned owner' holds' := by
  intro b
  rcases hself with ⟨ho,ha⟩ | ⟨ho,ho',ha⟩ | ⟨ho,ho',ha⟩
  · rw [ho]
    by_cases hb : b = a
    · subst hb
      rw [ha]
      exact h b
    · rw [hother b hb]
      exact h b
  · rw [ho']
    by_cases hb : b = a
    · subst hb
      simp [ha]
    · rw [hother b hb,← h b,ho]
      simp [Ne.symm hb]
  · rw [ho']
    by_cases hb : b = a
    · subst hb
      simp [ha]
    · rw [hother b hb,← h b,(h a).mpr ho]
      simp [Ne.symm hb]

/-- Two agents cannot hold the lock. -/
theorem unique (h : Owned owner holds) (ha : holds a = true) (hb : holds b = true) : a = b := by
  have := ((h a).mpr ha).symm.trans ((h b).mpr hb)
  simpa using this

end Owned

end X1.Owner
