import Mathlib.Data.List.Basic

/-! # What lists begin with

The longest list that all of some lists begin with.
-/
namespace X1.CommonPrefix

variable {α : Type*} [DecidableEq α] {a b p : List α} {l : List (List α)}

/-- What two lists begin with. -/
def common : List α → List α → List α
  | x :: a,y :: b => if x = y then x :: common a b else []
  | _,_ => []

/-- What all of some lists begin with. -/
def commonAll : List (List α) → List α
  | [] => []
  | [a] => a
  | a :: b :: l => common a (commonAll (b :: l))

theorem prefix_common_iff : p <+: common a b ↔ p <+: a ∧ p <+: b := by
  induction p generalizing a b with
  | nil => simp
  | cons z p ih =>
    cases a with
    | nil => simp [common]
    | cons x a =>
      cases b with
      | nil => simp [common]
      | cons y b =>
        by_cases hxy : x = y
        · subst hxy
          simp only [common,if_true,List.cons_prefix_cons,ih]
          tauto
        · simp only [common,if_neg hxy,List.cons_prefix_cons]
          constructor
          · intro h
            exact absurd h (by simp)
          · rintro ⟨⟨rfl,-⟩,rfl,-⟩
            exact absurd rfl hxy

theorem prefix_commonAll_iff (hl : l ≠ []) : p <+: commonAll l ↔ ∀ a ∈ l,p <+: a := by
  induction l with
  | nil => exact absurd rfl hl
  | cons a l ih =>
    cases l with
    | nil => simp [commonAll]
    | cons b l =>
      rw [commonAll,prefix_common_iff,ih (by simp)]
      exact List.forall_mem_cons.symm

/-- It is what any of the lists begins with, up to the length that is the greatest. -/
theorem commonAll_eq_take {n : ℕ} (ha : a ∈ l) (hn : ∃ p,p.length = n ∧ ∀ b ∈ l,p <+: b)
    (hmax : ∀ p,(∀ b ∈ l,p <+: b) → p.length ≤ n) : commonAll l = a.take n := by
  have hl : l ≠ [] := List.ne_nil_of_mem ha
  have hall : ∀ b ∈ l,commonAll l <+: b := (prefix_commonAll_iff hl).mp (List.prefix_refl _)
  obtain ⟨p,rfl,hp⟩ := hn
  have hlen : (commonAll l).length = p.length :=
    Nat.le_antisymm (hmax _ hall) ((prefix_commonAll_iff hl).mpr hp).length_le
  rw [List.prefix_iff_eq_take.mp (hall a ha),hlen]

end X1.CommonPrefix
