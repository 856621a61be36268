import Mathlib.Algebra.Order.Group.Int
import Mathlib.Data.List.Lex

/-! # Comparing lists by their first difference

Two lists are compared by the keys of the first elements in which they differ, and the key after
the end of a list is zero. When no element has that key, the sign of the result is the
lexicographic order of the keys with a zero at the end: no marked list is the beginning of another
one, so that a list may come before its own beginnings as well as after them.
-/
namespace X1.FirstDifference

variable {α : Type*} [DecidableEq α] {key : α → ℤ} {a b c : List α}

def difference (key : α → ℤ) : List α → List α → ℤ
  | [],[] => 0
  | [],y :: _ => -key y
  | x :: _,[] => key x
  | x :: xs,y :: ys => if x = y then difference key xs ys else key x - key y

/-- The keys, and the zero at the end. -/
def marked (key : α → ℤ) (a : List α) : List ℤ := a.map key ++ [0]

@[simp] theorem difference_cons_self (x : α) (xs ys : List α) :
    difference key (x :: xs) (x :: ys) = difference key xs ys := if_pos rfl

theorem difference_cons_of_ne {x y : α} (h : x ≠ y) (xs ys : List α) :
    difference key (x :: xs) (y :: ys) = key x - key y := if_neg h

theorem difference_swap (a b : List α) : difference key a b = -difference key b a := by
  induction a generalizing b with
  | nil => cases b <;> simp [difference]
  | cons x xs ih =>
    cases b with
    | nil => simp [difference]
    | cons y ys =>
      by_cases h : x = y
      · subst h
        simpa using ih ys
      · rw [difference_cons_of_ne h,difference_cons_of_ne (Ne.symm h)]
        omega

theorem difference_eq_zero_iff (hkey : key.Injective) (ha : ∀ x ∈ a, key x ≠ 0)
    (hb : ∀ x ∈ b, key x ≠ 0) : difference key a b = 0 ↔ a = b := by
  induction a generalizing b with
  | nil =>
    cases b with
    | nil => simp [difference]
    | cons y ys =>
      have hy : key y ≠ 0 := hb y (by simp)
      simp [difference,hy]
  | cons x xs ih =>
    cases b with
    | nil =>
      have hx : key x ≠ 0 := ha x (by simp)
      simp [difference,hx]
    | cons y ys =>
      by_cases h : x = y
      · subst h
        rw [difference_cons_self,ih (fun z hz => ha z (by simp [hz])) (fun z hz => hb z (by simp [hz]))]
        simp
      · have hne : key x ≠ key y := fun he => h (hkey he)
        rw [difference_cons_of_ne h]
        simp [h,sub_eq_zero,hne]

/-- The order is decided where the marked lists first differ. -/
theorem difference_neg_iff (hkey : key.Injective) (hb : ∀ x ∈ b, key x ≠ 0) :
    difference key a b < 0 ↔ marked key a < marked key b := by
  induction a generalizing b with
  | nil =>
    cases b with
    | nil => simp [difference,marked]
    | cons y ys =>
      have hy : key y ≠ 0 := hb y (by simp)
      simp [difference,marked,List.cons_lt_cons_iff,hy.symm]
  | cons x xs ih =>
    cases b with
    | nil => simp [difference,marked,List.cons_lt_cons_iff]
    | cons y ys =>
      by_cases h : x = y
      · subst h
        rw [difference_cons_self,ih fun z hz => hb z (by simp [hz])]
        simp [marked]
      · have hne : key x ≠ key y := fun he => h (hkey he)
        have hlt : key x - key y < 0 ↔ key x < key y := by omega
        rw [difference_cons_of_ne h,hlt]
        simp [marked,List.cons_lt_cons_iff,hne]

theorem difference_trans (hkey : key.Injective) (hb : ∀ x ∈ b, key x ≠ 0) (hc : ∀ x ∈ c, key x ≠ 0)
    (hab : difference key a b < 0) (hbc : difference key b c < 0) : difference key a c < 0 := by
  rw [difference_neg_iff hkey hb] at hab
  rw [difference_neg_iff hkey hc] at hbc ⊢
  exact hab.trans hbc

/-- What two lists begin with, the lists between them begin with. -/
theorem difference_between {p : List α} (ha : p <+: a) (hc : p <+: c) (hab : difference key a b < 0)
    (hbc : difference key b c < 0) : p <+: b := by
  induction p generalizing a b c with
  | nil => exact List.nil_prefix
  | cons x p ih =>
    obtain ⟨a,rfl⟩ := ha
    obtain ⟨c,rfl⟩ := hc
    rw [List.cons_append] at hab hbc
    cases b with
    | nil =>
      simp only [difference] at hab hbc
      omega
    | cons y b =>
      by_cases h : x = y
      · subst h
        rw [difference_cons_self] at hab hbc
        exact List.prefix_cons_inj x |>.mpr (ih ⟨a,rfl⟩ ⟨c,rfl⟩ hab hbc)
      · rw [difference_cons_of_ne h] at hab
        rw [difference_cons_of_ne (Ne.symm h)] at hbc
        omega

end X1.FirstDifference
