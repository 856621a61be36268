import X1.Base.Word

/-! # The power of two macros of lib/macros.h -/
namespace X1.Lib
open X1.Word

def p2Aligned (x a : ℕ) : Bool := x &&& (sub a 1) = 0

/-- `P2ROUND`: two negations around a mask, all modulo `2 ^ 32`. -/
def p2Round (x a : ℕ) : ℕ := neg (neg x &&& neg a)

theorem p2Aligned_four (x : ℕ) : p2Aligned x 4 = true ↔ x % 4 = 0 := by
  have h : sub 4 1 = 2 ^ 2 - 1 := by decide
  rw [p2Aligned,decide_eq_true_iff,h,and_low_mask]
  norm_num

theorem p2Round_four {x : ℕ} (hx : x < 2 ^ 32) : p2Round x 4 = (x + 3) / 4 * 4 % 2 ^ 32 := by
  have h : neg 4 = 2 ^ 32 - 2 ^ 2 := by decide
  rw [p2Round,h,and_high_mask (show neg x < 2 ^ 32 from sub_lt 0 x) (by norm_num)]
  simp only [neg,sub]
  omega

end X1.Lib
