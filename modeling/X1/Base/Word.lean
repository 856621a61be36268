import Mathlib.Data.Nat.Bitwise
import Mathlib.Tactic.Ring
import Mathlib.Tactic.NormNum

/-! # Unsigned 32-bit words as natural numbers

A word is a natural number below `2 ^ 32` and every operation reduces its result
modulo `2 ^ 32`. The lemmas turn masks with a power of two into division and
remainder, after which `omega` decides the goals.
-/
namespace X1.Word

def add (a b : ℕ) : ℕ := (a + b) % 2 ^ 32

def sub (a b : ℕ) : ℕ := (a + (2 ^ 32 - b % 2 ^ 32)) % 2 ^ 32

def neg (a : ℕ) : ℕ := sub 0 a

def lnot (a : ℕ) : ℕ := 2 ^ 32 - 1 - a % 2 ^ 32

theorem add_lt (a b : ℕ) : add a b < 2 ^ 32 := Nat.mod_lt _ (by norm_num)

theorem sub_lt (a b : ℕ) : sub a b < 2 ^ 32 := Nat.mod_lt _ (by norm_num)

theorem add_of_lt {a b : ℕ} (h : a + b < 2 ^ 32) : add a b = a + b := Nat.mod_eq_of_lt h

theorem sub_of_le {a b : ℕ} (h : b ≤ a) (ha : a < 2 ^ 32) : sub a b = a - b := by
  unfold sub
  omega

/-- What was added is the distance. -/
theorem sub_add_left (a b : ℕ) : sub ((a + b) % 2 ^ 32) a = b % 2 ^ 32 := by
  unfold sub
  omega

theorem and_high_mask {n k : ℕ} (hn : n < 2 ^ 32) (hk : k ≤ 32) :
    n &&& (2 ^ 32 - 2 ^ k) = n / 2 ^ k * 2 ^ k := by
  have hmask : 2 ^ 32 - 2 ^ k = 2 ^ k * (2 ^ (32 - k) - 1) := by
    rw [Nat.mul_sub,← pow_add,Nat.add_sub_cancel' hk,Nat.mul_one]
  rw [hmask,mul_comm (n / 2 ^ k)]
  refine Nat.eq_of_testBit_eq fun i => ?_
  rw [Nat.testBit_and,Nat.testBit_two_pow_mul,Nat.testBit_two_pow_mul,Nat.testBit_two_pow_sub_one,
    Nat.testBit_div_two_pow]
  by_cases hki : k ≤ i
  · by_cases hi : i < 32
    · simp [hki,show i - k < 32 - k by omega]
    · have hf : n.testBit i = false :=
        Nat.testBit_lt_two_pow (hn.trans_le (Nat.pow_le_pow_right (by norm_num) (by omega)))
      simp [hki,hf]
  · simp [hki]

theorem and_low_mask (n k : ℕ) : n &&& (2 ^ k - 1) = n % 2 ^ k := Nat.and_two_pow_sub_one_eq_mod n k

theorem or_one (n : ℕ) : n ||| 1 = n / 2 * 2 + 1 := by
  refine Nat.eq_of_testBit_eq fun i => ?_
  cases i with
  | zero => simp [Nat.testBit_zero]
  | succ i =>
    rw [Nat.testBit_or,Nat.testBit_succ,Nat.testBit_succ,Nat.testBit_succ]
    have : (n / 2 * 2 + 1) / 2 = n / 2 := by omega
    simp [this]

end X1.Word
