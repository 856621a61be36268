import Mathlib.Data.Nat.ModEq
import Mathlib.Logic.Function.Basic
import Mathlib.Tactic.Ring

/-! # Windows of a circular array

The cells of an array of `capacity` cells, read from an index that may be arbitrarily
large and is taken modulo the capacity. Writing behind the end of a window that does
not fill the array makes it longer, and reading its first cell makes it shorter.
-/
namespace X1.Window

variable {α : Type*} {cells : ℕ → α} {capacity start n : ℕ}

/-- The `n` cells from `start` on. -/
def window (cells : ℕ → α) (capacity start n : ℕ) : List α :=
  (List.range n).map fun i => cells ((start + i) % capacity)

@[simp] theorem length_window : (window cells capacity start n).length = n := by simp [window]

theorem window_eq_nil : window cells capacity start n = [] ↔ n = 0 := by
  rw [← List.length_eq_zero_iff,length_window]

theorem window_congr {start' : ℕ} (h : start' % capacity = start % capacity) :
    window cells capacity start' n = window cells capacity start n := by
  refine List.map_congr_left fun i _ => congrArg cells ?_
  rw [Nat.add_mod,h,← Nat.add_mod]

theorem window_succ : window cells capacity start (n + 1) =
    cells (start % capacity) :: window cells capacity (start + 1) n := by
  unfold window
  rw [List.range_succ_eq_map,List.map_cons,List.map_map]
  refine congrArg _ (List.map_congr_left fun i _ => ?_)
  simp only [Function.comp_apply]
  congr 2
  omega

/-- A cell that is not in the window. -/
theorem index_ne {i : ℕ} (hi : i < n) (hn : n < capacity) :
    (start + i) % capacity ≠ (start + n) % capacity := by
  intro h
  have hmod : i ≡ n [MOD capacity] := Nat.ModEq.add_left_cancel' start h
  have := hmod.eq_of_lt_of_lt (hi.trans hn) hn
  omega

theorem window_push (hn : n < capacity) (a : α) :
    window (Function.update cells ((start + n) % capacity) a) capacity start (n + 1) =
      window cells capacity start n ++ [a] := by
  unfold window
  rw [List.range_succ,List.map_append,List.map_singleton,Function.update_self]
  refine congrArg (· ++ [a]) (List.map_congr_left fun i hi => ?_)
  exact Function.update_of_ne (index_ne (List.mem_range.mp hi) hn) _ _

end X1.Window
