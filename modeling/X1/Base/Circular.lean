import X1.Base.Word

/-! # Circular time

A clock counts without limit and is read modulo `2 ^ 32`. A reading `v` that is less
than half a turn away from the clock stands for one moment, its `place`. Readings that lie in
one window of less than half a turn are compared by their difference modulo `2 ^ 32`, and
that is the order of their places. A place does not move while the clock goes on, as
long as its reading stays in a window with the clock.
-/
namespace X1.Circular

/-- The moment nearest to `clock` whose reading is `v`. -/
def place (clock v : ℕ) : ℤ :=
  let d := ((v : ℤ) - clock) % 2 ^ 32
  if d < 2 ^ 31 then clock + d else clock + d - 2 ^ 32

/-- The readings fit in one window of less than half a turn. -/
def Window (S : ℕ → Prop) : Prop := ∃ base, ∀ v, S v → Word.sub v base < 2 ^ 31

variable {S : ℕ → Prop} {clock a b v : ℕ}

/-- A place reads as `v`. -/
theorem place_spec (clock v : ℕ) : ∃ n : ℤ, place clock v = v + 2 ^ 32 * n := by
  unfold place
  simp only
  split
  · exact ⟨-(((v : ℤ) - clock) / 2 ^ 32),by omega⟩
  · exact ⟨-(((v : ℤ) - clock) / 2 ^ 32) - 1,by omega⟩

theorem place_clock (clock : ℕ) : place clock (clock % 2 ^ 32) = clock := by
  unfold place
  simp only
  split <;> omega

/-- Two readings in the window are less than half a turn apart. -/
theorem Window.close (h : Window S) (hc : S (clock % 2 ^ 32)) (ha : S a) (hb : S b) :
    place clock a < place clock b + 2 ^ 31 := by
  obtain ⟨base,hbase⟩ := h
  have h₀ := hbase _ hc
  have h₁ := hbase _ ha
  have h₂ := hbase _ hb
  unfold Word.sub at h₀ h₁ h₂
  unfold place
  simp only
  split <;> split <;> omega

theorem Window.close_clock (h : Window S) (hc : S (clock % 2 ^ 32)) (ha : S a) :
    place clock a < clock + 2 ^ 31 ∧ (clock : ℤ) < place clock a + 2 ^ 31 := by
  have h₁ := h.close hc ha hc
  have h₂ := h.close hc hc ha
  rw [place_clock] at h₁ h₂
  exact ⟨h₁,h₂⟩

/-- A reading less than half a turn behind the clock keeps its place at the next tick. -/
theorem place_succ (h : (clock : ℤ) < place clock v + 2 ^ 31) : place (clock + 1) v = place clock v := by
  unfold place at h ⊢
  simp only at h ⊢
  push_cast
  split at h <;> split <;> omega

end X1.Circular
