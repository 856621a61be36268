import Mathlib.Data.List.GetD
import X1.Base.Window

/-! # Writing a range of a circular array

A range is written in one piece, or in two when it reaches over the end of the array. What
a window shows afterwards is the list it showed before with the new data in it, less the
oldest elements when there is no more room.
-/
namespace X1.Window

variable {α : Type*} {cells cells' : ℕ → α} {capacity start index n k : ℕ} {data l : List α}

/-- The cells after `data` has been copied to `offset`. -/
def overwrite (cells : ℕ → α) (offset : ℕ) (data : List α) : ℕ → α := fun i =>
  if offset ≤ i then data.getD (i - offset) (cells i) else cells i

/-- The `n` cells from `offset` on, within the array. -/
def slice (cells : ℕ → α) (offset n : ℕ) : List α := (List.range n).map fun i => cells (offset + i)

/-- A list with `data` in place of what it has from position `k` on. -/
def splice (l : List α) (k : ℕ) (data : List α) : List α := l.take k ++ data ++ l.drop (k + data.length)

/-- One turn of the array from `index` on holds `data`, and then what it held before. -/
def Wrote (cells cells' : ℕ → α) (capacity index : ℕ) (data : List α) : Prop :=
  ∀ i < capacity,cells' ((index + i) % capacity) = data.getD i (cells ((index + i) % capacity))

theorem length_splice (hk : k ≤ l.length) :
    (splice l k data).length = max l.length (k + data.length) := by
  simp only [splice,List.length_append,List.length_take,List.length_drop]
  omega

theorem splice_end (hk : l.length = k) : splice l k data = l ++ data := by
  rw [splice,List.take_of_length_le hk.le,List.drop_eq_nil_of_le (by omega),List.append_nil]

/-- The elements before the data, those of the data, and those after it. -/
theorem getElem?_splice (hk : k ≤ l.length) (p : ℕ) : (splice l k data)[p]? =
    if p < k then l[p]? else if p < k + data.length then data[p - k]? else l[p]? := by
  have htake : (l.take k).length = k := by
    rw [List.length_take]
    omega
  unfold splice
  by_cases hp : p < k
  · rw [if_pos hp,List.append_assoc,List.getElem?_append_left (by omega),List.getElem?_take_of_lt hp]
  · rw [if_neg hp,List.append_assoc,List.getElem?_append_right (by omega),htake]
    by_cases hd : p < k + data.length
    · rw [if_pos hd,List.getElem?_append_left (by omega)]
    · rw [if_neg hd,List.getElem?_append_right (by omega),List.getElem?_drop]
      congr 1
      omega

/-- Where a cell of one turn is. -/
theorem add_mod_cases (index : ℕ) (hi : n < capacity) :
    (index % capacity + n < capacity ∧ (index + n) % capacity = index % capacity + n) ∨
      (capacity ≤ index % capacity + n ∧ (index + n) % capacity = index % capacity + n - capacity) := by
  have ho := Nat.mod_lt index (by omega : 0 < capacity)
  rcases Nat.lt_or_ge (index % capacity + n) capacity with h | h
  · refine .inl ⟨h,?_⟩
    rw [Nat.add_mod,Nat.mod_eq_of_lt hi,Nat.mod_eq_of_lt h]
  · refine .inr ⟨h,?_⟩
    rw [Nat.add_mod,Nat.mod_eq_of_lt hi,Nat.mod_eq_sub_mod h,Nat.mod_eq_of_lt (by omega)]

/-- In one piece. -/
theorem wrote_overwrite (h : index % capacity + data.length ≤ capacity) :
    Wrote cells (overwrite cells (index % capacity) data) capacity index data := by
  intro i hi
  unfold overwrite
  rcases add_mod_cases index hi with ⟨-,hcell⟩ | ⟨hover,hcell⟩
  · rw [hcell,if_pos (Nat.le_add_right _ _),Nat.add_sub_cancel_left]
  · rw [hcell,if_neg (by omega),List.getD_eq_default _ _ (by omega)]

/-- In two pieces. -/
theorem wrote_overwrite_wrapped (hlen : data.length ≤ capacity) :
    Wrote cells (overwrite
      (overwrite cells (index % capacity) (data.take (capacity - index % capacity))) 0
      (data.drop (capacity - index % capacity))) capacity index data := by
  intro i hi
  have ho := Nat.mod_lt index (by omega : 0 < capacity)
  unfold overwrite
  simp only [Nat.zero_le,if_true,Nat.sub_zero,List.getD_eq_getElem?_getD,List.getElem?_drop]
  rcases add_mod_cases index hi with ⟨hin,hcell⟩ | ⟨hover,hcell⟩
  · have hnone : data[capacity - index % capacity + (index % capacity + i)]? = none :=
      List.getElem?_eq_none (by omega)
    rw [hcell,if_pos (Nat.le_add_right _ _),Nat.add_sub_cancel_left,
      List.getElem?_take_of_lt (by omega),hnone]
    rfl
  · have hi' : capacity - index % capacity + (index % capacity + i - capacity) = i := by omega
    rw [hcell,if_neg (by omega),hi']

/-- A window of what has just been written. -/
theorem window_wrote (h : Wrote cells cells' capacity index data) (hlen : data.length ≤ capacity) :
    window cells' capacity index data.length = data := by
  apply List.ext_getElem
  · exact length_window
  · intro i hi hi'
    simp only [window,List.getElem_map,List.getElem_range]
    rw [h i (by omega),List.getD_eq_getElem _ _ hi']

/-- A window after a write that begins in it, or at its end, moved on when the array is too small. -/
theorem window_splice (h : Wrote cells cells' capacity (start + k) data) (hn : n ≤ capacity)
    (hk : k ≤ n) (hlen : data.length ≤ capacity) :
    window cells' capacity (start + (max n (k + data.length) - capacity))
    (min (max n (k + data.length)) capacity) = (splice (window cells capacity start n) k data).drop
    (max n (k + data.length) - capacity) := by
  have hk' : k ≤ (window cells capacity start n).length := by
    rw [length_window]
    exact hk
  apply List.ext_getElem?
  intro j
  rw [List.getElem?_drop,getElem?_splice hk']
  by_cases hj : j < min (max n (k + data.length)) capacity
  · generalize hd : max n (k + data.length) - capacity = d
    have hcell : (window cells' capacity (start + d) (min (max n (k + data.length)) capacity))[j]? =
        some (cells' ((start + d + j) % capacity)) := by
      simp [window,hj]
    have hold (hp : d + j < n) : (window cells capacity start n)[d + j]? = some
      (cells ((start + (d + j)) % capacity)) := by
      simp [window,hp]
    rw [hcell]
    by_cases hbefore : d + j < k
    · -- one turn after the data begins
      have hturn := h (d + j + capacity - k) (by omega)
      have hsame : (start + k + (d + j + capacity - k)) % capacity = (start + (d + j)) % capacity := by
        rw [show start + k + (d + j + capacity - k) = start + (d + j) + capacity by omega,
          Nat.add_mod_right]
      rw [hsame,List.getD_eq_default _ _ (by omega)] at hturn
      rw [if_pos hbefore,hold (by omega),Nat.add_assoc,hturn]
    · have hturn := h (d + j - k) (by omega)
      have hsame : start + k + (d + j - k) = start + d + j := by omega
      rw [hsame] at hturn
      rw [if_neg hbefore,hturn]
      by_cases hin : d + j < k + data.length
      · rw [if_pos hin,List.getD_eq_getElem?_getD,List.getElem?_eq_getElem (by omega)]
        rfl
      · rw [if_neg hin,hold (by omega),List.getD_eq_default _ _ (by omega),Nat.add_assoc]
  · rw [List.getElem?_eq_none (by rw [length_window]; omega)]
    have hout : n ≤ max n (k + data.length) - capacity + j := by omega
    rw [if_neg (by omega),if_neg (by omega),List.getElem?_eq_none (by rw [length_window]; exact hout)]

theorem Wrote.congr {index' : ℕ} (h : Wrote cells cells' capacity index data)
    (hindex : index' % capacity = index % capacity) : Wrote cells cells' capacity index' data := by
  intro i hi
  rw [Nat.add_mod,hindex,← Nat.add_mod]
  exact h i hi

/-- The same for data of any length, of which only the last `capacity` elements are written. -/
theorem window_write (h : Wrote cells cells' capacity (start + k + (data.length - capacity))
      (data.drop (data.length - capacity))) (hn : n ≤ capacity) (hk : k ≤ n) :
    window cells' capacity (start + (max n (k + data.length) - capacity))
    (min (max n (k + data.length)) capacity) = (splice (window cells capacity start n) k data).drop
    (max n (k + data.length) - capacity) := by
  rcases Nat.le_total data.length capacity with hlen | hlong
  · rw [Nat.sub_eq_zero_of_le hlen,List.drop_zero] at h
    exact window_splice h hn hk hlen
  · have hlast : (data.drop (data.length - capacity)).length = capacity := by
      rw [List.length_drop]
      omega
    have hmax : max n (k + data.length) = k + data.length := by omega
    have hstart : start + (k + data.length - capacity) = start + k + (data.length - capacity) := by omega
    have hwindow := window_wrote h hlast.le
    rw [hlast] at hwindow
    have hskip : k + data.length - capacity = k + (data.length - capacity) := by omega
    have htake : ((window cells capacity start n).take k).length = k := by
      rw [List.length_take,length_window]
      omega
    have hnone : (window cells capacity start n).drop (k + data.length) = [] :=
      List.drop_eq_nil_of_le (by rw [length_window]; omega)
    rw [hmax,hstart,Nat.min_eq_right (by omega),hwindow,hskip,splice,hnone,List.append_nil,
      ← List.drop_drop,List.drop_left' htake]

theorem window_take (m : ℕ) :
    (window cells capacity start n).take m = window cells capacity start (min m n) := by
  rw [window,← List.map_take,List.take_range]
  rfl

theorem window_append (m : ℕ) : window cells capacity start (n + m) =
    window cells capacity start n ++ window cells capacity (start + n) m := by
  unfold window
  rw [List.range_add,List.map_append,List.map_map]
  refine congrArg _ (List.map_congr_left fun i _ => ?_)
  simp only [Function.comp_apply,Nat.add_assoc]

theorem window_drop (hk : k ≤ n) :
    (window cells capacity start n).drop k = window cells capacity (start + k) (n - k) := by
  have hsplit : window cells capacity start n = window cells capacity start k ++ window cells
    capacity (start + k) (n - k) := by
    rw [← window_append,Nat.add_sub_cancel' hk]
  rw [hsplit,List.drop_left' length_window]

/-- Reading in one piece. -/
theorem slice_straight (h : index % capacity + n ≤ capacity) :
    slice cells (index % capacity) n = window cells capacity index n := by
  refine List.map_congr_left fun i hi => congrArg cells ?_
  have hi' := List.mem_range.mp hi
  rcases add_mod_cases index (by omega : i < capacity) with ⟨-,hcell⟩ | ⟨hover,-⟩
  · exact hcell.symm
  · omega

/-- Reading in two pieces. -/
theorem slice_wrapped (hpos : 0 < capacity) (hn : n ≤ capacity)
    (h : capacity ≤ index % capacity + n) :
    slice cells (index % capacity) (capacity - index % capacity) ++ slice cells 0
    (n - (capacity - index % capacity)) = window cells capacity index n := by
  have ho := Nat.mod_lt index hpos
  have hwrap : (index + (capacity - index % capacity)) % capacity = 0 % capacity := by
    rw [← Nat.mod_add_mod,Nat.add_sub_cancel' ho.le,Nat.mod_self,Nat.zero_mod]
  have hn' : n = capacity - index % capacity + (n - (capacity - index % capacity)) := by omega
  conv_rhs => rw [hn']
  rw [window_append,window_congr hwrap,slice_straight (by omega)]
  have hzero : 0 % capacity = 0 := Nat.zero_mod capacity
  rw [← slice_straight (by omega : 0 % capacity + (n - (capacity - index % capacity)) ≤ capacity),hzero]

end X1.Window
