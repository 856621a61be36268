import X1.Base.Word

/-! # The copies of string.c

`memcpy` and `memmove` on byte memory, with pointers of 32 bits. A loop that goes up and
stays behind its source, or is clear of it, leaves the bytes it has still to read alone,
and so does a loop that goes down and stays ahead of it.
-/
namespace X1.CString
open X1.Word

/-- The byte at each address. -/
abbrev Bytes := ℕ → UInt8

def store (m : Bytes) (addr : ℕ) (byte : UInt8) : Bytes := Function.update m addr byte

/-- `*dest_ptr = *src_ptr; dest_ptr++; src_ptr++`, `n` times -/
def copyUp (m : Bytes) (destPtr srcPtr : ℕ) : ℕ → Bytes
  | 0 => m
  | n + 1 => copyUp (store m destPtr (m srcPtr)) (add destPtr 1) (add srcPtr 1) n

/-- `*dest_ptr = *src_ptr; dest_ptr--; src_ptr--`, `n` times -/
def copyDown (m : Bytes) (destPtr srcPtr : ℕ) : ℕ → Bytes
  | 0 => m
  | n + 1 => copyDown (store m destPtr (m srcPtr)) (sub destPtr 1) (sub srcPtr 1) n

/-- The pointer returned, and the memory. -/
def memcpy (m : Bytes) (dest src n : ℕ) : ℕ × Bytes := (dest,copyUp m dest src n)

def memmove (m : Bytes) (dest src n : ℕ) : ℕ × Bytes :=
  if dest ≤ src then (dest,copyUp m dest src n)
  else (dest,copyDown m (sub (add dest n) 1) (sub (add src n) 1) n)

/-- The memory in which the `n` bytes at `dest` are those at `src` in `m`. -/
def copied (m : Bytes) (dest src n : ℕ) : Bytes := fun a =>
  if dest ≤ a ∧ a < dest + n then m (src + (a - dest)) else m a

variable {m : Bytes} {dest src n : ℕ}

/-- The first byte, and then the others: what is read later has not been written. -/
theorem copied_first (h : dest ≤ src ∨ src + (n + 1) ≤ dest) :
    copied (store m dest (m src)) (dest + 1) (src + 1) n = copied m dest src (n + 1) := by
  funext a
  unfold copied store
  by_cases ha : dest + 1 ≤ a ∧ a < dest + 1 + n
  · have hread : src + 1 + (a - (dest + 1)) ≠ dest := by omega
    have hsame : src + 1 + (a - (dest + 1)) = src + (a - dest) := by omega
    rw [if_pos ha,if_pos (by omega),Function.update_of_ne hread,hsame]
  · rw [if_neg ha]
    by_cases hfirst : a = dest
    · rw [hfirst,Function.update_self,if_pos (by omega),Nat.sub_self,Nat.add_zero]
    · rw [Function.update_of_ne hfirst,if_neg (by omega)]

/-- The last byte, and then the others. -/
theorem copied_last (h : src < dest) :
    copied (store m (dest + n) (m (src + n))) dest src n = copied m dest src (n + 1) := by
  funext a
  unfold copied store
  by_cases ha : dest ≤ a ∧ a < dest + n
  · have hread : src + (a - dest) ≠ dest + n := by omega
    rw [if_pos ha,if_pos (by omega),Function.update_of_ne hread]
  · rw [if_neg ha]
    by_cases hlast : a = dest + n
    · have hsame : src + (dest + n - dest) = src + n := by omega
      rw [hlast,Function.update_self,if_pos (by omega),hsame]
    · rw [Function.update_of_ne hlast,if_neg (by omega)]

theorem copied_zero : copied m dest src 0 = m := by
  funext a
  exact if_neg (by omega)

theorem copyUp_eq (hd : dest + n ≤ 2 ^ 32) (hs : src + n ≤ 2 ^ 32) (h : dest ≤ src ∨ src + n ≤ dest) :
    copyUp m dest src n = copied m dest src n := by
  induction n generalizing m dest src with
  | zero => exact copied_zero.symm
  | succ n ih =>
    rw [copyUp,← copied_first h]
    cases n with
    | zero => rw [copied_zero,copyUp]
    | succ n =>
      rw [add_of_lt (show dest + 1 < 2 ^ 32 by omega),add_of_lt (show src + 1 < 2 ^ 32 by omega)]
      exact ih (by omega) (by omega) (by omega)

/-- The pointer to the last byte of a range that ends at the end of the address space is there too. -/
theorem last_eq {p : ℕ} (h : p + (n + 1) ≤ 2 ^ 32) : sub (add p (n + 1)) 1 = p + n := by
  unfold sub add
  omega

theorem copyDown_eq (hd : dest + n ≤ 2 ^ 32) (hs : src + n ≤ 2 ^ 32) (h : src < dest) :
    copyDown m (sub (add dest n) 1) (sub (add src n) 1) n = copied m dest src n := by
  induction n generalizing m with
  | zero => exact copied_zero.symm
  | succ n ih =>
    rw [last_eq hd,last_eq hs,copyDown,← copied_last h]
    rw [← ih (by omega) (by omega),add_of_lt (by omega),add_of_lt (by omega)]

theorem memmove_eq (hd : dest + n ≤ 2 ^ 32) (hs : src + n ≤ 2 ^ 32) :
    memmove m dest src n = (dest,copied m dest src n) := by
  unfold memmove
  by_cases h : dest ≤ src
  · rw [if_pos h,copyUp_eq hd hs (.inl h)]
  · rw [if_neg h,copyDown_eq hd hs (by omega)]

/-- `memmove` copies whatever the overlap is and writes nothing else, and `memcpy` does the same unless its
destination is above a source it overlaps. -/
theorem memmove_correct (m : Bytes) (dest src n : ℕ) (hd : dest + n ≤ 2 ^ 32) (hs : src + n ≤ 2 ^ 32) :
    (∀ i < n, (memmove m dest src n).2 (dest + i) = m (src + i)) ∧
    (∀ a, (∀ i < n, a ≠ dest + i) → (memmove m dest src n).2 a = m a) ∧
    ((dest + n ≤ src ∨ src + n ≤ dest) ∨ dest ≤ src → memcpy m dest src n = memmove m dest src n) := by
  rw [memmove_eq hd hs]
  refine ⟨?_,?_,?_⟩
  · intro i hi
    have hoff : dest + i - dest = i := by omega
    exact (if_pos (by omega)).trans (by rw [hoff])
  · intro a ha
    apply if_neg
    rintro ⟨hlow,hhigh⟩
    exact ha (a - dest) (by omega) (by omega)
  · intro h
    unfold memcpy
    rw [copyUp_eq hd hs (by omega)]

/-- Five bytes, two up, over each other, to the end of the address space. -/
theorem memmove_correct_sample :
    (memmove (fun a => .ofNat a) (2 ^ 32 - 5) (2 ^ 32 - 7) 5).2 (2 ^ 32 - 2) = .ofNat (2 ^ 32 - 4) :=
  (memmove_correct (fun a => .ofNat a) (2 ^ 32 - 5) (2 ^ 32 - 7) 5 (by norm_num) (by norm_num)).1 3
    (by norm_num)

end X1.CString
