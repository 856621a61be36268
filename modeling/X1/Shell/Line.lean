import X1.Shell.Registry
import X1.String.Move

/-! # The lines of lib/shell.c

A line is an array of characters and a size. The addresses of its characters are their
indices, so that what is beyond the array can be told from what is in it. The operations on
a line are those on the list of its characters.
-/
namespace X1.Shell
open X1.Word X1.CString X1.FirstDifference

def SHELL_LINE_MAX_SIZE : ℕ := 64

/-- `struct shell_line` -/
structure Line where
  str : Bytes
  size : ℕ

/-- The array from an index on. -/
def Line.chars (line : Line) (index : ℕ) : List UInt8 := ((List.range SHELL_LINE_MAX_SIZE).map line.str).drop index

/-- The string in the array. -/
def shellLineStr (line : Line) : List UInt8 := (line.chars 0).takeWhile (· ≠ 0)

def shellLineReset (line : Line) : Line where
  str := store line.str 0 0
  size := 0

/-- `while ((*dest = *src) != '\0') { dest++; src++; }`, from an index on -/
def strcpyLoop (src : Bytes) : ℕ → ℕ → Bytes → Bytes
  | 0,_,dest => dest
  | turns + 1,i,dest =>
    if src i ≠ 0 then strcpyLoop src turns (i + 1) (store dest i (src i)) else store dest i (src i)

def shellLineCopy (dest src : Line) : Line where
  str := strcpyLoop src.str SHELL_LINE_MAX_SIZE 0 dest.str
  size := src.size

def shellLineCmp (a b : Line) : ℤ := strcmp (shellLineStr a) (shellLineStr b)

def shellLineInsert (line : Line) (index : ℕ) (c : UInt8) : Except Error Line :=
  if index > line.size then .error .inval
  else if add line.size 1 = SHELL_LINE_MAX_SIZE then .error .nomem
  else
    let remainingChars := sub line.size index
    let str := if remainingChars ≠ 0 then (memmove line.str (add index 1) index remainingChars).2 else line.str
    let size := add line.size 1
    .ok ⟨store (store str index c) size 0,size⟩

def shellLineErase (line : Line) (index : ℕ) : Except Error Line :=
  if index ≥ line.size then .error .inval
  else
    let remainingChars := sub (sub line.size index) 1
    let str := if remainingChars ≠ 0 then (memmove line.str index (add index 1) remainingChars).2 else line.str
    let size := sub line.size 1
    .ok ⟨store str size 0,size⟩

theorem strcpyLoop_eq {src : Bytes} {turns i n : ℕ} (dest : Bytes) (hn : n < turns) (hend : src (i + n) = 0)
    (hchars : ∀ k < n,src (i + k) ≠ 0) :
    strcpyLoop src turns i dest = fun a => if i ≤ a ∧ a ≤ i + n then src a else dest a := by
  induction n generalizing turns i dest with
  | zero =>
    obtain ⟨turns,rfl⟩ := Nat.exists_eq_succ_of_ne_zero (Nat.ne_of_gt hn)
    rw [Nat.add_zero] at hend ⊢
    rw [strcpyLoop,if_neg (not_not.mpr hend)]
    funext a
    by_cases ha : a = i
    · subst ha
      simp [store]
    · rw [store,Function.update_of_ne ha,if_neg (by omega)]
  | succ n ih =>
    obtain ⟨turns,rfl⟩ := Nat.exists_eq_succ_of_ne_zero (Nat.ne_of_gt (Nat.zero_lt_of_lt hn))
    have hfirst : src i ≠ 0 := hchars 0 (by omega)
    have hlast : src (i + 1 + n) = 0 := by rwa [show i + 1 + n = i + (n + 1) by omega]
    have hrest := ih (store dest i (src i)) (by omega : n < turns) hlast fun k hk => by
      have hchar := hchars (k + 1) (by omega)
      rwa [show i + 1 + k = i + (k + 1) by omega]
    rw [strcpyLoop,if_pos hfirst,hrest]
    funext a
    by_cases ha : a = i
    · subst ha
      simp [store]
    · have hiff : (i + 1 ≤ a ∧ a ≤ i + 1 + n) ↔ (i ≤ a ∧ a ≤ i + (n + 1)) := by omega
      simp only [hiff,store,Function.update_of_ne ha]

/-- The line holds a string, and what is beyond its array is as it was. -/
structure Line.Holds (guard : Bytes) (line : Line) (text : List UInt8) : Prop where
  size : line.size = text.length
  room : text.length < SHELL_LINE_MAX_SIZE
  chars : ∀ i ≤ text.length,line.str i = text.getD i 0
  nonzero : 0 ∉ text
  beyond : ∀ i,SHELL_LINE_MAX_SIZE ≤ i → line.str i = guard i

theorem Line.getD_insert {text : List UInt8} {index i : ℕ} {c : UInt8} (hindex : index ≤ text.length) :
    (text.take index ++ c :: text.drop index).getD i 0 =
      if i < index then text.getD i 0 else if i = index then c else text.getD (i - 1) 0 := by
  have hlen : (text.take index).length = index := by
    rw [List.length_take]
    omega
  split_ifs with hlt heq
  · rw [List.getD_append _ _ _ _ (by omega)]
    simp [List.getD,hlt]
  · rw [List.getD_append_right _ _ _ _ (by omega),hlen,heq]
    simp
  · obtain ⟨k,rfl⟩ : ∃ k,i = index + (k + 1) := ⟨i - index - 1,by omega⟩
    rw [List.getD_append_right _ _ _ _ (by omega),hlen,Nat.add_sub_cancel_left]
    simp [List.getD,List.getElem?_drop]

theorem Line.getD_erase {text : List UInt8} {index i : ℕ} (hindex : index < text.length) :
    (text.take index ++ text.drop (index + 1)).getD i 0 =
      if i < index then text.getD i 0 else text.getD (i + 1) 0 := by
  have hlen : (text.take index).length = index := by
    rw [List.length_take]
    omega
  split_ifs with hlt
  · rw [List.getD_append _ _ _ _ (by omega)]
    simp [List.getD,hlt]
  · obtain ⟨k,rfl⟩ : ∃ k,i = index + k := ⟨i - index,by omega⟩
    rw [List.getD_append_right _ _ _ _ (by omega),hlen,Nat.add_sub_cancel_left]
    simp [List.getD,List.getElem?_drop,Nat.add_right_comm]

namespace Line.Holds
variable {guard : Bytes} {line a b : Line} {text ta tb : List UInt8} {index : ℕ} {c : UInt8}

theorem chars_eq (h : Line.Holds guard line text) (hindex : index ≤ text.length) :
    ∃ rest,line.chars index = text.drop index ++ 0 :: rest := by
  have hroom := h.room
  refine ⟨line.chars (text.length + 1),?_⟩
  have hsplit : line.chars index = ((List.range (text.length - index)).map fun i => line.str (index + i)) ++
      line.str text.length :: line.chars (text.length + 1) := by
    apply List.ext_getElem
    · simp [Line.chars]
      omega
    · intro i hi hi'
      rw [List.getElem_append]
      split_ifs with hlt
      · simp [Line.chars]
      · cases hk : i - (text.length - index) with
        | zero => 
          have : index + i = text.length := by simp at hlt; omega
          simp [Line.chars,hk,this]
        | succ k =>
          have : index + i = text.length + 1 + k := by simp at hlt; omega
          simp [Line.chars,hk,this]
  rw [hsplit,h.chars _ (Nat.le_refl _)]
  congr 1
  · apply List.ext_getElem
    · simp
    · intro i hi hi'
      simp at hi
      have hget := h.chars (index + i) (by omega)
      rw [List.getD_eq_getElem _ _ (by omega)] at hget
      simp [hget]
  · simp

theorem str_eq (h : Line.Holds guard line text) : shellLineStr line = text := by
  obtain ⟨rest,hrest⟩ := h.chars_eq (Nat.zero_le _)
  have hnonzero : ∀ c ∈ text,decide (c ≠ 0) = true := fun c hc =>
    decide_eq_true fun hzero => h.nonzero (hzero ▸ hc)
  rw [shellLineStr,hrest,List.drop_zero,List.takeWhile_append_of_pos hnonzero]
  simp

theorem reset (h : ∀ i,SHELL_LINE_MAX_SIZE ≤ i → line.str i = guard i) : Line.Holds guard (shellLineReset line) [] where
  size := rfl
  room := by decide
  chars i hi := by
    rw [Nat.le_zero.mp hi]
    rfl
  nonzero := by simp
  beyond i hi := by
    have hne : i ≠ 0 := by rintro rfl; exact absurd hi (by decide)
    exact (Function.update_of_ne hne ..).trans (h i hi)

theorem copy_str {guard' : Bytes} (hb : Line.Holds guard' b tb) :
    (shellLineCopy a b).str = fun i => if i ≤ tb.length then b.str i else a.str i := by
  have hchars : ∀ k < tb.length,b.str (0 + k) ≠ 0 := by
    intro k hk hzero
    rw [Nat.zero_add,hb.chars k (by omega),List.getD_eq_getElem _ _ hk] at hzero
    exact hb.nonzero (hzero ▸ List.getElem_mem hk)
  have hend : b.str (0 + tb.length) = 0 := by
    rw [Nat.zero_add,hb.chars _ (Nat.le_refl _)]
    simp
  rw [shellLineCopy,strcpyLoop_eq _ hb.room hend hchars]
  simp

theorem copy {guard' : Bytes} (ha : Line.Holds guard a ta) (hb : Line.Holds guard' b tb) :
    Line.Holds guard (shellLineCopy a b) tb where
  size := hb.size
  room := hb.room
  chars i hi := by
    rw [hb.copy_str]
    exact (if_pos hi).trans (hb.chars i hi)
  nonzero := hb.nonzero
  beyond i hi := by
    have hroom := hb.room
    rw [hb.copy_str]
    exact (if_neg (by omega)).trans (ha.beyond i hi)

theorem cmp_eq_zero_iff {guard' : Bytes} (ha : Line.Holds guard a ta) (hb : Line.Holds guard' b tb) :
    shellLineCmp a b = 0 ↔ ta = tb := by
  rw [shellLineCmp,ha.str_eq,hb.str_eq]
  exact difference_eq_zero_iff signed_injective (signed_ne_zero ha.nonzero) (signed_ne_zero hb.nonzero)

theorem insert (h : Line.Holds guard line text) (hindex : index ≤ text.length) (hc : c ≠ 0) :
    if text.length + 1 = SHELL_LINE_MAX_SIZE then shellLineInsert line index c = .error .nomem
    else ∃ line',shellLineInsert line index c = .ok line' ∧
      Line.Holds guard line' (text.take index ++ c :: text.drop index) := by
  have hroom := h.room
  have hmax : SHELL_LINE_MAX_SIZE = 64 := rfl
  have hsize : add line.size 1 = text.length + 1 := by
    rw [h.size]
    exact add_of_lt (by omega)
  have hremaining : sub line.size index = text.length - index := by
    rw [h.size]
    exact sub_of_le hindex (by omega)
  have hnext : add index 1 = index + 1 := add_of_lt (by omega)
  have hin : ¬index > line.size := by
    rw [h.size]
    omega
  unfold shellLineInsert
  rw [if_neg hin,hsize]
  split_ifs with hfull
  · rfl
  · refine ⟨_,rfl,?_⟩
    -- without a character to move, the copy is of no character
    have hmove : (if sub line.size index ≠ 0 then (memmove line.str (add index 1) index (sub line.size index)).2
        else line.str) = copied line.str (index + 1) index (text.length - index) := by
      rw [hremaining,hnext,memmove_eq (by omega) (by omega)]
      split_ifs with hzero
      · rfl
      · rw [not_not.mp hzero,copied_zero]
    rw [hmove]
    refine ⟨?_,?_,?_,?_,?_⟩
    · simp
      omega
    · simp
      omega
    · intro i hi
      simp only [List.length_append,List.length_take,List.length_cons,List.length_drop] at hi
      rw [Line.getD_insert hindex]
      simp only [store,Function.update_apply]
      by_cases hlast : i = text.length + 1
      · rw [if_pos hlast,if_neg (by omega),if_neg (by omega),List.getD_eq_default _ _ (by omega)]
      · rw [if_neg hlast]
        by_cases hat : i = index
        · rw [if_pos hat,if_neg (by omega),if_pos hat]
        · rw [if_neg hat,copied]
          by_cases hbefore : i < index
          · rw [if_neg (by omega),if_pos hbefore,h.chars i (by omega)]
          · rw [if_pos (by omega),if_neg hbefore,if_neg hat,h.chars _ (by omega)]
            congr 1
            omega
    · intro hzero
      rcases List.mem_append.mp hzero with hzero | hzero
      · exact h.nonzero (List.mem_of_mem_take hzero)
      · rcases List.mem_cons.mp hzero with hzero | hzero
        · exact hc hzero.symm
        · exact h.nonzero (List.mem_of_mem_drop hzero)
    · intro i hi
      simp only [store,Function.update_apply]
      rw [if_neg (by omega),if_neg (by omega),copied,if_neg (by omega),h.beyond i hi]

theorem erase (h : Line.Holds guard line text) (hindex : index < text.length) :
    ∃ line',shellLineErase line index = .ok line' ∧
      Line.Holds guard line' (text.take index ++ text.drop (index + 1)) := by
  have hroom := h.room
  have hmax : SHELL_LINE_MAX_SIZE = 64 := rfl
  have hsize : sub line.size 1 = text.length - 1 := by
    rw [h.size]
    exact sub_of_le (by omega) (by omega)
  have hremaining : sub (sub line.size index) 1 = text.length - index - 1 := by
    have hafter : sub text.length index = text.length - index := sub_of_le (by omega) (by omega)
    rw [h.size,hafter]
    exact sub_of_le (by omega) (by omega)
  have hnext : add index 1 = index + 1 := add_of_lt (by omega)
  have hin : ¬index ≥ line.size := by
    rw [h.size]
    omega
  unfold shellLineErase
  rw [if_neg hin,hsize]
  refine ⟨_,rfl,?_⟩
  have hmove : (if sub (sub line.size index) 1 ≠ 0 then
      (memmove line.str index (add index 1) (sub (sub line.size index) 1)).2 else line.str) =
        copied line.str index (index + 1) (text.length - index - 1) := by
    rw [hremaining,hnext,memmove_eq (by omega) (by omega)]
    split_ifs with hzero
    · rfl
    · rw [not_not.mp hzero,copied_zero]
  rw [hmove]
  refine ⟨?_,?_,?_,?_,?_⟩
  · simp
    omega
  · simp
    omega
  · intro i hi
    simp only [List.length_append,List.length_take,List.length_drop] at hi
    rw [Line.getD_erase hindex]
    simp only [store,Function.update_apply]
    by_cases hlast : i = text.length - 1
    · rw [if_pos hlast,if_neg (by omega),List.getD_eq_default _ _ (by omega)]
    · rw [if_neg hlast,copied]
      by_cases hbefore : i < index
      · rw [if_neg (by omega),if_pos hbefore,h.chars i (by omega)]
      · have hfrom : index + 1 + (i - index) = i + 1 := by omega
        rw [if_pos (by omega),if_neg hbefore,hfrom,h.chars _ (by omega)]
  · intro hzero
    rcases List.mem_append.mp hzero with hzero | hzero
    · exact h.nonzero (List.mem_of_mem_take hzero)
    · exact h.nonzero (List.mem_of_mem_drop hzero)
  · intro i hi
    simp only [store,Function.update_apply]
    rw [if_neg (by omega),copied,if_neg (by omega),h.beyond i hi]

end Line.Holds

end X1.Shell
