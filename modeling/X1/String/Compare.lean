import X1.Base.FirstDifference
import X1.String.Move

/-! # The comparisons of string.c

`strcmp` and `strncmp` on byte memory. Both subtract the first characters that differ as `char`,
which is signed on this processor: the order they induce is total, but it is not the order of the
bytes as `unsigned char` where only one of the two is below `0x80`.
-/
namespace X1.CString
open X1.Word X1.FirstDifference

/-- `*s`, as a `char`. -/
def load (m : Bytes) (s : ℕ) : Int8 := (m s).toInt8

/-- `while ((c1 = *s1) == (c2 = *s2))`, for a number of turns: `none` when they do not end the loop. -/
def strcmpLoop (m : Bytes) (s1 s2 : ℕ) : ℕ → Option ℤ
  | 0 => none
  | turns + 1 =>
    let c1 := load m s1
    let c2 := load m s2
    if c1 = c2 then
      if c1 = 0 then some 0 else strcmpLoop m (add s1 1) (add s2 1) turns
    else some (c1.toInt - c2.toInt)

/-- After as many turns as there are addresses the pointers are back, and the loop never ends. -/
def strcmp (m : Bytes) (s1 s2 : ℕ) : Option ℤ := strcmpLoop m s1 s2 (2 ^ 32)

/-- What `strncmp` returns, and the addresses `s1` and `s2` of each test of its loop. The value is
`none` when it is computed from characters that have not been set. -/
structure Compared where
  value : Option ℤ
  loads : List (ℕ × ℕ)
deriving DecidableEq

/-- `(int)c1 - (int)c2`, of variables that may be unset -/
def subtract : Option Int8 → Option Int8 → Option ℤ
  | some c1,some c2 => some (c1.toInt - c2.toInt)
  | _,_ => none

/-- `while ((n != 0) && (c1 = *s1) == (c2 = *s2))` -/
def strncmpLoop (m : Bytes) (s1 s2 : ℕ) (c1 c2 : Option Int8) : ℕ → Compared
  | 0 => ⟨subtract c1 c2,[]⟩
  | n + 1 =>
    let c1 := load m s1
    let c2 := load m s2
    if c1 = c2 then
      if c1 = 0 then ⟨some 0,[(s1,s2)]⟩
      else
        let rest := strncmpLoop m (add s1 1) (add s2 1) (some c1) (some c2) n
        ⟨rest.value,(s1,s2) :: rest.loads⟩
    else ⟨subtract (some c1) (some c2),[(s1,s2)]⟩

def strncmp (m : Bytes) (s1 s2 n : ℕ) : Compared :=
  if n = 0 then ⟨some 0,[]⟩ else strncmpLoop m s1 s2 none none n

/-- The characters at `p`, up to the first NUL. -/
structure IsString (m : Bytes) (p : ℕ) (a : List UInt8) : Prop where
  pointer : p < 2 ^ 32
  chars : ∀ i ≤ a.length, m (add p i) = a.getD i 0
  nonzero : 0 ∉ a

/-- A byte as a signed character. -/
def signed (x : UInt8) : ℤ := x.toInt8.toInt

theorem signed_eq (x : UInt8) :
    signed x = if x.toNat < 128 then (x.toNat : ℤ) else (x.toNat : ℤ) - 256 := by
  have h := BitVec.toInt_eq_toNat_cond x.toBitVec
  rw [signed,Int8.toInt,UInt8.toBitVec_toInt8,h]
  simp only [UInt8.toNat_toBitVec]
  split_ifs <;> omega

theorem signed_zero : signed 0 = 0 := rfl

theorem signed_injective : signed.Injective := by
  intro x y h
  rw [signed_eq,signed_eq] at h
  apply UInt8.toNat_inj.mp
  have hx := x.toNat_lt
  have hy := y.toNat_lt
  split_ifs at h <;> omega

theorem signed_ne_zero {a : List UInt8} (h : 0 ∉ a) : ∀ x ∈ a, signed x ≠ 0 := by
  intro x hx h0
  have hx0 : x = 0 := signed_injective (h0.trans signed_zero.symm)
  exact h (hx0 ▸ hx)

variable {m : Bytes} {s1 s2 p n : ℕ} {x : UInt8} {a b : List UInt8}

theorem add_add_one (p i : ℕ) : add (add p 1) i = add p (i + 1) := by
  unfold add
  omega

namespace IsString

theorem add_zero (h : IsString m p a) : add p 0 = p := add_of_lt h.pointer

theorem head (h : IsString m p a) : m p = a.headD 0 := by
  have h0 := h.chars 0 (Nat.zero_le _)
  rw [h.add_zero] at h0
  rw [h0]
  cases a <;> rfl

theorem load_eq (h : IsString m p a) : load m p = (a.headD 0).toInt8 := congrArg UInt8.toInt8 h.head

theorem tail (h : IsString m p (x :: a)) : IsString m (add p 1) a where
  pointer := add_lt p 1
  chars i hi := by
    rw [add_add_one,h.chars (i + 1) (by simpa using hi)]
    rfl
  nonzero h0 := h.nonzero (List.mem_cons_of_mem x h0)

/-- In a longer string the last NUL would also be one of its characters. -/
theorem length_lt (h : IsString m p a) : a.length < 2 ^ 32 := by
  by_contra hlen
  have hwrap : add p (a.length - 2 ^ 32) = add p a.length := by
    unfold add
    omega
  have hearly := h.chars (a.length - 2 ^ 32) (by omega)
  rw [hwrap,h.chars a.length le_rfl,List.getD_eq_default _ _ le_rfl,
    List.getD_eq_getElem _ _ (by omega)] at hearly
  exact h.nonzero (hearly ▸ List.getElem_mem _)

end IsString

/-- What a test of the loops can find: a difference, the end of both strings or a character of both. -/
theorem head_cases (ha : 0 ∉ a) (hb : 0 ∉ b) :
    a.headD 0 ≠ b.headD 0 ∨ (a = [] ∧ b = []) ∨ ∃ x xs ys, x ≠ 0 ∧ a = x :: xs ∧ b = x :: ys := by
  cases a with
  | nil =>
    cases b with
    | nil => exact .inr (.inl ⟨rfl,rfl⟩)
    | cons y ys => exact .inl fun h => hb (by simp [← show 0 = y from h])
  | cons x xs =>
    by_cases h : x = b.headD 0
    · cases b with
      | nil => exact absurd (by simp [show x = 0 from h]) ha
      | cons y ys =>
        obtain rfl : x = y := h
        exact .inr (.inr ⟨x,xs,ys,fun h0 => ha (by simp [h0]),rfl,rfl⟩)
    · exact .inl h

theorem difference_of_head_ne (h : a.headD 0 ≠ b.headD 0) :
    difference signed a b = signed (a.headD 0) - signed (b.headD 0) := by
  cases a with
  | nil =>
    cases b with
    | nil => exact absurd rfl h
    | cons y ys => simp [difference,signed_zero]
  | cons x xs =>
    cases b with
    | nil => simp [difference,signed_zero]
    | cons y ys => exact difference_cons_of_ne h xs ys

theorem headD_take_succ (a : List UInt8) (n : ℕ) : (a.take (n + 1)).headD 0 = a.headD 0 := by
  cases a <;> rfl

theorem toInt8_inj {x y : UInt8} : x.toInt8 = y.toInt8 ↔ x = y :=
  ⟨fun h => by simpa using congrArg Int8.toUInt8 h,congrArg _⟩

theorem strcmpLoop_eq {turns : ℕ} (ha : IsString m s1 a) (hb : IsString m s2 b) (h : a.length < turns) :
    strcmpLoop m s1 s2 turns = some (difference signed a b) := by
  induction turns generalizing a b s1 s2 with
  | zero => exact absurd h (Nat.not_lt_zero _)
  | succ turns ih =>
    rw [strcmpLoop,ha.load_eq,hb.load_eq]
    obtain hne | ⟨rfl,rfl⟩ | ⟨x,xs,ys,hx,rfl,rfl⟩ := head_cases ha.nonzero hb.nonzero
    · rw [if_neg (toInt8_inj.not.mpr hne),difference_of_head_ne hne]
      rfl
    · rfl
    · have hturns : xs.length < turns := by simpa using h
      have hx8 : x.toInt8 ≠ 0 := toInt8_inj.not.mpr hx
      rw [difference_cons_self,← ih ha.tail hb.tail hturns]
      simp [hx8]

theorem strcmp_eq (ha : IsString m s1 a) (hb : IsString m s2 b) :
    strcmp m s1 s2 = some (difference signed a b) :=
  strcmpLoop_eq ha hb ha.length_lt

/-- The value of the loop of `strncmp`. Once the count is used up the variables are set and equal. -/
theorem strncmpLoop_value {c1 c2 : Option Int8} (ha : IsString m s1 a) (hb : IsString m s2 b)
    (h : 0 < n ∨ subtract c1 c2 = some 0) :
    (strncmpLoop m s1 s2 c1 c2 n).value = some (difference signed (a.take n) (b.take n)) := by
  induction n generalizing a b s1 s2 c1 c2 with
  | zero => simpa [strncmpLoop,difference] using h
  | succ n ih =>
    rw [strncmpLoop,ha.load_eq,hb.load_eq]
    obtain hne | ⟨rfl,rfl⟩ | ⟨x,xs,ys,hx,rfl,rfl⟩ := head_cases ha.nonzero hb.nonzero
    · have hcut : (a.take (n + 1)).headD 0 ≠ (b.take (n + 1)).headD 0 := by
        rwa [headD_take_succ,headD_take_succ]
      rw [if_neg (toInt8_inj.not.mpr hne),difference_of_head_ne hcut,headD_take_succ,headD_take_succ]
      rfl
    · rfl
    · have hx8 : x.toInt8 ≠ 0 := toInt8_inj.not.mpr hx
      have hsame : subtract (some x.toInt8) (some x.toInt8) = some 0 := by simp [subtract]
      rw [List.take_succ_cons,List.take_succ_cons,difference_cons_self,← ih ha.tail hb.tail (.inr hsame)]
      simp [hx8]

/-- Each test loads one character of each string, not past the NUL of either. -/
theorem strncmpLoop_loads {c1 c2 : Option Int8} (ha : IsString m s1 a) (hb : IsString m s2 b) :
    ∀ p ∈ (strncmpLoop m s1 s2 c1 c2 n).loads,
      ∃ i < n, i ≤ a.length ∧ i ≤ b.length ∧ p = (add s1 i,add s2 i) := by
  induction n generalizing a b s1 s2 c1 c2 with
  | zero => simp [strncmpLoop]
  | succ n ih =>
    have hfirst : ∃ i < n + 1, i ≤ a.length ∧ i ≤ b.length ∧ (s1,s2) = (add s1 i,add s2 i) :=
      ⟨0,Nat.succ_pos n,Nat.zero_le _,Nat.zero_le _,by rw [ha.add_zero,hb.add_zero]⟩
    rw [strncmpLoop,ha.load_eq,hb.load_eq]
    obtain hne | ⟨rfl,rfl⟩ | ⟨x,xs,ys,hx,rfl,rfl⟩ := head_cases ha.nonzero hb.nonzero
    · rw [if_neg (toInt8_inj.not.mpr hne)]
      simpa using hfirst
    · simpa using hfirst
    · have hx8 : x.toInt8 ≠ 0 := toInt8_inj.not.mpr hx
      simp only [List.headD_cons,if_true,hx8,if_false,List.forall_mem_cons]
      refine ⟨hfirst,?_⟩
      intro p hp
      obtain ⟨i,hi,hia,hib,rfl⟩ := ih ha.tail hb.tail p hp
      refine ⟨i + 1,Nat.succ_lt_succ hi,Nat.succ_le_succ hia,Nat.succ_le_succ hib,?_⟩
      rw [add_add_one,add_add_one]

theorem strncmp_value (ha : IsString m s1 a) (hb : IsString m s2 b) (n : ℕ) :
    (strncmp m s1 s2 n).value = some (difference signed (a.take n) (b.take n)) := by
  unfold strncmp
  by_cases hn : n = 0
  · subst hn
    rfl
  · rw [if_neg hn]
    exact strncmpLoop_value ha hb (.inl (Nat.pos_of_ne_zero hn))

theorem strncmp_loads (ha : IsString m s1 a) (hb : IsString m s2 b) (n : ℕ) :
    ∀ p ∈ (strncmp m s1 s2 n).loads,
      ∃ i < n, i ≤ a.length ∧ i ≤ b.length ∧ p = (add s1 i,add s2 i) := by
  unfold strncmp
  by_cases hn : n = 0
  · simp [hn]
  · rw [if_neg hn]
    exact strncmpLoop_loads ha hb

/-- The order of the standard: bytes are compared as `unsigned char`. -/
def Orders (value : ℤ) (a b : List UInt8) : Prop :=
  (value < 0 ↔ a < b) ∧ (value = 0 ↔ a = b) ∧ (0 < value ↔ b < a)

/-- Where the strings first differ, both bytes are below `0x80` or neither is. The NUL is a byte too. -/
def SameSide (a b : List UInt8) : Prop :=
  ∀ i < max a.length b.length, a.take i = b.take i → a.getD i 0 ≠ b.getD i 0 →
    (a.getD i 0 < 0x80 ↔ b.getD i 0 < 0x80)

instance (value : ℤ) (a b : List UInt8) : Decidable (Orders value a b) :=
  inferInstanceAs (Decidable (_ ∧ _ ∧ _))

instance (a b : List UInt8) : Decidable (SameSide a b) :=
  inferInstanceAs (Decidable (∀ i < max a.length b.length, _ → _ → (_ ↔ _)))

theorem sameSide_cons_self (x : UInt8) (xs ys : List UInt8) :
    SameSide (x :: xs) (x :: ys) ↔ SameSide xs ys := by
  constructor
  · intro h i hi htake hne
    apply h (i + 1)
    · simpa using hi
    · simpa using htake
    · simpa using hne
  · intro h i hi htake hne
    cases i with
    | zero => exact absurd rfl hne
    | succ i =>
      apply h i
      · simpa using hi
      · simpa using htake
      · simpa using hne

theorem sameSide_of_head_ne (h : a.headD 0 ≠ b.headD 0) :
    SameSide a b ↔ (a.headD 0 < 0x80 ↔ b.headD 0 < 0x80) := by
  have hget (l : List UInt8) : l.getD 0 0 = l.headD 0 := by cases l <;> rfl
  constructor
  · intro hsame
    have hlen : 0 < max a.length b.length := by
      apply Nat.pos_of_ne_zero
      intro hzero
      apply h
      rw [List.eq_nil_of_length_eq_zero (l := a) (by omega),
        List.eq_nil_of_length_eq_zero (l := b) (by omega)]
    have h0 := hsame 0 hlen rfl
    rw [hget,hget] at h0
    exact h0 h
  · intro hside i _ htake hne
    cases i with
    | zero =>
      rw [hget,hget]
      exact hside
    | succ i =>
      -- a difference of the first characters is the only first difference
      have hhead := congrArg (fun l => l.headD 0) htake
      simp only [headD_take_succ] at hhead
      exact absurd hhead h

theorem lt_of_head_ne (h : a.headD 0 ≠ b.headD 0) : a < b ↔ a.headD 0 < b.headD 0 := by
  cases a with
  | nil =>
    cases b with
    | nil => exact absurd rfl h
    | cons y ys =>
      have hy : (0 : UInt8) < y := UInt8.pos_iff_ne_zero.mpr (Ne.symm h)
      simp [hy]
  | cons x xs =>
    cases b with
    | nil => simp
    | cons y ys =>
      have hne : x ≠ y := h
      simp [List.cons_lt_cons_iff,hne]

/-- Two bytes come in the same order signed and unsigned when they are on the same side of `0x80`. -/
theorem orders_of_head_ne (h : a.headD 0 ≠ b.headD 0) :
    Orders (difference signed a b) a b ↔ (a.headD 0 < 0x80 ↔ b.headD 0 < 0x80) := by
  have hab : a ≠ b := fun he => h (he ▸ rfl)
  have hx := (a.headD 0).toNat_lt
  have hy := (b.headD 0).toNat_lt
  have hne : (a.headD 0).toNat ≠ (b.headD 0).toNat := fun he => h (UInt8.toNat_inj.mp he)
  unfold Orders
  rw [lt_of_head_ne h,lt_of_head_ne (Ne.symm h),difference_of_head_ne h,signed_eq,signed_eq]
  simp only [hab,iff_false,UInt8.lt_iff_toNat_lt,UInt8.reduceToNat]
  split_ifs <;> omega

theorem orders_difference_iff (ha : 0 ∉ a) (hb : 0 ∉ b) :
    Orders (difference signed a b) a b ↔ SameSide a b := by
  induction a generalizing b with
  | nil =>
    obtain hne | ⟨-,rfl⟩ | ⟨x,xs,ys,-,hnil,-⟩ := head_cases ha hb
    · rw [orders_of_head_ne hne,sameSide_of_head_ne hne]
    · decide
    · cases hnil
  | cons x xs ih =>
    obtain hne | ⟨hnil,-⟩ | ⟨x,xs,ys,-,hcons,rfl⟩ := head_cases ha hb
    · rw [orders_of_head_ne hne,sameSide_of_head_ne hne]
    · cases hnil
    · cases hcons
      have hxs : 0 ∉ xs := fun h => ha (List.mem_cons_of_mem x h)
      have hys : 0 ∉ ys := fun h => hb (List.mem_cons_of_mem x h)
      rw [sameSide_cons_self,← ih hxs hys]
      simp [Orders]

/-- `strcmp` and `strncmp` order two strings as the standard does when the first bytes that differ,
within the first `n` for `strncmp`, are on the same side of `0x80`, and only then. -/
theorem strcmp_orders_iff (m : Bytes) (s1 s2 : ℕ) (a b : List UInt8) (ha : IsString m s1 a)
    (hb : IsString m s2 b) (n : ℕ) :
    (∃ value, strcmp m s1 s2 = some value ∧ (Orders value a b ↔ SameSide a b)) ∧
    (∃ value, (strncmp m s1 s2 n).value = some value ∧
      (Orders value (a.take n) (b.take n) ↔ SameSide (a.take n) (b.take n))) := by
  have hcut {l : List UInt8} (h : 0 ∉ l) : 0 ∉ l.take n := fun h0 => h (List.mem_of_mem_take h0)
  refine ⟨⟨_,strcmp_eq ha hb,?_⟩,⟨_,strncmp_value ha hb n,?_⟩⟩
  · exact orders_difference_iff ha.nonzero hb.nonzero
  · exact orders_difference_iff (hcut ha.nonzero) (hcut hb.nonzero)

/-- The memory that begins with a text, and is zero after it. -/
def holding (text : List UInt8) : Bytes := fun p => text.getD p 0

/-- `"ab"` and `"ac"`: the bytes that differ are both below `0x80`. -/
theorem strcmp_orders_ascii :
    ∃ value, strcmp (holding [0x61,0x62,0,0x61,0x63]) 0 3 = some value ∧
    Orders value [0x61,0x62] [0x61,0x63] := by
  obtain ⟨⟨value,hvalue,horders⟩,-⟩ := strcmp_orders_iff (holding [0x61,0x62,0,0x61,0x63]) 0 3
    [0x61,0x62] [0x61,0x63] ⟨by norm_num,by decide,by decide⟩ ⟨by norm_num,by decide,by decide⟩ 2
  exact ⟨value,hvalue,horders.mpr (by decide)⟩

/-- `"\x80"` comes after `"a"`, and is compared as less. -/
theorem strcmp_misorders :
    IsString (holding [0x80,0,0x61]) 0 [0x80] ∧ IsString (holding [0x80,0,0x61]) 2 [0x61] ∧
    strcmp (holding [0x80,0,0x61]) 0 2 = some (-225) ∧ ¬Orders (-225) [0x80] [0x61] ∧
    (strncmp (holding [0x80,0,0x61]) 0 2 1).value = some (-225) ∧
    ¬Orders (-225) ([0x80].take 1) ([0x61].take 1) := by
  refine ⟨⟨by norm_num,by decide,by decide⟩,⟨by norm_num,by decide,by decide⟩,?_,by decide,
    by decide,by decide⟩
  decide

/-- `strncmp` is `strcmp` on the strings cut to `n` characters, wherever these are, and loads no
more of the strings than that; `strcmp` is the comparison of a total order. -/
theorem strncmp_strcmp_order (m : Bytes) (s1 s2 s3 : ℕ) (a b c : List UInt8) (ha : IsString m s1 a)
    (hb : IsString m s2 b) (hc : IsString m s3 c) (n : ℕ) :
    (∃ value, (strncmp m s1 s2 n).value = some value ∧
      ∀ m' t1 t2, IsString m' t1 (a.take n) → IsString m' t2 (b.take n) → strcmp m' t1 t2 = some value) ∧
    (∀ p ∈ (strncmp m s1 s2 n).loads,
      ∃ i < n, i ≤ a.length ∧ i ≤ b.length ∧ p = (add s1 i,add s2 i)) ∧
    ∃ ab ba bc ac, strcmp m s1 s2 = some ab ∧ strcmp m s2 s1 = some ba ∧
      strcmp m s2 s3 = some bc ∧ strcmp m s1 s3 = some ac ∧
      (ab = 0 ↔ a = b) ∧ ab = -ba ∧ (ab < 0 → bc < 0 → ac < 0) := by
  refine ⟨⟨_,strncmp_value ha hb n,?_⟩,strncmp_loads ha hb n,?_⟩
  · intro m' t1 t2 h1 h2
    exact strcmp_eq h1 h2
  · refine ⟨_,_,_,_,strcmp_eq ha hb,strcmp_eq hb ha,strcmp_eq hb hc,strcmp_eq ha hc,?_,?_,?_⟩
    · exact difference_eq_zero_iff signed_injective (signed_ne_zero ha.nonzero)
        (signed_ne_zero hb.nonzero)
    · exact difference_swap a b
    · intro hab hbc
      exact difference_trans signed_injective (signed_ne_zero hb.nonzero)
        (signed_ne_zero hc.nonzero) hab hbc

/-- Three strings: `"\x80"`, `"ab"` and `"ac"`. -/
def sampleText : Bytes := holding [0x80,0,0x61,0x62,0,0x61,0x63]

/-- The first is less than the last through the second, and the others agree in one character. -/
theorem strncmp_strcmp_order_sample :
    (strncmp sampleText 2 5 1).value = strcmp (holding [0x61,0,0x61]) 0 2 ∧
    ∃ value < 0, strcmp sampleText 0 5 = some value := by
  have ha : IsString sampleText 0 [0x80] := ⟨by norm_num,by decide,by decide⟩
  have hb : IsString sampleText 2 [0x61,0x62] := ⟨by norm_num,by decide,by decide⟩
  have hc : IsString sampleText 5 [0x61,0x63] := ⟨by norm_num,by decide,by decide⟩
  obtain ⟨⟨value,hvalue,hcut⟩,-⟩ := strncmp_strcmp_order sampleText 2 5 0 _ _ _ hb hc ha 1
  obtain ⟨-,-,ab,ba,bc,ac,hab,-,hbc,hac,-,-,htrans⟩ :=
    strncmp_strcmp_order sampleText 0 2 5 _ _ _ ha hb hc 1
  have hfirst : strcmp sampleText 0 2 = some (-225) := by decide
  have hsecond : strcmp sampleText 2 5 = some (-1) := by decide
  constructor
  · rw [hvalue]
    symm
    exact hcut _ 0 2 ⟨by norm_num,by decide,by decide⟩ ⟨by norm_num,by decide,by decide⟩
  · refine ⟨ac,htrans ?_ ?_,hac⟩
    · rw [← Option.some_inj.mp (hfirst.symm.trans hab)]
      norm_num
    · rw [← Option.some_inj.mp (hsecond.symm.trans hbc)]
      norm_num

end X1.CString
