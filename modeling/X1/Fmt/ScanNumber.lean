import X1.Fmt.Number
import X1.Fmt.Scan

/-! # The numbers that fmt.c scans

The loops of `fmt_sscanf_state_produce_int`: the digits are collected up to the first
character that is none, and then added up from the last one on. The check for an overflow
compares two sums. It misses nothing as long as the number fits, and in a base that is a
power of two it never finds anything.
-/
namespace X1.Fmt
open X1.Word X1.Checked

section
variable {s : Sscanf} {c stop : UInt8} {p more rest : List UInt8} {g : Digits} {base bits n m k : ℕ}

/-- The state with its cursor at some place. -/
def Sscanf.at (s : Sscanf) (passed rest : List UInt8) : Sscanf := { s with str := ⟨passed,rest⟩ }

theorem consumeString_at (hwidth : s.checkWidth = false) :
    consumeString (s.at p (c :: rest)) = .ok (c,s.at (c :: p) rest) := by
  simp [consumeString,Sscanf.at,Cursor.consume,hwidth,bind,Except.bind,pure,Except.pure]

theorem restoreString_at : restoreString (s.at (c :: p) rest) = .ok (s.at p (c :: rest)) := rfl

theorem skipSpace_at (hc : fmtIsspace c = false) :
    skipSpace (s.at p (c :: rest)) = .ok (s.at p (c :: rest)) := by
  simp [skipSpace,Sscanf.at,fmtSkip,skip,hc,bind,Except.bind,pure,Except.pure]

theorem collectLoop_at (hwidth : s.checkWidth = false) (ds : List UInt8)
    (hds : ∀ c ∈ ds,c ≠ 0 ∧ baseDigit s.base c = true) (hstop : stop = 0 ∨ baseDigit s.base stop = false)
    (turns : ℕ) (hturns : ds.length < turns) (hrest : c :: rest = ds ++ stop :: more) :
    collectLoop turns c g (s.at (c :: p) rest) =
      .ok (stop,ds.foldl collect g,s.at (stop :: ds.reverse ++ p) more) := by
  induction ds generalizing c g p rest turns with
  | nil =>
    obtain ⟨rfl,rfl⟩ := List.cons.inj hrest
    obtain ⟨turns,rfl⟩ := Nat.exists_eq_succ_of_ne_zero (Nat.ne_of_gt hturns)
    have hno : ¬(c ≠ 0 ∧ baseDigit (s.at (c :: p) rest).base c = true) := by
      rintro ⟨hc,hd⟩
      exact hstop.elim hc (fun h => by rw [show (s.at (c :: p) rest).base = s.base by rfl,h] at hd; cases hd)
    unfold collectLoop
    rw [if_neg hno]
    rfl
  | cons d ds ih =>
    rw [List.cons_append] at hrest
    obtain ⟨rfl,rfl⟩ := List.cons.inj hrest
    obtain ⟨turns,rfl⟩ := Nat.exists_eq_succ_of_ne_zero (Nat.ne_of_gt (Nat.zero_lt_of_lt hturns))
    rw [List.length_cons] at hturns
    obtain ⟨c',rest',hnext⟩ : ∃ c' rest',ds ++ stop :: more = c' :: rest' := by
      cases ds with
      | nil => exact ⟨_,_,rfl⟩
      | cons d' ds => exact ⟨_,_,rfl⟩
    unfold collectLoop
    rw [if_pos (show c ≠ 0 ∧ baseDigit (s.at (c :: p) (ds ++ stop :: more)).base c = true from hds c (by simp)),hnext,
      consumeString_at hwidth]
    have hloop := ih (g := collect g c) (p := c :: p) (fun c' hc' => hds c' (List.mem_cons_of_mem _ hc')) turns
      (by omega) hnext.symm
    refine hloop.trans ?_
    simp

theorem foldl_collect (ds : List UInt8) (hlen : g.i + ds.length < FMT_MAX_NUM_SIZE) :
    ds.foldl collect g = { g with buf := g.buf ++ ds, i := g.i + ds.length } := by
  induction ds generalizing g with
  | nil => simp
  | cons d ds ih =>
    rw [List.length_cons] at hlen
    have hone : collect g d = { g with buf := g.buf ++ [d], i := g.i + 1 } := by
      unfold collect FMT_MAX_NUM_SIZE at *
      exact if_pos (by omega)
    rw [List.foldl_cons,hone,ih (by simp only; omega)]
    simp [Nat.add_comm,Nat.add_left_comm]

/-- With more than 21 digits there is only a `1` left, and the sign. -/
theorem foldl_collect_full (ds : List UInt8) (hi : g.i < FMT_MAX_NUM_SIZE)
    (hlen : FMT_MAX_NUM_SIZE ≤ g.i + ds.length) :
    ds.foldl collect g = { buf := ['1'.toUInt8], i := g.i + ds.length, negative := true } := by
  have hlater (ds : List UInt8) (g : Digits) (hg : FMT_MAX_NUM_SIZE ≤ g.i) :
      ds.foldl collect g = { g with i := g.i + ds.length } := by
    induction ds generalizing g with
    | nil => rfl
    | cons d ds ih =>
      have hone : collect g d = { g with i := g.i + 1 } := by
        unfold collect FMT_MAX_NUM_SIZE at *
        rw [if_neg (by omega),if_neg (by omega)]
      rw [List.foldl_cons,hone,ih _ (by simp only; omega)]
      simp [Nat.add_comm,Nat.add_left_comm]
  obtain ⟨low,c,high,hds,hlow⟩ : ∃ low c high,ds = low ++ c :: high ∧ g.i + low.length = FMT_MAX_NUM_SIZE - 1 := by
    unfold FMT_MAX_NUM_SIZE at *
    refine ⟨ds.take (21 - g.i),ds.get ⟨21 - g.i,by omega⟩,ds.drop (21 - g.i + 1),?_,?_⟩
    · simp
    · rw [List.length_take]
      omega
  subst hds
  have hsize : FMT_MAX_NUM_SIZE = 22 := rfl
  rw [List.foldl_append,foldl_collect low (by omega),List.foldl_cons]
  have hone : collect { g with buf := g.buf ++ low, i := g.i + low.length } c =
      { buf := ['1'.toUInt8], i := g.i + low.length + 1, negative := true } := by
    unfold collect
    dsimp only
    rw [if_neg (by omega),if_pos hlow]
  rw [hone,hlater high _ (by simp only; omega),List.length_append,List.length_cons]
  simp only [Digits.mk.injEq,true_and,and_true]
  omega

theorem fmtAtoi_eq (hc : fmtIsxdigit c = true) : fmtAtoi c = .ok (digitValue c) := by
  unfold fmtAtoi digitValue
  rw [if_pos hc]
  by_cases hdigit : fmtIsdigit c = true
  · rw [if_pos hdigit,if_pos hdigit]
  · rw [if_neg hdigit,if_neg hdigit]
    unfold fmtIsxdigit at hc
    by_cases hlower : 'a'.toUInt8 ≤ c
    · have hle : c ≤ 'f'.toUInt8 := by
        by_contra hgt
        have hupper : ¬c ≤ 'F'.toUInt8 := fun h => absurd (UInt8.le_trans hlower h) (by decide)
        simp [hdigit,hlower,hgt,hupper] at hc
      simp [hlower,hle,Nat.add_comm]
    · simp [hlower,Nat.add_comm]

/-! ## The sum of the digits -/

/-- The value of digits of which the lowest comes first. -/
def lowValue (base : ℕ) (ds : List UInt8) : ℕ := Nat.ofDigits base (ds.map digitValue)

theorem lowValue_cons (ds : List UInt8) : lowValue base (c :: ds) = digitValue c + base * lowValue base ds := by
  simp [lowValue,Nat.ofDigits_cons]

theorem accumulate_fits (bits base k : ℕ) (ds : List UInt8) (hds : ∀ c ∈ ds,fmtIsxdigit c = true) (hm : m = base ^ k % 2 ^ bits)
    (hfit : n + base ^ k * lowValue base ds < 2 ^ bits) :
    accumulate bits base ds n m = .ok (n + base ^ k * lowValue base ds,false) := by
  induction ds generalizing n m k with
  | nil => simp [accumulate,lowValue]
  | cons c ds ih =>
    rw [lowValue_cons] at hfit ⊢
    -- a power that does not fit is only multiplied by zeros
    have hterm : digitValue c * m = base ^ k * digitValue c := by
      by_cases hzero : digitValue c = 0
      · simp [hzero]
      · have hle : base ^ k ≤ base ^ k * (digitValue c + base * lowValue base ds) :=
          Nat.le_mul_of_pos_right _ (by omega)
        rw [hm,Nat.mod_eq_of_lt (by omega),Nat.mul_comm]
    have hsum : base ^ k * (digitValue c + base * lowValue base ds) =
        base ^ k * digitValue c + base ^ (k + 1) * lowValue base ds := by ring
    rw [hsum] at hfit ⊢
    unfold accumulate
    rw [fmtAtoi_eq (hds c (by simp))]
    simp only [bind,Except.bind,hterm]
    rw [Nat.mod_eq_of_lt (by omega),if_neg (by omega),
      ih (k + 1) (fun c' hc' => hds c' (List.mem_cons_of_mem _ hc')) ?_ (by omega),Nat.add_assoc]
    rw [hm,pow_succ,Nat.mod_mul_mod]

/-- In a base that is a power of two a sum is never found to be too large, as its low bits stay. -/
theorem le_add_mul_mod {j v : ℕ} (hlow : n < 2 ^ j) (hn : n < 2 ^ bits) :
    n ≤ (n + v * (2 ^ j % 2 ^ bits)) % 2 ^ bits := by
  by_cases hj : bits ≤ j
  · have hzero : 2 ^ j % 2 ^ bits = 0 := Nat.mod_eq_zero_of_dvd (pow_dvd_pow 2 hj)
    rw [hzero,Nat.mul_zero,Nat.add_zero,Nat.mod_eq_of_lt hn]
  · have hpow : 2 ^ bits = 2 ^ j * 2 ^ (bits - j) := by rw [← pow_add,Nat.add_sub_cancel' (by omega)]
    have hone : 2 ^ j % 2 ^ bits = 2 ^ j := Nat.mod_eq_of_lt (Nat.pow_lt_pow_right (by omega) (by omega))
    have hmod : (n + v * 2 ^ j) % 2 ^ j = n := by rw [Nat.add_mul_mod_self_right,Nat.mod_eq_of_lt hlow]
    rw [hone,hpow,Nat.mod_mul,hmod]
    exact Nat.le_add_right _ _

/-- The high digits that do not fit are then dropped. -/
theorem accumulate_two_pow (bits j k : ℕ) (ds : List UInt8)
    (hds : ∀ c ∈ ds,fmtIsxdigit c = true ∧ digitValue c < 2 ^ j) (hm : m = 2 ^ (j * k) % 2 ^ bits)
    (hlow : n < 2 ^ (j * k)) (hn : n < 2 ^ bits) :
    accumulate bits (2 ^ j) ds n m = .ok ((n + 2 ^ (j * k) * lowValue (2 ^ j) ds) % 2 ^ bits,false) := by
  induction ds generalizing n m k with
  | nil => simp [accumulate,lowValue,Nat.mod_eq_of_lt hn]
  | cons c ds ih =>
    obtain ⟨hhex,hv⟩ := hds c (by simp)
    have hle : n ≤ (n + digitValue c * m) % 2 ^ bits := hm ▸ le_add_mul_mod hlow hn
    have hnext : (n + digitValue c * m) % 2 ^ bits < 2 ^ (j * (k + 1)) := by
      have hmle : m ≤ 2 ^ (j * k) := hm ▸ Nat.mod_le _ _
      have hmul : digitValue c * m ≤ (2 ^ j - 1) * 2 ^ (j * k) := Nat.mul_le_mul (by omega) hmle
      have hpow : 2 ^ (j * (k + 1)) = (2 ^ j - 1) * 2 ^ (j * k) + 2 ^ (j * k) := by
        rw [Nat.sub_mul,Nat.one_mul,Nat.sub_add_cancel (Nat.le_mul_of_pos_left _ (by positivity))]
        ring
      have := Nat.mod_le (n + digitValue c * m) (2 ^ bits)
      omega
    have hpower : m * 2 ^ j % 2 ^ bits = 2 ^ (j * (k + 1)) % 2 ^ bits := by
      rw [hm,Nat.mod_mul_mod]
      congr 1
      ring
    unfold accumulate
    rw [fmtAtoi_eq hhex]
    simp only [bind,Except.bind]
    rw [if_neg (by omega),ih (k + 1) (fun c' hc' => hds c' (List.mem_cons_of_mem _ hc')) hpower hnext
      (Nat.mod_lt _ (by positivity)),lowValue_cons]
    have hsum : ((n + digitValue c * m) % 2 ^ bits + 2 ^ (j * (k + 1)) * lowValue (2 ^ j) ds) ≡
        n + 2 ^ (j * k) * (digitValue c + 2 ^ j * lowValue (2 ^ j) ds) [MOD 2 ^ bits] := by
      calc _ ≡ n + digitValue c * m + 2 ^ (j * (k + 1)) * lowValue (2 ^ j) ds [MOD 2 ^ bits] :=
            (Nat.mod_modEq _ _).add_right _
        _ ≡ n + digitValue c * 2 ^ (j * k) + 2 ^ (j * (k + 1)) * lowValue (2 ^ j) ds [MOD 2 ^ bits] := by
            rw [hm]
            exact (((Nat.mod_modEq _ _).mul_left _).add_left _).add_right _
        _ = _ := by ring
    exact congrArg (fun r => Except.ok (r,false)) hsum

end

end X1.Fmt
