import Mathlib.Data.Nat.Digits.Lemmas
import X1.Fmt.Text

/-! # The numbers that fmt.c prints

The digits in `tmp` are those of the number in the base of the conversion, so that 22
characters are enough for any `unsigned long long`, and the 32-bit loop for decimal
numbers gives what the 64-bit one would.
-/
namespace X1.Fmt
open X1.Word X1.CString X1.Checked

def IsBase (base : ℕ) : Prop := base = 8 ∨ base = 10 ∨ base = 16

def digitChar (lower : Bool) (r : ℕ) : UInt8 := fmtDigits.getD r 0 ||| (if lower then 0x20 else 0)

/-- The value of a digit, in either case. -/
def digitValue (c : UInt8) : ℕ :=
  if fmtIsdigit c then (c - '0'.toUInt8).toNat
  else if 'a'.toUInt8 ≤ c then (c - 'a'.toUInt8).toNat + 10
  else (c - 'A'.toUInt8).toNat + 10

/-- The number that a row of digits stands for, the first one being the highest. -/
def readDigits (base : ℕ) (cs : List UInt8) : ℕ := cs.foldl (fun n c => n * base + digitValue c) 0

section
variable {base room n r : ℕ} {lower : Bool}

theorem digitValue_digitChar (hr : r < 16) : digitValue (digitChar lower r) = r := by
  cases lower <;> revert r <;> decide

theorem IsBase.le (hbase : IsBase base) : 8 ≤ base ∧ base ≤ 16 := by
  rcases hbase with rfl | rfl | rfl <;> decide

theorem convert_succ (hbase : IsBase base) :
    convert base lower (room + 1) n =
      if n / base = 0 then .ok [digitChar lower (n % base)]
      else (convert base lower room (n / base)).map (digitChar lower (n % base) :: ·) := by
  have hand : (if base = 10 then n % 10 else n &&& (base - 1)) = n % base := by
    rcases hbase with rfl | rfl | rfl
    · exact and_low_mask n 3
    · rfl
    · exact and_low_mask n 4
  have hshift : (if base = 10 then n / 10 else n >>> (if base = 8 then 3 else 4)) = n / base := by
    rcases hbase with rfl | rfl | rfl
    · exact Nat.shiftRight_eq_div_pow n 3
    · rfl
    · exact Nat.shiftRight_eq_div_pow n 4
  simp only [convert,hand,hshift,digitChar]

/-- The digits of a number, the lowest first; zero has one. -/
def digitsOf (base n : ℕ) : List ℕ := if n = 0 then [0] else Nat.digits base n

theorem digitsOf_eq (hbase : 2 ≤ base) :
    digitsOf base n = if n / base = 0 then [n % base] else n % base :: digitsOf base (n / base) := by
  unfold digitsOf
  by_cases hn : n = 0
  · simp [hn]
  · by_cases hq : n / base = 0
    · have hlt : n < base := (Nat.div_eq_zero_iff_lt (by omega)).mp hq
      rw [if_neg hn,if_pos hq,Nat.digits_of_lt base n hn hlt,Nat.mod_eq_of_lt hlt]
    · rw [if_neg hn,if_neg hq,if_neg hq,Nat.digits_def' (by omega) (by omega)]

/-- There is room for as many digits as the number has. -/
theorem convert_eq (hbase : IsBase base) (hn : n < base ^ (room + 1)) :
    convert base lower (room + 1) n = .ok ((digitsOf base n).map (digitChar lower)) := by
  have hle := hbase.le
  induction room generalizing n with
  | zero =>
    have hq : n / base = 0 := Nat.div_eq_of_lt (by simpa using hn)
    rw [convert_succ hbase,digitsOf_eq (by omega),if_pos hq,if_pos hq]
    rfl
  | succ room ih =>
    rw [convert_succ hbase,digitsOf_eq (by omega)]
    split_ifs with hq
    · rfl
    · have hlt : n / base < base ^ (room + 1) := Nat.div_lt_of_lt_mul (by rwa [Nat.pow_succ'] at hn)
      rw [ih hlt]
      rfl

theorem convert_max (hbase : IsBase base) (hn : n < 2 ^ 64) :
    convert base lower FMT_MAX_NUM_SIZE n = .ok ((digitsOf base n).map (digitChar lower)) := by
  have hle : 8 ^ 22 ≤ base ^ 22 := Nat.pow_le_pow_left hbase.le.1 22
  exact convert_eq hbase (lt_of_lt_of_le hn (le_trans (by norm_num) hle))

theorem digitsOf_lt (hbase : 2 ≤ base) {r : ℕ} (hr : r ∈ digitsOf base n) : r < base := by
  unfold digitsOf at hr
  split_ifs at hr with hn
  · rw [List.mem_singleton.mp hr]
    omega
  · exact Nat.digits_lt_base (by omega) hr

theorem ofDigits_digitsOf : Nat.ofDigits base (digitsOf base n) = n := by
  unfold digitsOf
  split_ifs with hn
  · simp [hn]
  · exact Nat.ofDigits_digits base n

theorem length_digitsOf_le (hbase : IsBase base) {k : ℕ} (hk : 0 < k) :
    (digitsOf base n).length ≤ k ↔ n < base ^ k := by
  have hle := hbase.le
  rw [digitsOf]
  split_ifs with hn
  · have hpos : 0 < base ^ k := Nat.pow_pos (by omega)
    simp only [hn,List.length_singleton]
    omega
  · exact Nat.digits_length_le_iff (by omega) n

theorem readDigits_append (cs : List UInt8) (c : UInt8) :
    readDigits base (cs ++ [c]) = readDigits base cs * base + digitValue c := by
  rw [readDigits,List.foldl_append]
  rfl

/-- The digits of a number, printed and read back. -/
theorem readDigits_map (rs : List ℕ) (hrs : ∀ r ∈ rs, r < 16) :
    readDigits base (rs.map (digitChar lower)).reverse = Nat.ofDigits base rs := by
  induction rs with
  | nil => rfl
  | cons r rs ih =>
    rw [List.map_cons,List.reverse_cons,readDigits_append,ih (fun r hr => hrs r (List.mem_cons_of_mem _ hr)),
      digitValue_digitChar (hrs r (by simp)),Nat.ofDigits_cons]
    ring

theorem readDigits_zeros (k : ℕ) (cs : List UInt8) :
    readDigits base (List.replicate k '0'.toUInt8 ++ cs) = readDigits base cs := by
  induction k with
  | zero => rfl
  | succ k ih =>
    rw [← ih]
    have hzero : 0 * base + digitValue '0'.toUInt8 = 0 := by
      rw [Nat.zero_mul]
      decide
    simp only [readDigits,List.replicate_succ,List.cons_append,List.foldl_cons,hzero]

end

/-! ## The value of an argument -/

/-- The bits of the loop that converts the number to decimal. -/
def loopBits (modifier : Modifier) : ℕ := if modifier = .longlong then 64 else 32

/-- The argument has the type that the modifier announces. -/
def Fits : Modifier → Arg → Prop
  | .longlong,.wide _ => True
  | .longlong,_ => False
  | _,.word _ => True
  | _,_ => False

def argNat : Arg → ℕ
  | .word w => w.toNat
  | .wide n => n.toNat
  | .str _ | .ref => 0

/-- The value that the conversion is asked to print. -/
def intValue (d : Directive) (a : Arg) : ℤ :=
  if d.flags.convSigned then Int.bmod (argNat a) (2 ^ argBits d.modifier)
  else (argNat a % 2 ^ argBits d.modifier : ℕ)

/-- The value that is printed: `z` and `t` extend the sign of an unsigned argument, which only
the decimal conversion then cuts off, and `#` hides the sign. -/
def printedValue (d : Directive) (a : Arg) : ℤ :=
  let v := intValue d a
  if d.flags.altForm ∧ v < 0 then v + 2 ^ loopBits d.modifier
  else if d.modifier = .ptrdiff ∧ d.base ≠ 10 ∧ 2 ^ 31 ≤ v then v + (2 ^ 64 - 2 ^ 32)
  else v

def numberMark (d : Directive) (v : ℤ) : List UInt8 :=
  if d.flags.altForm then
    '0'.toUInt8 :: if d.base = 16 then ['X'.toUInt8 ||| (if d.flags.lower then 0x20 else 0)] else []
  else if v < 0 then ['-'.toUInt8]
  else if d.flags.convSigned ∧ d.flags.sign then ['+'.toUInt8]
  else if d.flags.convSigned ∧ d.flags.blank then [' '.toUInt8]
  else []

/-- At least as many digits as the precision asks for; none for a zero when it asks for none. -/
def numeral (d : Directive) (n : ℕ) : List UInt8 :=
  let digits := if n = 0 ∧ d.precision = 0 then []
    else ((digitsOf d.base n).map (digitChar (d.flags.lower && d.base != 10))).reverse
  List.replicate (d.precision - digits.length).toNat '0'.toUInt8 ++ digits

/-- There are zeros before a number only if there is neither a precision nor a `-`. -/
def fieldFlags (d : Directive) : Flags :=
  if d.flags.leftJustify ∨ 0 ≤ d.precision then { d.flags with zeroPad := false } else d.flags

/-- A number in its field. -/
def numberText (d : Directive) (v : ℤ) : List UInt8 :=
  layout (fieldFlags d) d.width (numberMark d v) (numeral d v.natAbs)

/-- What becomes of the width when there is no room for padding; it does not become less otherwise. -/
def lowestWidth (d : Directive) (v : ℤ) : ℤ :=
  d.width - (numberMark d v).length - (numeral d v.natAbs).length - passes (fieldFlags d)

section
variable {d : Directive} {a : Arg} {args : List Arg} {n m : ℕ}

theorem intDigits_eq (hbase : IsBase d.base) (hn : n < 2 ^ 64)
    (hlow : d.base = 10 ∧ d.modifier ≠ .longlong → n % 2 ^ 32 = m ∧ (m = 0 → n = 0))
    (hall : ¬(d.base = 10 ∧ d.modifier ≠ .longlong) → n = m) :
    intDigits d n = .ok (if m = 0 ∧ d.precision = 0 then []
      else (digitsOf d.base m).map (digitChar (d.flags.lower && d.base != 10))) := by
  have hzero : n = 0 ↔ m = 0 := by
    by_cases h : d.base = 10 ∧ d.modifier ≠ .longlong
    · have := hlow h
      omega
    · rw [hall h]
  unfold intDigits
  by_cases hn0 : n = 0
  · have hm0 := hzero.mp hn0
    have hdigit : digitChar (d.flags.lower && d.base != 10) 0 = '0'.toUInt8 := by
      cases d.flags.lower && d.base != 10 <;> decide
    by_cases hp : d.precision = 0 <;> simp [hn0,hm0,hp,digitsOf,hdigit]
  · have hm0 : m ≠ 0 := fun h => hn0 (hzero.mpr h)
    have hsome : ¬(m = 0 ∧ d.precision = 0) := fun h => hm0 h.1
    rw [if_neg hn0,if_neg hsome]
    by_cases hten : d.base = 10
    · have hlower : (d.flags.lower && d.base != 10) = false := by simp [hten]
      rw [if_pos hten,hlower,hten]
      by_cases hlong : d.modifier = .longlong
      · rw [if_pos hlong,← hall (fun h => h.2 hlong)]
        exact convert_max (.inr (.inl rfl)) hn
      · rw [if_neg hlong,(hlow ⟨hten,hlong⟩).1]
        have := (hlow ⟨hten,hlong⟩).1
        exact convert_max (.inr (.inl rfl)) (by omega)
    · have hlower : (d.flags.lower && d.base != 10) = d.flags.lower := by simp [hten]
      rw [if_neg hten,hlower,← hall (fun h => hten h.1)]
      exact convert_max hbase hn

theorem extend_eq {bits : ℕ} (hbits : bits = 8 ∨ bits = 16 ∨ bits = 32) (signed : Bool) (w : ℕ) :
    extend bits signed w < 2 ^ 64 ∧ (extend bits signed w : ℤ) =
      let v : ℤ := if signed then Int.bmod w (2 ^ bits) else (w % 2 ^ bits : ℕ)
      if v < 0 then v + 2 ^ 64 else v := by
  cases signed with
  | false =>
    simp only [extend,Bool.false_eq_true,false_and,if_false]
    rcases hbits with rfl | rfl | rfl <;> omega
  | true =>
    simp only [extend,Int.bmod_def,true_and,if_true]
    rcases hbits with rfl | rfl | rfl <;> constructor <;> split_ifs <;> omega

/-- `ptrdiff_t` is signed, and so is what `z` reads; a pointer is not. -/
def readsSigned (d : Directive) : Bool :=
  match d.modifier with
  | .ptr => false
  | .ptrdiff => true
  | _ => d.flags.convSigned

theorem intArgument_word (w : UInt32) (hlong : d.modifier ≠ .longlong) :
    intArgument d (.word w :: args) = .ok (extend (argBits d.modifier) (readsSigned d) w.toNat,args) := by
  unfold intArgument readsSigned
  cases hm : d.modifier with
  | longlong => exact absurd hm hlong
  | _ => rfl

/-- A value as an `unsigned long long`, once it has been read as an argument -/
def Raw (d : Directive) (v : ℤ) (n : ℕ) : Prop :=
  n < 2 ^ 64 ∧ (n : ℤ) = if v < 0 then v + 2 ^ 64
    else if d.modifier = .ptrdiff ∧ 2 ^ 31 ≤ v then v + (2 ^ 64 - 2 ^ 32)
    else v

theorem intArgument_eq (args : List Arg) (hfits : Fits d.modifier a) (hptr : d.modifier = .ptr → d.flags.convSigned = false) :
    ∃ n,intArgument d (a :: args) = .ok (n,args) ∧ Raw d (intValue d a) n := by
  by_cases hlong : d.modifier = .longlong
  · rw [hlong] at hfits
    cases a with
    | wide n =>
      refine ⟨n.toNat,?_,n.toNat_lt,?_⟩
      · unfold intArgument
        rw [hlong]
        rfl
      · have hn := n.toNat_lt
        simp only [intValue,hlong,argBits,argNat,Int.bmod_def,reduceCtorEq,false_and,if_false]
        split_ifs <;> omega
    | word
    | str
    | ref => cases hfits
  · obtain ⟨w,rfl⟩ : ∃ w,a = .word w := by
      cases a with
      | word w => exact ⟨w,rfl⟩
      | wide
      | str
      | ref => cases hm : d.modifier <;> simp [hm,Fits] at hfits hlong
    have hbits : argBits d.modifier = 8 ∨ argBits d.modifier = 16 ∨ argBits d.modifier = 32 := by
      cases hm : d.modifier <;> simp [hm,argBits] at hlong ⊢
    obtain ⟨hlt,hext⟩ := extend_eq hbits (readsSigned d) w.toNat
    refine ⟨_,intArgument_word w hlong,hlt,hext.trans ?_⟩
    have hlow := w.toNat_lt
    by_cases hdiff : d.modifier = .ptrdiff
    · have hreads : readsSigned d = true := by simp [readsSigned,hdiff]
      simp only [intValue,hreads,hdiff,argBits,argNat,Int.bmod_def,true_and,if_true]
      cases d.flags.convSigned with
      | true => simp only [if_true]; omega
      | false => simp only [Bool.false_eq_true,if_false]; omega
    · have hreads : readsSigned d = d.flags.convSigned := by
        unfold readsSigned
        cases hm : d.modifier with
        | ptr => exact (hptr hm).symm
        | ptrdiff => exact absurd hm hdiff
        | _ => rfl
      simp only [intValue,hreads,hdiff,argNat,false_and,if_false]

theorem intValue_unsigned (hsigned : d.flags.convSigned = false) :
    0 ≤ intValue d a ∧ intValue d a < 2 ^ loopBits d.modifier := by
  have hbits : argBits d.modifier ≤ loopBits d.modifier := by cases d.modifier <;> decide
  have hlt := Nat.mod_lt (argNat a) (Nat.two_pow_pos (argBits d.modifier))
  have hle := lt_of_lt_of_le hlt (Nat.pow_le_pow_right two_pos hbits)
  have hvalue : intValue d a = (argNat a % 2 ^ argBits d.modifier : ℕ) := by
    unfold intValue
    rw [hsigned]
    rfl
  rw [hvalue]
  exact ⟨Int.natCast_nonneg _,by exact_mod_cast hle⟩

theorem intValue_signed (hsigned : d.flags.convSigned = true) :
    -2 ^ (loopBits d.modifier - 1) ≤ intValue d a ∧ intValue d a < 2 ^ (loopBits d.modifier - 1) := by
  simp only [intValue,hsigned,loopBits,Int.bmod_def]
  cases d.modifier with
  | _ =>
    simp only [argBits,reduceCtorEq,if_true,if_false]
    omega

theorem loopBits_cases (modifier : Modifier) :
    modifier = .longlong ∧ loopBits modifier = 64 ∨ modifier ≠ .longlong ∧ loopBits modifier = 32 := by
  cases modifier <;> simp [loopBits]

/-- The sign of a signed argument is that of the `long long` it is extended to. -/
theorem Raw.signed (h : Raw d (intValue d a) n) (hsigned : d.flags.convSigned = true) :
    n = if intValue d a < 0 then intValue d a + 2 ^ 64 else intValue d a := by
  have hbound := intValue_signed (a := a) hsigned
  have hn := h.2
  rcases loopBits_cases d.modifier with ⟨hlong,hb⟩ | ⟨hlong,hb⟩
  · simpa [hlong] using hn
  · rw [hb] at hbound
    split_ifs at hn ⊢ <;> omega

theorem Raw.neg_iff (h : Raw d (intValue d a) n) (hsigned : d.flags.convSigned = true) :
    2 ^ 63 ≤ n ↔ intValue d a < 0 := by
  have hbound := intValue_signed (a := a) hsigned
  have hn := h.signed hsigned
  rcases loopBits_cases d.modifier with ⟨hlong,hb⟩ | ⟨hlong,hb⟩ <;> rw [hb] at hbound <;>
    split_ifs at hn <;> omega

theorem printedValue_of_signed (halt : d.flags.altForm = false) (hten : d.base = 10) :
    printedValue d a = intValue d a := by
  simp [printedValue,halt,hten]

theorem printedValue_nonneg (h : d.flags.altForm = true ∨ d.flags.convSigned = false) :
    0 ≤ printedValue d a := by
  unfold printedValue
  cases hconv : d.flags.convSigned with
  | false =>
    have hpos := intValue_unsigned (a := a) hconv
    dsimp only
    split_ifs <;> omega
  | true =>
    have hbound := intValue_signed (a := a) hconv
    have halt : d.flags.altForm = true := h.resolve_right (by simp [hconv])
    rcases loopBits_cases d.modifier with ⟨hlong,hb⟩ | ⟨hlong,hb⟩ <;> rw [hb] at hbound ⊢ <;>
      simp only [halt,true_and] <;> split_ifs <;> omega

theorem natAbs_printedValue_lt (d : Directive) (a : Arg) : (printedValue d a).natAbs < 2 ^ 64 := by
  have hbits := loopBits_cases d.modifier
  unfold printedValue
  cases hconv : d.flags.convSigned with
  | false =>
    have hbound := intValue_unsigned (a := a) hconv
    rcases hbits with ⟨hlong,hb⟩ | ⟨hlong,hb⟩ <;> rw [hb] at hbound ⊢ <;> dsimp only <;> split_ifs with _ hdiff
    · omega
    · rw [hdiff.1] at hlong
      cases hlong
    all_goals omega
  | true =>
    have hbound := intValue_signed (a := a) hconv
    rcases hbits with ⟨hlong,hb⟩ | ⟨hlong,hb⟩ <;> rw [hb] at hbound ⊢ <;> dsimp only <;> split_ifs with _ hdiff
    · omega
    · rw [hdiff.1] at hlong
      cases hlong
    all_goals omega

theorem signOf_mark (hsigned : d.flags.convSigned = true → d.base = 10) (h : Raw d (intValue d a) n) :
    intMark d.flags d.base (signOf d.flags n).1 = numberMark d (printedValue d a) := by
  unfold intMark numberMark signOf
  cases halt : d.flags.altForm with
  | true => rfl
  | false =>
    cases hconv : d.flags.convSigned with
    | true =>
      simp only [printedValue_of_signed halt (hsigned hconv),h.neg_iff hconv,Bool.false_eq_true,if_false,if_true,
        true_and]
      split_ifs <;> rfl
    | false =>
      have hpos := printedValue_nonneg (d := d) (a := a) (.inr hconv)
      simp [show ¬printedValue d a < 0 by omega]

theorem signOf_number (hsigned : d.flags.convSigned = true → d.base = 10) (h : Raw d (intValue d a) n) :
    (signOf d.flags n).2 < 2 ^ 64 ∧
    (d.base = 10 → (signOf d.flags n).2 % 2 ^ loopBits d.modifier = (printedValue d a).natAbs) ∧
    (d.base ≠ 10 → (signOf d.flags n).2 = (printedValue d a).natAbs) ∧
    ((printedValue d a).natAbs = 0 → (signOf d.flags n).2 = 0) := by
  have hlt := h.1
  cases hconv : d.flags.convSigned with
  | true =>
    have hten := hsigned hconv
    have hn := h.signed hconv
    have hneg := h.neg_iff hconv
    have hbound := intValue_signed (a := a) hconv
    by_cases hshown : d.flags.altForm = false ∧ intValue d a < 0
    · have hnumber : (signOf d.flags n).2 = 2 ^ 64 - n := by
        simp only [signOf,hshown.1,hconv,hneg.mpr hshown.2,if_true,Bool.false_eq_true,if_false]
      rw [hnumber,printedValue_of_signed hshown.1 hten]
      rw [if_pos hshown.2] at hn
      rcases loopBits_cases d.modifier with ⟨-,hb⟩ | ⟨-,hb⟩ <;> rw [hb] at hbound ⊢ <;> omega
    · have hnumber : (signOf d.flags n).2 = n := by
        unfold signOf
        split_ifs with halt hwide
        · rfl
        · exact absurd ⟨by simpa using halt,hneg.mp hwide⟩ hshown
        all_goals rfl
      have hprinted : printedValue d a =
          if intValue d a < 0 then intValue d a + 2 ^ loopBits d.modifier else intValue d a := by
        simp only [printedValue,hten]
        cases halt : d.flags.altForm <;> simp_all
      rw [hnumber,hprinted]
      clear hnumber hprinted
      rcases loopBits_cases d.modifier with ⟨-,hb⟩ | ⟨-,hb⟩ <;> rw [hb] at hbound ⊢ <;>
        split_ifs at hn ⊢ <;> omega
  | false =>
    have hpos := intValue_unsigned (a := a) hconv
    have hn := h.2
    have hnumber : (signOf d.flags n).2 = n := by cases halt : d.flags.altForm <;> simp [signOf,halt,hconv]
    have hprinted : printedValue d a =
        if d.modifier = .ptrdiff ∧ d.base ≠ 10 ∧ 2 ^ 31 ≤ intValue d a then
          intValue d a + (2 ^ 64 - 2 ^ 32)
        else intValue d a := by
      simp [printedValue,show ¬intValue d a < 0 by omega]
    have hm := Int.natAbs_of_nonneg (printedValue_nonneg (d := d) (a := a) (.inr hconv))
    rw [hnumber]
    generalize (printedValue d a).natAbs = m at hm ⊢
    rw [hprinted] at hm
    clear hnumber hprinted
    rcases loopBits_cases d.modifier with ⟨hlong,hb⟩ | ⟨hlong,hb⟩
    · rw [hb] at hpos ⊢
      simp only [hlong,reduceCtorEq,false_and,if_false] at hn hm
      split_ifs at hn <;> omega
    · rw [hb] at hpos ⊢
      by_cases hdiff : d.modifier = .ptrdiff <;>
        simp only [hdiff,true_and,false_and,if_false] at hn hm <;> split_ifs at hn hm <;> omega

theorem length_numeral (hbase : IsBase d.base) (hn : n < 2 ^ 64) : ((numeral d n).length : ℤ) ≤ max d.precision 22 := by
  have hlong : (digitsOf d.base n).length ≤ 22 := by
    refine (length_digitsOf_le hbase (by decide)).mpr (lt_of_lt_of_le hn ?_)
    exact le_trans (by norm_num) (Nat.pow_le_pow_left hbase.le.1 22)
  unfold numeral
  dsimp only
  rw [List.length_append,List.length_replicate]
  split_ifs with hnone
  · simp only [List.length_nil]
    omega
  · rw [List.length_reverse,List.length_map]
    omega

theorem le_length_numeral (d : Directive) (n : ℕ) : d.precision ≤ (numeral d n).length := by
  unfold numeral
  dsimp only
  rw [List.length_append,List.length_replicate]
  omega

theorem length_numberMark (d : Directive) (v : ℤ) : (numberMark d v).length ≤ 2 := by
  unfold numberMark
  split_ifs <;> decide

/-- The width stays an `int` but for a precision that is about as great as an `int` can be. -/
theorem lowestWidth_ge (hbase : IsBase d.base) (hwidth : 0 ≤ d.width) (hprecision : d.precision + 5 ≤ 2 ^ 31) :
    -2 ^ 31 ≤ lowestWidth d (printedValue d a) := by
  have hmark := length_numberMark d (printedValue d a)
  have hnumeral := length_numeral hbase (natAbs_printedValue_lt d a)
  have hpasses : passes (fieldFlags d) ≤ 3 := by
    unfold passes
    split_ifs <;> decide
  unfold lowestWidth
  omega

theorem lowestWidth_overflows {v : ℤ} (h : d.width + 2 ^ 31 < d.precision + passes (fieldFlags d)) :
    lowestWidth d v < -2 ^ 31 := by
  have hnumeral := le_length_numeral d v.natAbs
  unfold lowestWidth
  omega

theorem lowestWidth_lt (hwidth : d.width < 2 ^ 31) (v : ℤ) : lowestWidth d v < 2 ^ 31 := by
  unfold lowestWidth
  omega

/-- The conversion of an integer prints the value it reads off the argument, unless the width overflows. -/
theorem intText_eq (hbase : IsBase d.base) (hsigned : d.flags.convSigned = true → d.base = 10)
    (hptr : d.modifier = .ptr → d.flags.convSigned = false) (hwidth : 0 ≤ d.width ∧ d.width < 2 ^ 31)
    (hfits : Fits d.modifier a) :
    intText d (a :: args) =
      checkInt (lowestWidth d (printedValue d a)) >>= fun _ => .ok (numberText d (printedValue d a),args) := by
  obtain ⟨n,harg,hraw⟩ := intArgument_eq args hfits hptr
  obtain ⟨hlt,hten,hother,hzero⟩ := signOf_number hsigned hraw
  have hmark := signOf_mark hsigned hraw
  have hshort := length_numberMark d (printedValue d a)
  have hdigits := intDigits_eq (m := (printedValue d a).natAbs) hbase hlt
    (fun h => ⟨by simpa [loopBits,h.2] using hten h.1,hzero⟩)
    (fun h => by
      by_cases hb : d.base = 10
      · have hlong : d.modifier = .longlong := by_contra fun hlong => h ⟨hb,hlong⟩
        have := hten hb
        rw [hlong,show loopBits .longlong = 64 by rfl] at this
        omega
      · exact hother hb)
  have hflags (n : ℕ) : signOf (if d.flags.leftJustify ∨ 0 ≤ d.precision then
      { d.flags with zeroPad := false } else d.flags) n = signOf d.flags n := by split_ifs <;> rfl
  have hmark' (sign : Option UInt8) : intMark (if d.flags.leftJustify ∨ 0 ≤ d.precision then
      { d.flags with zeroPad := false } else d.flags) d.base sign = intMark d.flags d.base sign := by
    split_ifs <;> rfl
  unfold intText numberText lowestWidth numeral
  rw [harg]
  simp only [ok_bind,hflags,hmark',hmark,hdigits]
  rw [checkInt_of_le (by omega) (by omega)]
  simp only [ok_bind,fieldFlags]
  split_ifs with hnone <;> simp [pure,Except.pure]

end

end X1.Fmt
