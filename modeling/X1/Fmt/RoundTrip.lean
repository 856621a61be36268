import X1.Fmt.Safe
import X1.Fmt.ScanNumber

/-! # Numbers that are printed and scanned again

What `sscanf` makes of the text that `sprintf` has written for the same conversion. The
decimal and hexadecimal conversions give back the argument. `%o` cannot read a zero,
whose only digit it takes for the mark of the base, nor a number of more than 21 digits,
and `%i` reads only the last digit, as it leaves the base at zero.
-/
namespace X1.Fmt
open X1.Word X1.CString X1.Checked

inductive Conversion where
  | d | i | u | o | p | x | X
  deriving DecidableEq

def Conversion.char : Conversion → UInt8
  | .d => 'd'.toUInt8
  | .i => 'i'.toUInt8
  | .u => 'u'.toUInt8
  | .o => 'o'.toUInt8
  | .p => 'p'.toUInt8
  | .x => 'x'.toUInt8
  | .X => 'X'.toUInt8

def Conversion.base : Conversion → ℕ
  | .d | .i | .u => 10
  | .o => 8
  | .p | .x | .X => 16

def lengthText : Modifier → List UInt8
  | .char => ['h'.toUInt8,'h'.toUInt8]
  | .short => ['h'.toUInt8]
  | .long => ['l'.toUInt8]
  | .longlong => ['l'.toUInt8,'l'.toUInt8]
  | .size => ['z'.toUInt8]
  | .ptrdiff => ['t'.toUInt8]
  | .none | .ptr => []

/-- A format of one conversion. -/
def plainFormat (m : Modifier) (c : Conversion) : Ptr := '%'.toUInt8 :: lengthText m ++ [c.char,0]

/-- The type of the destination. -/
def scanType (m : Modifier) (c : Conversion) : Modifier :=
  if c = .p then .ptr else if m = .ptr then .none else m

/-- The conversion that is printed, in which `z` is the same as `t`. -/
def plainDirective (m : Modifier) (c : Conversion) : Directive where
  flags := { altForm := c = .p, lower := c = .p ∨ c = .x, convSigned := c = .d ∨ c = .i }
  modifier := if scanType m c = .size then .ptrdiff else scanType m c
  specifier := .int
  base := c.base

/-- The scan after its format has been read. -/
def plainScan (m : Modifier) (c : Conversion) (s : Sscanf) : Sscanf :=
  { s with
    discard := false
    checkWidth := false
    convSigned := c = .d ∨ c = .i
    width := 0
    modifier := scanType m c
    specifier := .int
    base := if c = .i then 0 else c.base }

section
variable {m : Modifier} {c : Conversion} {a : Arg} {args : List Arg} {s : Sscanf}

theorem consumeDirective_plain :
    consumeDirective (lengthText m ++ [c.char,0]) args = .ok (plainDirective m c,args,[0]) := by
  cases m <;> cases c <;> rfl

theorem scanDirective_plain : scanDirective (lengthText m ++ [c.char,0]) s = .ok (plainScan m c s,[0]) := by
  cases m <;> cases c <;> rfl

theorem plainDirective_sane : Sane (plainDirective m c) := by
  cases m <;> cases c <;> constructor <;> simp [plainDirective,scanType,IsBase,Conversion.base]

def digitText (c : Conversion) (n : ℕ) : List UInt8 :=
  ((digitsOf c.base n).map (digitChar (c = .p ∨ c = .x))).reverse

/-- The sign or the mark, and the digits. -/
def plainText (m : Modifier) (c : Conversion) (v : ℤ) : List UInt8 :=
  numberMark (plainDirective m c) v ++ digitText c v.natAbs

theorem numberText_plain (v : ℤ) : numberText (plainDirective m c) v = plainText m c v := by
  have hlower : ((plainDirective m c).flags.lower && (plainDirective m c).base != 10) =
      decide (c = .p ∨ c = .x) := by cases c <;> rfl
  have hdigits : numeral (plainDirective m c) v.natAbs = digitText c v.natAbs := by
    unfold numeral digitText
    rw [hlower]
    simp [plainDirective]
  have hflags : fieldFlags (plainDirective m c) = (plainDirective m c).flags := by
    simp [fieldFlags,plainDirective]
  have hroom (mark number : List UInt8) :
      layout (plainDirective m c).flags (plainDirective m c).width mark number = mark ++ number := by
    simp [layout,plainDirective]
  rw [numberText,hflags,hroom,hdigits,plainText]

theorem formatText_plain (hfits : Fits (plainDirective m c).modifier a) :
    formatText (plainFormat m c).length (plainFormat m c) [a] 0 =
      .ok (plainText m c (printedValue (plainDirective m c) a),[],[]) := by
  have hsane := plainDirective_sane (m := m) (c := c)
  have hlen : (plainFormat m c).length = (lengthText m).length + 1 + 1 + 1 := by simp [plainFormat]
  have hint : directiveText (plainDirective m c) [a] 0 =
      .ok (plainText m c (printedValue (plainDirective m c) a),[],[]) := by
    rw [← numberText_plain]
    change (intText (plainDirective m c) [a]).map _ = _
    have hlow := lowestWidth_ge (a := a) (hsane.base rfl) hsane.width.1 (show (-1 : ℤ) + 5 ≤ 2 ^ 31 by norm_num)
    rw [intText_eq (hsane.base rfl) hsane.signed hsane.ptr hsane.width hfits,
      checkInt_of_le hlow (lowestWidth_lt hsane.width.2 _)]
    rfl
  have hend : formatText ((lengthText m).length + 1 + 1) [0] []
      (0 + (plainText m c (printedValue (plainDirective m c) a)).length) = .ok ([],[],[]) := rfl
  rw [hlen,formatText]
  simp only [plainFormat,List.cons_append,fmtConsume,bind,Except.bind]
  rw [if_neg (by decide),if_neg (by decide),consumeDirective_plain]
  dsimp only
  rw [hint]
  dsimp only
  rw [hend]
  simp [pure,Except.pure]

end

/-! ## The digits -/

section
variable {c : Conversion} {n : ℕ}

theorem Conversion.isBase (c : Conversion) : IsBase c.base := by
  cases c <;> simp [IsBase,Conversion.base]

theorem mem_digitText {b : UInt8} (hb : b ∈ digitText c n) :
    ∃ r < c.base,b = digitChar (c = .p ∨ c = .x) r := by
  simp only [digitText,List.mem_reverse,List.mem_map] at hb
  obtain ⟨r,hr,rfl⟩ := hb
  exact ⟨r,digitsOf_lt (by have := c.isBase.le; omega) hr,rfl⟩

theorem digitChar_scans {base : ℕ} (hbase : IsBase base) (lower : Bool) {r : ℕ} (hr : r < base) :
    digitChar lower r ≠ 0 ∧ baseDigit base (digitChar lower r) = true ∧
      fmtIsxdigit (digitChar lower r) = true ∧ digitValue (digitChar lower r) = r ∧
      digitChar lower r ≠ '-'.toUInt8 ∧ fmtIsspace (digitChar lower r) = false ∧
      (digitChar lower r = '0'.toUInt8 ↔ r = 0) := by
  rcases hbase with rfl | rfl | rfl <;> cases lower <;> revert r <;> decide

theorem lowValue_digitText : lowValue c.base (digitText c n).reverse = n := by
  have hmap : ((digitsOf c.base n).map (digitChar (c = .p ∨ c = .x))).map digitValue = digitsOf c.base n := by
    have hid : ∀ r ∈ digitsOf c.base n,(digitValue ∘ digitChar (c = .p ∨ c = .x)) r = id r := by
      intro r hr
      exact (digitChar_scans c.isBase _ (digitsOf_lt (by have := c.isBase.le; omega) hr)).2.2.2.1
    rw [List.map_map,List.map_congr_left hid,List.map_id]
  rw [lowValue,digitText,List.reverse_reverse,hmap,ofDigits_digitsOf]

theorem digitText_zero : digitText c 0 = ['0'.toUInt8] := by
  cases c <;> rfl

theorem digitText_cons (hn : n ≠ 0) : ∃ b rest,digitText c n = b :: rest ∧ b ≠ '0'.toUInt8 := by
  have hbase := c.isBase.le
  have hsome : Nat.digits c.base n ≠ [] := Nat.digits_ne_nil_iff_ne_zero.mpr hn
  have hlast := Nat.getLast_digit_ne_zero c.base hn
  have hlt := Nat.digits_lt_base (show 1 < c.base by omega) (List.getLast_mem hsome)
  refine ⟨digitChar (c = .p ∨ c = .x) ((Nat.digits c.base n).getLast hsome),
    (((Nat.digits c.base n).dropLast).map (digitChar (c = .p ∨ c = .x))).reverse,?_,?_⟩
  · have hsplit := List.dropLast_append_getLast hsome
    rw [digitText,digitsOf,if_neg hn]
    nth_rewrite 1 [← hsplit]
    simp
  · exact fun h => hlast ((digitChar_scans c.isBase _ hlt).2.2.2.2.2.2.mp h)

theorem length_digitText_lt {k : ℕ} (hk : 0 < k) : (digitText c n).length ≤ k ↔ n < c.base ^ k := by
  rw [digitText,List.length_reverse,List.length_map]
  exact length_digitsOf_le c.isBase hk

end

/-! ## The scan -/

section
variable {s : Sscanf} {b b₁ b₂ : UInt8} {p rest : List UInt8} {neg : Bool}

def signText (neg : Bool) : List UInt8 := if neg then ['-'.toUInt8] else []

theorem scanSign_at (neg : Bool) (p rest : List UInt8) (hwidth : s.checkWidth = false) (hb : b ≠ '-'.toUInt8) :
    scanSign (s.at p (signText neg ++ b :: rest)) =
      .ok (b,neg,s.at (b :: ((signText neg).reverse ++ p)) rest) := by
  unfold scanSign
  cases neg with
  | true =>
    rw [show signText true ++ b :: rest = '-'.toUInt8 :: b :: rest by rfl,consumeString_at hwidth]
    simp only [bind,Except.bind,if_true,consumeString_at hwidth]
    rfl
  | false =>
    rw [show signText false ++ b :: rest = b :: rest by rfl,consumeString_at hwidth]
    simp only [bind,Except.bind,if_neg hb]
    rfl

theorem scanMark_nonzero (hb : b ≠ '0'.toUInt8) : scanMark b s = .ok (b,s) := if_neg hb

/-- In decimal and in hexadecimal a zero that is not followed by `x` is a digit. -/
theorem scanMark_zero (hwidth : s.checkWidth = false) (hbase : s.base ≠ 0) (hbase' : s.base ≠ 8)
    (hb : b ≠ 'x'.toUInt8 ∧ b ≠ 'X'.toUInt8) :
    scanMark '0'.toUInt8 (s.at p (b :: rest)) = .ok ('0'.toUInt8,s.at p (b :: rest)) := by
  unfold scanMark
  have hmark : ¬(b = 'x'.toUInt8 ∨ b = 'X'.toUInt8) := by simp [hb]
  have hsame : (s.at (b :: p) rest).base = s.base := rfl
  simp only [if_true,consumeString_at hwidth,bind,Except.bind,if_neg hmark,hsame,if_neg hbase,ne_eq,hbase',
    not_false_eq_true,restoreString_at]
  rfl

/-- In octal, or where the base is to be found out, it is the mark of the base. -/
theorem scanMark_octal (p rest : List UInt8) (hwidth : s.checkWidth = false) (hbase : s.base = 0 ∨ s.base = 8)
    (hb : b ≠ 'x'.toUInt8 ∧ b ≠ 'X'.toUInt8) :
    scanMark '0'.toUInt8 (s.at p (b :: rest)) = .ok (b,({ s with base := 8 } : Sscanf).at (b :: p) rest) := by
  unfold scanMark
  have hmark : ¬(b = 'x'.toUInt8 ∨ b = 'X'.toUInt8) := by simp [hb]
  have hsame : (s.at (b :: p) rest).base = s.base := rfl
  have hstate : (if s.base = 0 then { s.at (b :: p) rest with base := 8 } else s.at (b :: p) rest) =
      ({ s with base := 8 } : Sscanf).at (b :: p) rest := by
    rcases hbase with hbase | hbase
    · rw [if_pos hbase]
      rfl
    · rw [hbase,if_neg (by decide),← hbase]
  simp only [if_true,consumeString_at hwidth,bind,Except.bind,if_neg hmark,hsame,hstate]
  rfl

theorem scanMark_hex (p rest : List UInt8) (hwidth : s.checkWidth = false) (hbase : s.base = 16) :
    scanMark '0'.toUInt8 (s.at p ('x'.toUInt8 :: b :: rest)) =
      .ok (b,s.at (b :: 'x'.toUInt8 :: p) rest) := by
  unfold scanMark
  have hsame : (s.at ('x'.toUInt8 :: p) (b :: rest)).base = 16 := hbase
  simp only [if_true,consumeString_at hwidth,bind,Except.bind,true_or,hsame,OfNat.ofNat_ne_zero,if_false]

/-- What is made of the digits, if the string ends with them. -/
def finishInt (g : Digits) (s : Sscanf) : Except Fault (Bool × Sscanf) :=
  if g.i = 0 then .ok (false,reportError s)
  else do
    let (n,overflow) ← accumulate (if s.modifier = .longlong then 64 else 32) s.base g.buf.reverse 0 1
    let n := if g.negative ∨ overflow then (2 ^ 64 - n) % 2 ^ 64 else n
    let s ← storeArg s (.int s.modifier (n % 2 ^ argBits s.modifier))
    return (true,reportConv s)

/-- The scan of a number that ends with the string. -/
theorem scanInt_at {s' : Sscanf} {p' : List UInt8} (ds : List UInt8) (hsign : scanSign (s.at [] (b :: rest)) = .ok (b₁,neg,s'))
    (hspace : fmtIsspace b = false) {s'' : Sscanf} {rest' : List UInt8}
    (hmark : scanMark b₁ s' = .ok (b₂,s''.at (b₂ :: p') rest')) (hdiscard : s''.discard = false)
    (hwidth : s''.checkWidth = false) (hds : ∀ c ∈ ds,c ≠ 0 ∧ baseDigit s''.base c = true)
    (hrest : b₂ :: rest' = ds ++ [0]) :
    scanInt (s.at [] (b :: rest)) =
      finishInt (ds.foldl collect ⟨[],0,neg⟩) (s''.at (ds.reverse ++ p') [0]) := by
  have hturns : ds.length < (s''.at (b₂ :: p') rest').str.rest.length + 1 := by
    have hlen := congrArg List.length hrest
    simp only [List.length_cons,List.length_append,List.length_nil] at hlen
    change ds.length < rest'.length + 1
    omega
  have hloop := collectLoop_at (g := ⟨[],0,neg⟩) (p := p') hwidth ds hds (.inl rfl) _ hturns hrest
  unfold scanInt
  simp only [skipSpace_at hspace,hsign,hmark,hloop,bind,Except.bind,List.cons_append,restoreString_at]
  rw [if_neg (show ¬(s''.at (ds.reverse ++ p') [0]).discard = true by simp [Sscanf.at,hdiscard])]
  simp only [and_true]
  unfold finishInt
  split_ifs with hnone <;> rfl

end

section
variable {m : Modifier} {c : Conversion} {s : Sscanf} {v : ℤ} {n : ℕ}

theorem numberMark_plain (hv : c = .p → 0 ≤ v) :
    numberMark (plainDirective m c) v =
      if c = .p then ['0'.toUInt8,'x'.toUInt8] else signText (decide (v < 0)) := by
  have hsign : (plainDirective m c).flags.sign = false ∧ (plainDirective m c).flags.blank = false := ⟨rfl,rfl⟩
  unfold numberMark
  by_cases hp : c = .p
  · subst hp
    have hflags : (plainDirective m .p).flags.altForm = true ∧ (plainDirective m .p).base = 16 ∧
      (plainDirective m .p).flags.lower = true := ⟨rfl,rfl,rfl⟩
    rw [if_pos hflags.1,if_pos hflags.2.1,if_pos hflags.2.2,if_pos rfl]
    decide
  · have halt : (plainDirective m c).flags.altForm = false := by simp [plainDirective,hp]
    by_cases hneg : v < 0 <;> simp [halt,hsign,hp,hneg,signText]

theorem plainScan_digit {b : UInt8} (hb : b ∈ digitText c n) :
    b ≠ 0 ∧ baseDigit (plainScan m c s).base b = true := by
  obtain ⟨r,hr,rfl⟩ := mem_digitText hb
  obtain ⟨hzero,hdigit,-⟩ := digitChar_scans c.isBase (c = .p ∨ c = .x) hr
  refine ⟨hzero,?_⟩
  cases c with
  | _ => exact hdigit

/-- The digits of the number are collected, unless an octal zero is taken for a mark. -/
theorem scanInt_plain (hv : c = .p → 0 ≤ v) (hzero : v = 0 → c ≠ .o ∧ c ≠ .i) :
    ∃ p,scanInt ((plainScan m c s).at [] (plainText m c v ++ [0])) =
      finishInt ((digitText c v.natAbs).foldl collect ⟨[],0,decide (v < 0)⟩) ((plainScan m c s).at p [0]) := by
  have hwidth : (plainScan m c s).checkWidth = false := rfl
  obtain ⟨b,rest,htext⟩ : ∃ b rest,digitText c v.natAbs = b :: rest := by
    by_cases hn : v.natAbs = 0
    · exact ⟨_,_,by rw [hn,digitText_zero]⟩
    · obtain ⟨b,rest,htext,-⟩ := digitText_cons (c := c) hn
      exact ⟨b,rest,htext⟩
  have hb : b ∈ digitText c v.natAbs := by simp [htext]
  obtain ⟨r,hr,hchar⟩ := mem_digitText hb
  obtain ⟨-,-,-,-,hsign,hspace,-⟩ := digitChar_scans c.isBase (c = .p ∨ c = .x) hr
  rw [← hchar] at hsign hspace
  rw [plainText,numberMark_plain hv]
  by_cases hp : c = .p
  · have hpos : decide (v < 0) = false := by simpa using hv hp
    have hmark := scanMark_hex (s := plainScan m c s) (b := b) ['0'.toUInt8] (rest ++ [0]) hwidth
      (by rw [hp]; rfl)
    rw [if_pos hp,htext,hpos]
    exact ⟨_,scanInt_at _ (scanSign_at false [] _ hwidth (by decide)) (by decide) hmark rfl hwidth
      (fun b' hb' => plainScan_digit (htext ▸ hb')) rfl⟩
  · rw [if_neg hp,htext]
    have hscan := scanSign_at (s := plainScan m c s) (decide (v < 0)) [] (rest ++ [0]) hwidth hsign
    obtain ⟨first,others,hfirst,hfirstspace⟩ : ∃ first others,
        signText (decide (v < 0)) ++ b :: (rest ++ [0]) = first :: others ∧ fmtIsspace first = false := by
      by_cases hneg : v < 0
      · exact ⟨'-'.toUInt8,b :: (rest ++ [0]),by simp [hneg,signText],by decide⟩
      · exact ⟨b,rest ++ [0],by simp [hneg,signText],hspace⟩
    rw [List.append_assoc,List.cons_append,hfirst]
    rw [hfirst] at hscan
    have hmark : scanMark b ((plainScan m c s).at (b :: ((signText (decide (v < 0))).reverse ++ [])) (rest ++ [0])) =
        .ok (b,(plainScan m c s).at (b :: ((signText (decide (v < 0))).reverse ++ [])) (rest ++ [0])) := by
      by_cases hb0 : b = '0'.toUInt8
      · have hn : v.natAbs = 0 := by
          by_contra hn
          obtain ⟨b',rest',htext',hb'⟩ := digitText_cons (c := c) hn
          rw [htext] at htext'
          exact hb' ((List.cons.inj htext').1 ▸ hb0)
        obtain ⟨ho,hi⟩ := hzero (by omega)
        have hrest : rest = [] := by
          rw [hn,digitText_zero] at htext
          exact (List.cons.inj htext).2.symm
        have hbase : (plainScan m c s).base ≠ 0 ∧ (plainScan m c s).base ≠ 8 := by
          cases c <;> simp_all [plainScan,Conversion.base]
        rw [hb0,hrest]
        exact scanMark_zero hwidth hbase.1 hbase.2 (by decide)
      · exact scanMark_nonzero hb0
    exact ⟨_,scanInt_at _ hscan hfirstspace hmark rfl hwidth (fun b' hb' => plainScan_digit (htext ▸ hb')) rfl⟩

theorem scanInt_octal_zero (hc : c = .o ∨ c = .i) :
    ∃ s',scanInt ((plainScan m c s).at [] (plainText m c 0 ++ [0])) = .ok (false,reportError s') ∧
      s'.nrConvs = s.nrConvs ∧ s'.stores = s.stores := by
  have hwidth : (plainScan m c s).checkWidth = false := rfl
  have hbase : (plainScan m c s).base = 0 ∨ (plainScan m c s).base = 8 := by
    rcases hc with rfl | rfl
    · exact .inr rfl
    · exact .inl rfl
  have htext : plainText m c 0 ++ [0] = '0'.toUInt8 :: [0] := by
    have hp : c ≠ .p := by rcases hc with rfl | rfl <;> decide
    rw [plainText,numberMark_plain (fun _ => le_rfl),if_neg hp,show (0 : ℤ).natAbs = 0 by rfl,digitText_zero]
    rfl
  have hsign := scanSign_at (s := plainScan m c s) (b := '0'.toUInt8) false [] [0] hwidth (by decide)
  have hmark := scanMark_octal (s := plainScan m c s) (b := 0) ['0'.toUInt8] [] hwidth hbase (by decide)
  rw [htext,scanInt_at [] hsign (by decide) hmark rfl rfl (by simp) rfl]
  exact ⟨_,rfl,rfl,rfl⟩

theorem finishInt_store {g : Digits} {N : ℕ} (base : ℕ) (t : Modifier) (hi : g.i ≠ 0) (hargs : s.args = 1)
    (hmod : s.modifier = t) (hbase : s.base = base)
    (hN : accumulate (loopBits t) base g.buf.reverse 0 1 = .ok (N,false)) :
    ∃ s',finishInt g s = .ok (true,reportConv s') ∧ s'.nrConvs = s.nrConvs ∧
      s'.stores = s.stores ++ [.int t ((if g.negative then (2 ^ 64 - N) % 2 ^ 64 else N) % 2 ^ argBits t)] := by
  subst hmod hbase
  unfold loopBits at hN
  unfold finishInt
  rw [if_neg hi,hN]
  simp only [bind,Except.bind,Bool.false_eq_true,or_false]
  unfold storeArg
  rw [hargs]
  exact ⟨_,rfl,rfl,rfl⟩

/-- What a scan of one number returns, and what it stores. -/
def plainResult (text : Ptr) (m : Modifier) (c : Conversion) : Except Fault (ℤ × List Stored) :=
  (fmtVsscanf text (plainFormat m c) 1).map fun r => (r.1,r.2.stores)

theorem plainResult_eq {text : Ptr} {goOn : Bool} {s' : Sscanf}
    (h : scanInt ((plainScan m c { str := ⟨[],text⟩, args := 1 }).at [] text) = .ok (goOn,s')) :
    plainResult text m c = .ok (s'.nrConvs,s'.stores) := by
  have hlen : (plainFormat m c).length = (lengthText m).length + 1 + 1 + 1 := by simp [plainFormat]
  have hloop : vsscanfLoop ((lengthText m).length + 1 + 1 + 1) (plainFormat m c)
      { str := ⟨[],text⟩, args := 1 } =
        if goOn then vsscanfLoop ((lengthText m).length + 1 + 1) [0] s' else .ok s' := by
    rw [vsscanfLoop]
    simp only [plainFormat,List.cons_append,fmtConsume,bind,Except.bind]
    rw [if_neg (by decide),if_neg (by decide),scanDirective_plain]
    dsimp only
    rw [show scanProduce (plainScan m c { str := ⟨[],text⟩, args := 1 }) =
      scanInt ((plainScan m c { str := ⟨[],text⟩, args := 1 }).at [] text) by rfl,h]
    rfl
  unfold plainResult fmtVsscanf
  rw [hlen,hloop]
  cases goOn with
  | true => rfl
  | false => rfl

/-- The number that the digits are taken for. -/
def scanned (c : Conversion) (bits n : ℕ) : ℕ :=
  match c with
  | .i => n % 10
  | .d | .u => n
  | .o | .p | .x | .X => n % 2 ^ bits

theorem accumulate_digitText {bits : ℕ} (hbits : bits = 32 ∨ bits = 64) (hn : c.base = 10 → n < 2 ^ bits) :
    accumulate bits (plainScan m c s).base (digitText c n).reverse 0 1 = .ok (scanned c bits n,false) := by
  have hxdigit : ∀ b ∈ (digitText c n).reverse,fmtIsxdigit b = true ∧ digitValue b < c.base := by
    intro b hb
    obtain ⟨r,hr,rfl⟩ := mem_digitText (List.mem_reverse.mp hb)
    obtain ⟨-,-,hx,hvalue,-⟩ := digitChar_scans c.isBase (c = .p ∨ c = .x) hr
    exact ⟨hx,by rw [hvalue]; exact hr⟩
  have hvalue := lowValue_digitText (c := c) (n := n)
  have hone : 1 = 2 ^ 0 % 2 ^ bits := by rcases hbits with rfl | rfl <;> decide
  have hdecimal (hbase : (plainScan m c s).base = 10) (hc : c.base = 10) :
      accumulate bits (plainScan m c s).base (digitText c n).reverse 0 1 = .ok (n,false) := by
    rw [hbase]
    rw [hc] at hvalue
    have h := accumulate_fits (n := 0) bits 10 0 (digitText c n).reverse
      (fun b hb => (hxdigit b hb).1) hone (by simpa [hvalue] using hn hc)
    simpa [hvalue] using h
  have hpower (j : ℕ) (hbase : (plainScan m c s).base = 2 ^ j) (hc : c.base = 2 ^ j) :
      accumulate bits (plainScan m c s).base (digitText c n).reverse 0 1 = .ok (n % 2 ^ bits,false) := by
    rw [hbase]
    rw [hc] at hvalue hxdigit
    have h := accumulate_two_pow (n := 0) bits j 0 (digitText c n).reverse hxdigit hone
      (by simp) (by positivity)
    simpa [hvalue] using h
  cases c with
  | d
  | u => exact hdecimal rfl rfl
  | o => exact hpower 3 rfl rfl
  | p
  | x
  | X => exact hpower 4 rfl rfl
  | i =>
    -- with the base at zero only the first power is not zero
    have hlast : lowValue 0 (digitText .i n).reverse = n % 10 := by
      obtain ⟨rs,hrs⟩ : ∃ rs,digitsOf 10 n = n % 10 :: rs := by
        rw [digitsOf_eq (by decide)]
        split_ifs
        · exact ⟨[],rfl⟩
        · exact ⟨_,rfl⟩
      have hr : n % 10 < 16 := by omega
      rw [digitText,List.reverse_reverse,show Conversion.i.base = 10 by rfl,hrs,List.map_cons,lowValue_cons,
        digitValue_digitChar hr,Nat.zero_mul,Nat.add_zero]
    have hsmall : n % 10 < 2 ^ bits := by rcases hbits with rfl | rfl <;> omega
    have h := accumulate_fits (n := 0) bits 0 0 (digitText .i n).reverse
      (fun b hb => (hxdigit b hb).1) hone (by simpa [hlast] using hsmall)
    rw [show (plainScan m .i s).base = 0 by rfl]
    simpa [hlast,scanned] using h

theorem reportConv_first {s' : Sscanf} (h : s'.nrConvs = 0) :
    (reportConv s').nrConvs = 1 ∧ (reportConv s').stores = s'.stores := by
  refine ⟨?_,rfl⟩
  simp [reportConv,h,EOF]

/-- What comes back from the text of a value: the number that the digits are taken for, with its
sign, or `-1` if there are too many of them. -/
theorem plainResult_text (hv : c = .p → 0 ≤ v) (hzero : v = 0 → c ≠ .o ∧ c ≠ .i)
    (hn : v.natAbs < 2 ^ 64) (hfit : c.base = 10 → v.natAbs < 2 ^ loopBits (scanType m c)) :
    plainResult (plainText m c v ++ [0]) m c = .ok (1,[.int (scanType m c)
      ((if c = .o ∧ 2 ^ 63 ≤ v.natAbs then 2 ^ 64 - 1
        else if v < 0 then (2 ^ 64 - scanned c (loopBits (scanType m c)) v.natAbs) % 2 ^ 64
        else scanned c (loopBits (scanType m c)) v.natAbs) % 2 ^ argBits (scanType m c))]) := by
  obtain ⟨p,hscan⟩ := scanInt_plain (m := m) (s := { str := ⟨[],plainText m c v ++ [0]⟩, args := 1 }) hv hzero
  have hpos : 0 < (digitText c v.natAbs).length := by
    by_cases hn : v.natAbs = 0
    · rw [hn,digitText_zero]
      decide
    · obtain ⟨b,rest,htext,-⟩ := digitText_cons (c := c) hn
      simp [htext]
  have hlong := length_digitText_lt (c := c) (n := v.natAbs) (k := 21) (by decide)
  have hmany : ¬(digitText c v.natAbs).length ≤ 21 ↔ c = .o ∧ 2 ^ 63 ≤ v.natAbs := by
    rw [hlong]
    cases c <;> simp [Conversion.base] <;> omega
  by_cases hfull : c = .o ∧ 2 ^ 63 ≤ v.natAbs
  · have hlen := hmany.mpr hfull
    rw [foldl_collect_full (g := ⟨[],0,decide (v < 0)⟩) _ (show 0 < FMT_MAX_NUM_SIZE by decide)
      (show FMT_MAX_NUM_SIZE ≤ 0 + _ by unfold FMT_MAX_NUM_SIZE; omega)] at hscan
    have hone : accumulate (loopBits (scanType m c)) 8 ['1'.toUInt8].reverse 0 1 = .ok (1,false) := by
      unfold loopBits
      split_ifs <;> rfl
    obtain ⟨s',hfinish,hconvs,hstores⟩ := finishInt_store
      (s := (plainScan m c { str := ⟨[],plainText m c v ++ [0]⟩, args := 1 }).at p [0])
      (g := ⟨['1'.toUInt8],0 + (digitText c v.natAbs).length,true⟩) 8 (scanType m c) (by simp only; omega) rfl rfl
      (by rw [hfull.1]; rfl) hone
    obtain ⟨hfirst,hsame⟩ := reportConv_first hconvs
    rw [plainResult_eq (hscan.trans hfinish),hfirst,hsame,hstores,if_pos hfull]
    rfl
  · have hlen : (digitText c v.natAbs).length ≤ 21 := by_contra fun h => hfull (hmany.mp h)
    rw [foldl_collect (g := ⟨[],0,decide (v < 0)⟩) _
      (show 0 + _ < FMT_MAX_NUM_SIZE by unfold FMT_MAX_NUM_SIZE; omega),List.nil_append] at hscan
    have hbits : loopBits (scanType m c) = 32 ∨ loopBits (scanType m c) = 64 := by
      unfold loopBits
      split_ifs <;> simp
    have hsum := accumulate_digitText (m := m) (s := { str := ⟨[],plainText m c v ++ [0]⟩, args := 1 }) hbits hfit
    obtain ⟨s',hfinish,hconvs,hstores⟩ := finishInt_store
      (s := (plainScan m c { str := ⟨[],plainText m c v ++ [0]⟩, args := 1 }).at p [0])
      (g := ⟨digitText c v.natAbs,0 + (digitText c v.natAbs).length,decide (v < 0)⟩)
      (plainScan m c { str := ⟨[],plainText m c v ++ [0]⟩, args := 1 }).base (scanType m c) (by simp only; omega) rfl
      rfl rfl hsum
    obtain ⟨hfirst,hsame⟩ := reportConv_first hconvs
    rw [plainResult_eq (hscan.trans hfinish),hfirst,hsame,hstores,if_neg hfull]
    simp only [decide_eq_true_eq]
    rfl

end

/-! ## Both ways -/

section
variable {m t : Modifier} {c : Conversion} {a : Arg} {n : ℕ}

/-- The values that are read back. -/
def Readable (m : Modifier) (c : Conversion) (a : Arg) : Prop :=
  let d := plainDirective m c
  match c with
  | .d | .u | .p | .x | .X => True
  | .i => intValue d a ≠ 0 ∧ (intValue d a).natAbs < 10
  | .o => intValue d a ≠ 0 ∧ (printedValue d a < 2 ^ 63 ∨ printedValue d a = 2 ^ 64 - 1)

theorem argBits_plain : argBits (plainDirective m c).modifier = argBits (scanType m c) := by
  unfold plainDirective
  dsimp only
  split_ifs with hsize
  · rw [hsize]
    rfl
  · rfl

theorem loopBits_plain : loopBits (plainDirective m c).modifier = loopBits (scanType m c) := by
  unfold plainDirective
  dsimp only
  split_ifs with hsize
  · rw [hsize]
    rfl
  · rfl

theorem intValue_emod (d : Directive) :
    intValue d a % 2 ^ argBits d.modifier = (argNat a % 2 ^ argBits d.modifier : ℕ) := by
  unfold intValue
  split_ifs
  · exact_mod_cast Int.bmod_emod (x := (argNat a : ℤ)) (m := 2 ^ argBits d.modifier)
  · simp

theorem printedValue_emod :
    printedValue (plainDirective m c) a % 2 ^ argBits (scanType m c) =
      (argNat a % 2 ^ argBits (scanType m c) : ℕ) := by
  rw [← argBits_plain,← intValue_emod]
  unfold printedValue
  dsimp only
  split_ifs with halt hdiff
  · have hunsigned : (plainDirective m c).flags.convSigned = false := by
      cases c <;> simp_all [plainDirective]
    have := (intValue_unsigned (a := a) hunsigned).1
    omega
  · rw [hdiff.1]
    simp only [argBits]
    omega
  · rfl

theorem bits_cases (t : Modifier) :
    argBits t = 64 ∧ loopBits t = 64 ∨ (argBits t = 8 ∨ argBits t = 16 ∨ argBits t = 32) ∧ loopBits t = 32 := by
  cases t <;> simp [argBits,loopBits]

/-- The size of what is printed: a decimal number fits in the bits of the loop, and a signed one in its type. -/
theorem printedValue_range :
    (printedValue (plainDirective m c) a).natAbs < 2 ^ 64 ∧
    (c.base = 10 → (printedValue (plainDirective m c) a).natAbs < 2 ^ loopBits (scanType m c)) ∧
    (c ≠ .d ∧ c ≠ .i → 0 ≤ printedValue (plainDirective m c) a) ∧
    (printedValue (plainDirective m c) a = 0 ↔ intValue (plainDirective m c) a = 0) := by
  have hloop := loopBits_cases (plainDirective m c).modifier
  rw [← loopBits_plain]
  by_cases hsigned : c = .d ∨ c = .i
  · have hconv : (plainDirective m c).flags.convSigned = true := by simpa [plainDirective] using hsigned
    have hbound := intValue_signed (a := a) hconv
    have hflags : (plainDirective m c).flags.altForm = false ∧ (plainDirective m c).base = 10 := by
      rcases hsigned with rfl | rfl <;> exact ⟨rfl,rfl⟩
    rw [printedValue_of_signed hflags.1 hflags.2]
    have hno : ¬(c ≠ .d ∧ c ≠ .i) := fun h => absurd hsigned (not_or.mpr h)
    rcases hloop with ⟨-,hb⟩ | ⟨-,hb⟩ <;> rw [hb] at hbound ⊢
    · exact ⟨by omega,fun _ => by omega,fun h => absurd h hno,Iff.rfl⟩
    · exact ⟨by omega,fun _ => by omega,fun h => absurd h hno,Iff.rfl⟩
  · have hconv : (plainDirective m c).flags.convSigned = false := by simpa [plainDirective] using hsigned
    have hbound := intValue_unsigned (a := a) hconv
    have hprinted : printedValue (plainDirective m c) a =
        if (plainDirective m c).modifier = .ptrdiff ∧ c.base ≠ 10 ∧ 2 ^ 31 ≤ intValue (plainDirective m c) a then
          intValue (plainDirective m c) a + (2 ^ 64 - 2 ^ 32)
        else intValue (plainDirective m c) a := by
      unfold printedValue
      dsimp only
      rw [if_neg (fun h => absurd h.2 (by omega))]
      rfl
    rw [hprinted]
    split_ifs with hdiff
    · have hb : loopBits (plainDirective m c).modifier = 32 := by
        rw [hdiff.1]
        rfl
      rw [hb] at hbound
      refine ⟨?_,fun h => absurd h hdiff.2.1,fun _ => ?_,?_⟩ <;> omega
    · rcases hloop with ⟨-,hb⟩ | ⟨-,hb⟩ <;> rw [hb] at hbound ⊢
      · exact ⟨by omega,fun _ => by omega,fun _ => hbound.1,Iff.rfl⟩
      · exact ⟨by omega,fun _ => by omega,fun _ => hbound.1,Iff.rfl⟩

/-- A number with the low bits of the value's magnitude becomes one with the low bits of the value. -/
theorem stored_eq {t : Modifier} {N : ℕ} {v : ℤ} (hN : N % 2 ^ argBits t = v.natAbs % 2 ^ argBits t)
    (hlt : N < 2 ^ 64) :
    ((((if v < 0 then (2 ^ 64 - N) % 2 ^ 64 else N) % 2 ^ argBits t : ℕ)) : ℤ) = v % 2 ^ argBits t := by
  rcases bits_cases t with ⟨hb,-⟩ | ⟨hb | hb | hb,-⟩ <;> rw [hb] at hN ⊢ <;> split_ifs <;> omega

theorem scanned_emod (hlt : n < 2 ^ 64) (hi : c ≠ .i) (hfit : c.base = 10 → n < 2 ^ loopBits t) :
    scanned c (loopBits t) n % 2 ^ argBits t = n % 2 ^ argBits t ∧ scanned c (loopBits t) n < 2 ^ 64 := by
  unfold scanned
  rcases bits_cases t with ⟨hb,hl⟩ | ⟨hb | hb | hb,hl⟩ <;> rw [hb,hl] at * <;> cases c <;> simp_all <;> omega

/-- Only a sign extension makes an octal number too long for a type of less than 64 bits. -/
theorem printedValue_long (hlong : 2 ^ 63 ≤ printedValue (plainDirective m .o) a) :
    argBits (scanType m .o) = 64 ∨
      argBits (scanType m .o) = 32 ∧ 2 ^ 64 - 2 ^ 32 ≤ printedValue (plainDirective m .o) a := by
  rw [← argBits_plain]
  have hbound := intValue_unsigned (d := plainDirective m .o) (a := a) rfl
  rcases loopBits_cases (plainDirective m .o).modifier with ⟨hm,-⟩ | ⟨-,hb⟩
  · rw [hm]
    exact .inl rfl
  · rw [hb] at hbound
    unfold printedValue at hlong ⊢
    dsimp only at hlong ⊢
    rw [if_neg (fun h => absurd h.2 (by omega))] at hlong ⊢
    split_ifs at hlong ⊢ with hdiff
    · rw [hdiff.1]
      exact .inr ⟨rfl,by omega⟩
    · omega

theorem intValue_type (hsigned : c = .d ∨ c = .i) :
    (intValue (plainDirective m c) a).natAbs * 2 ≤ 2 ^ argBits (scanType m c) := by
  have hconv : (plainDirective m c).flags.convSigned = true := by simpa [plainDirective] using hsigned
  unfold intValue
  rw [if_pos hconv,argBits_plain,Int.bmod_def]
  rcases bits_cases (scanType m c) with ⟨hb,-⟩ | ⟨hb | hb | hb,-⟩ <;> rw [hb] <;> split_ifs <;> omega

/-- The last digit alone has the low bits of a number only if it is the number. -/
theorem last_digit_iff {v : ℤ} (hsome : v ≠ 0) (htype : v.natAbs * 2 ≤ 2 ^ argBits t) :
    (((if v < 0 then (2 ^ 64 - v.natAbs % 10) % 2 ^ 64 else v.natAbs % 10) % 2 ^ argBits t : ℕ) : ℤ) =
      v % 2 ^ argBits t ↔ v.natAbs < 10 := by
  obtain ⟨n,rfl | rfl⟩ := v.eq_nat_or_neg
  · rw [if_neg (by omega)]
    simp only [Int.natAbs_natCast] at *
    have hlt : n < 2 ^ argBits t := by omega
    have hten : 10 ≤ 2 ^ argBits t := by cases t <;> decide
    have hmod : (n : ℤ) % 2 ^ argBits t = n := Int.emod_eq_of_lt (by omega) (by exact_mod_cast hlt)
    rw [Nat.mod_eq_of_lt (by omega : n % 10 < 2 ^ argBits t),hmod]
    omega
  · rw [if_pos (by omega)]
    simp only [Int.natAbs_neg,Int.natAbs_natCast] at *
    have hdigit : n % 10 < 10 ∧ (n < 10 → n % 10 = n) := by omega
    have hpos : 0 < n := by omega
    have hmod : -(n : ℤ) % 2 ^ argBits t = 2 ^ argBits t - n := by
      rcases bits_cases t with ⟨hb,-⟩ | ⟨hb | hb | hb,-⟩ <;> rw [hb] at htype ⊢ <;> omega
    generalize n % 10 = r at hdigit ⊢
    rw [hmod]
    rcases bits_cases t with ⟨hb,-⟩ | ⟨hb | hb | hb,-⟩ <;> rw [hb] at htype ⊢ <;> omega

/-- Printed and scanned again, a number is the same exactly if it is `Readable`. -/
theorem plainResult_iff (hfits : Fits (plainDirective m c).modifier a) :
    plainResult (plainText m c (printedValue (plainDirective m c) a) ++ [0]) m c =
        .ok (1,[.int (scanType m c) (argNat a % 2 ^ argBits (scanType m c))]) ↔ Readable m c a := by
  obtain ⟨hlt,hfit,hpos,hzero⟩ := printedValue_range (m := m) (c := c) (a := a)
  have hmod := printedValue_emod (m := m) (c := c) (a := a)
  by_cases hnone : printedValue (plainDirective m c) a = 0 ∧ (c = .o ∨ c = .i)
  · -- the text is a single zero, and the scan reports an error
    obtain ⟨s',hscan,hconvs,hstores⟩ := scanInt_octal_zero (m := m)
      (s := { str := ⟨[],plainText m c 0 ++ [0]⟩, args := 1 }) hnone.2
    have hresult := plainResult_eq hscan
    have hempty : (reportError s').stores = [] := by
      unfold reportError
      split_ifs <;> exact hstores
    rw [hnone.1,hresult,hempty]
    have hvalue := hzero.mp hnone.1
    constructor
    · intro h
      simp at h
    · intro h
      rcases hnone.2 with rfl | rfl <;> exact absurd hvalue h.1
  · have hresult := plainResult_text (m := m) (c := c) (v := printedValue (plainDirective m c) a)
      (fun h => hpos (by simp [h])) (fun h => not_or.mp fun h' => hnone ⟨h,h'⟩) hlt hfit
    rw [hresult]
    have hstored (x y : ℕ) : (.ok (1,[.int (scanType m c) x]) : Except Fault (ℤ × List Stored)) =
        .ok (1,[.int (scanType m c) y]) ↔ x = y := by simp
    rw [hstored]
    have hsame (hmany : ¬(c = .o ∧ 2 ^ 63 ≤ (printedValue (plainDirective m c) a).natAbs)) (hi : c ≠ .i) :
        (if c = .o ∧ 2 ^ 63 ≤ (printedValue (plainDirective m c) a).natAbs then 2 ^ 64 - 1
          else if printedValue (plainDirective m c) a < 0 then
            (2 ^ 64 - scanned c (loopBits (scanType m c)) (printedValue (plainDirective m c) a).natAbs) % 2 ^ 64
          else scanned c (loopBits (scanType m c)) (printedValue (plainDirective m c) a).natAbs) %
            2 ^ argBits (scanType m c) = argNat a % 2 ^ argBits (scanType m c) := by
      obtain ⟨hN,hN'⟩ := scanned_emod (t := scanType m c) hlt hi hfit
      rw [if_neg hmany]
      exact_mod_cast (stored_eq hN hN').trans hmod
    cases c with
    | d
    | u
    | p
    | x
    | X => exact ⟨fun _ => trivial,fun _ => hsame (by simp) (by simp)⟩
    | o =>
      have hpos := hpos (by decide)
      have hsome : intValue (plainDirective m .o) a ≠ 0 := fun h => hnone ⟨hzero.mpr h,.inl rfl⟩
      by_cases hmany : 2 ^ 63 ≤ (printedValue (plainDirective m .o) a).natAbs
      · -- too many digits: what is stored has all its bits set
        have hlong := printedValue_long (m := m) (a := a) (by omega)
        have hread : Readable m .o a ↔ printedValue (plainDirective m .o) a = 2 ^ 64 - 1 :=
          ⟨fun h => h.2.resolve_left (by omega),fun h => ⟨hsome,.inr h⟩⟩
        rw [hread,if_pos ⟨rfl,hmany⟩]
        rcases hlong with hb | ⟨hb,hlong⟩ <;> rw [hb] at hmod ⊢ <;> omega
      · have hread : Readable m .o a := ⟨hsome,.inl (by omega)⟩
        exact ⟨fun _ => hread,fun _ => hsame (fun h => hmany h.2) (by decide)⟩
    | i =>
      have hsome : intValue (plainDirective m .i) a ≠ 0 := fun h => hnone ⟨hzero.mpr h,.inr rfl⟩
      have htype := intValue_type (m := m) (a := a) (.inr rfl : Conversion.i = .d ∨ Conversion.i = .i)
      rw [if_neg (by simp)]
      rw [printedValue_of_signed rfl rfl] at hmod ⊢
      have hread : Readable m .i a ↔ (intValue (plainDirective m .i) a).natAbs < 10 :=
        ⟨fun h => h.2,fun h => ⟨hsome,h⟩⟩
      rw [hread]
      rw [← last_digit_iff hsome htype,hmod]
      exact Int.natCast_inj.symm

end

end X1.Fmt
