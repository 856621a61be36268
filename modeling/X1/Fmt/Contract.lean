import X1.Fmt.RoundTrip
import X1.Fmt.ScanSafe

/-! # What the callers of fmt.c rely on

A text that does not depend on the buffer, numbers that mean what they were, and input
that reads what output has written.
-/
namespace X1.Fmt
open X1.Word X1.CString X1.Checked

theorem put_take_nul (m : Bytes) (addr : ℕ) (text : List UInt8) (k a : ℕ) :
    put m addr (text.take k ++ [0]) a =
      if addr ≤ a ∧ a < addr + min text.length k then text.getD (a - addr) 0
      else if a = addr + min text.length k then 0
      else m a := by
  have hlen : (text.take k).length = min text.length k := by rw [List.length_take,Nat.min_comm]
  rw [← put_append,put_singleton,hlen]
  unfold store
  by_cases hend : a = addr + min text.length k
  · rw [hend,Function.update_self,if_neg (by omega),if_pos rfl]
  · rw [Function.update_of_ne hend,if_neg hend]
    unfold put
    rw [hlen]
    split_ifs with hin
    · have hk : a - addr < k := by omega
      simp [List.getD_eq_getElem?_getD,hk]
    · rfl

/-- Whatever the size of the buffer, `fmt_vsnprintf` returns the length of the text that the format
and its arguments stand for, if it is an `int`, and `%n` counts its characters. The buffer gets the text up to
its size less one, and a NUL, and no other byte is written. -/
theorem fmtVsnprintf_prints (mem : Bytes) (str size : ℕ) (format : Ptr) (args : List Arg) (text : List UInt8)
    (rest : List Arg) (counts : List (Modifier × ℤ))
    (htext : formatText format.length format args 0 = .ok (text,rest,counts)) (hlen : text.length < 2 ^ 31)
    (hfit : str + text.length < 2 ^ 32) (hnull : str ≠ 0 ∨ size = 0)
    (hsize : size = FMT_NOLIMIT ∨ str + size ≤ 2 ^ 32) :
    ∃ s,fmtVsnprintf mem str size format args = .ok (text.length,s) ∧ s.counts = counts ∧
      ∀ addr,s.mem addr =
        if size = 0 then mem addr
        else if str ≤ addr ∧ addr < str + min text.length (kept size text.length) then text.getD (addr - str) 0
        else if addr = str + min text.length (kept size text.length) then 0
        else mem addr := by
  obtain ⟨s,hrun,hcounts,hmem⟩ := fmtVsnprintf_of_text mem htext hlen hfit hnull hsize
  refine ⟨s,hrun,hcounts,fun addr => ?_⟩
  rw [hmem]
  by_cases hnone : size = 0
  · rw [if_pos hnone,if_pos hnone]
  · rw [if_neg hnone,if_neg hnone]
    exact put_take_nul ..

/-- `snprintf(buf, 4, "%d!", -12)`, and `snprintf(buf, 4, "%300d%hhn", 5, &n)` -/
theorem fmtVsnprintf_prints_cut :
    (∃ s,fmtVsnprintf (fun _ => 7) 100 4 ('%'.toUInt8 :: 'd'.toUInt8 :: '!'.toUInt8 :: [0]) [.word (-12)] =
      .ok (4,s) ∧ s.mem 102 = '2'.toUInt8 ∧ s.mem 103 = 0 ∧ s.mem 104 = 7) ∧
    ∃ s,fmtVsnprintf (fun _ => 7) 100 4 ("%300d%hhn".toList.map Char.toUInt8 ++ [0]) [.word 5,.ref] = .ok (300,s) ∧
      s.counts = [(.char,44)] := by
  obtain ⟨s,hs,-,hmem⟩ := fmtVsnprintf_prints (fun _ => 7) 100 4
    ('%'.toUInt8 :: 'd'.toUInt8 :: '!'.toUInt8 :: [0]) [.word (-12)]
    ['-'.toUInt8,'1'.toUInt8,'2'.toUInt8,'!'.toUInt8] [] [] rfl (by decide) (by decide) (by decide) (by decide)
  have hlen : (List.replicate 299 ' '.toUInt8 ++ ['5'.toUInt8]).length = 300 := by
    rw [List.length_append,List.length_replicate,List.length_singleton]
  obtain ⟨s',hs',hcounts,-⟩ := fmtVsnprintf_prints (fun _ => 7) 100 4
    ("%300d%hhn".toList.map Char.toUInt8 ++ [0]) [.word 5,.ref] (List.replicate 299 ' '.toUInt8 ++ ['5'.toUInt8]) []
    [(.char,44)] (by decide +kernel) (by omega) (by omega) (by decide) (by decide)
  rw [hlen] at hs'
  exact ⟨⟨s,hs,hmem 102,hmem 103,hmem 104⟩,s',hs',hcounts⟩

theorem length_layout (flags : Flags) (width : ℤ) (mark number : List UInt8) :
    ((layout flags width mark number).length : ℤ) = max width (mark.length + number.length) := by
  unfold layout
  dsimp only
  split_ifs <;> simp only [List.length_append,List.length_replicate] <;> omega

theorem readDigits_numeral (d : Directive) (n : ℕ) (hbase : IsBase d.base) :
    readDigits d.base (numeral d n) = n := by
  unfold numeral
  rw [readDigits_zeros]
  split_ifs with hnone
  · exact hnone.1.symm
  · rw [readDigits_map _ (fun r hr => ?_),ofDigits_digitsOf]
    have hlt := digitsOf_lt (show 2 ≤ d.base by have := hbase.le; omega) hr
    have := hbase.le
    omega

theorem printedValue_eq_iff (d : Directive) (a : Arg) :
    printedValue d a = intValue d a ↔
      ¬(d.flags.altForm = true ∧ intValue d a < 0) ∧
        ¬(d.modifier = .ptrdiff ∧ d.base ≠ 10 ∧ 2 ^ 31 ≤ intValue d a) := by
  have hpos : (0 : ℤ) < 2 ^ loopBits d.modifier := by positivity
  unfold printedValue
  dsimp only
  split_ifs with halt hdiff
  · exact ⟨fun h => by omega,fun h => absurd halt h.1⟩
  · exact ⟨fun h => by omega,fun h => absurd hdiff h.2⟩
  · exact ⟨fun _ => ⟨halt,hdiff⟩,fun _ => rfl⟩

/-- The conversion of an integer prints a value in its base, with its sign or mark, in a field of the width that
the format asks for, unless a precision that is about as great as an `int` can be makes the width overflow. It is
the value of the argument unless `#` hides its sign, or `z` or `t` has extended a sign that is none. -/
theorem produceInt_prints (s : Sprintf) (format rest : Ptr) (args args' : List Arg) (d : Directive) (a : Arg)
    (hformat : 0 ∈ format) (hd : consumeDirective format args = .ok (d,a :: args',rest))
    (hint : d.specifier = .int) (hfits : Fits d.modifier a) :
    (-2 ^ 31 ≤ lowestWidth d (printedValue d a) →
      produceInt d { s with args := a :: args' } =
        .ok { produceChars (numberText d (printedValue d a)) s with args := args' }) ∧
      (lowestWidth d (printedValue d a) < -2 ^ 31 →
        produceInt d { s with args := a :: args' } = .error .overflow) ∧
      (d.precision + 5 ≤ 2 ^ 31 → -2 ^ 31 ≤ lowestWidth d (printedValue d a)) ∧
      ((numberText d (printedValue d a)).length : ℤ) =
        max d.width ((numberMark d (printedValue d a)).length + (numeral d (printedValue d a).natAbs).length) ∧
      readDigits d.base (numeral d (printedValue d a).natAbs) = (printedValue d a).natAbs ∧
      (printedValue d a = intValue d a ↔
        ¬(d.flags.altForm = true ∧ intValue d a < 0) ∧
          ¬(d.modifier = .ptrdiff ∧ d.base ≠ 10 ∧ 2 ^ 31 ≤ intValue d a)) := by
  have hsafe : Safe Benign (consumeDirective format args) _ := consumeDirective_safe hformat
  rw [hd] at hsafe
  have hsane : Sane d := hsafe.1
  have hbase := hsane.base hint
  have htext : intText d (a :: args') =
      checkInt (lowestWidth d (printedValue d a)) >>= fun _ => .ok (numberText d (printedValue d a),args') :=
    intText_eq hbase hsane.signed hsane.ptr hsane.width hfits
  refine ⟨fun hlow => ?_,fun hlow => ?_,lowestWidth_ge hbase hsane.width.1,length_layout ..,readDigits_numeral d _ hbase,
    printedValue_eq_iff d a⟩
  · rw [checkInt_of_le hlow (lowestWidth_lt hsane.width.2 _),ok_bind] at htext
    rw [produceInt_eq,htext]
    simp only [Except.map]
    rw [produceChars_with _ s (a :: args') s.counts]
    simp only [produceChars_counts]
  · rw [checkInt_of_lt hlow] at htext
    rw [produceInt_eq,htext]
    rfl

/-- `"%zx"` with a size of `2 ^ 31`, and `"%.2147483647d"` -/
theorem produceInt_prints_size :
    (readDigits 16 (numeral { modifier := .ptrdiff, flags := { lower := true }, specifier := .int, base := 16 }
      (2 ^ 64 - 2 ^ 31)) = 2 ^ 64 - 2 ^ 31 ∧
      printedValue { modifier := .ptrdiff, flags := { lower := true }, specifier := .int, base := 16 }
        (.word 0x80000000) ≠ 2 ^ 31) ∧
    produceInt { precision := 2147483647, flags := { convSigned := true }, specifier := .int, base := 10 }
      (sprintfInit (fun _ => 0) 1 0 [.word 7]) = .error .overflow := by
  have h := produceInt_prints (sprintfInit (fun _ => 0) 1 0 []) ('z'.toUInt8 :: 'x'.toUInt8 :: [0]) [0]
    [.word 0x80000000] [] { modifier := .ptrdiff, flags := { lower := true }, specifier := .int, base := 16 }
    (.word 0x80000000) (by decide) rfl rfl trivial
  have h' := produceInt_prints (sprintfInit (fun _ => 0) 1 0 []) (".2147483647d".toList.map Char.toUInt8 ++ [0]) [0]
    [.word 7] [] { precision := 2147483647, flags := { convSigned := true }, specifier := .int, base := 10 } (.word 7)
    (by decide) rfl rfl trivial
  exact ⟨⟨h.2.2.2.2.1,fun heq => (h.2.2.2.2.2.mp heq).2 (by decide)⟩,h'.2.1 (lowestWidth_overflows (by decide))⟩

/-- The characters at an address, with the NUL after them. -/
def stringAt (m : Bytes) (addr length : ℕ) : Ptr := (List.range (length + 1)).map fun i => m (addr + i)

theorem stringAt_put (m : Bytes) (addr : ℕ) (text : List UInt8) :
    stringAt (put m addr (text ++ [0])) addr text.length = text ++ [0] := by
  refine List.ext_getElem (by simp [stringAt]) fun i hi hi' => ?_
  have hlt : i < text.length + 1 := by simpa [stringAt] using hi
  simp only [stringAt,List.getElem_map,List.getElem_range]
  unfold put
  rw [if_pos (by simp; omega),Nat.add_sub_cancel_left,List.getD_eq_getElem _ _ hi']

theorem length_plainText (m : Modifier) (c : Conversion) (v : ℤ) (hv : c = .p → 0 ≤ v) (hlt : v.natAbs < 2 ^ 64) :
    (plainText m c v).length ≤ 24 := by
  have hdigits : (digitText c v.natAbs).length ≤ 22 := by
    rw [length_digitText_lt (by decide)]
    cases c <;> exact lt_trans hlt (by decide)
  have hmark : (numberMark (plainDirective m c) v).length ≤ 2 := by
    rw [numberMark_plain hv]
    unfold signText
    split_ifs <;> decide
  rw [plainText,List.length_append]
  omega

/-- A number that `fmt_vsprintf` writes with a conversion and `fmt_vsscanf` reads with the same conversion comes
back as it was exactly if it is `Readable`: always with `%d`, `%u`, `%x`, `%X` and `%p`, with `%o` unless it
is zero or, but for the greatest number, has more than 21 digits, and with `%i` only if it is one digit other
than zero. -/
theorem sscanf_sprintf (mem : Bytes) (str : ℕ) (m : Modifier) (c : Conversion) (a : Arg)
    (hfits : Fits (plainDirective m c).modifier a) (hnull : str ≠ 0) (hroom : str + 24 < 2 ^ 32) :
    ∃ length s,fmtVsprintf mem str (plainFormat m c) [a] = .ok (length,s) ∧
      (plainResult (stringAt s.mem str length) m c =
        .ok (1,[.int (scanType m c) (argNat a % 2 ^ argBits (scanType m c))]) ↔ Readable m c a) := by
  obtain ⟨hlt,-,hpos,-⟩ := printedValue_range (m := m) (c := c) (a := a)
  have hv : c = .p → 0 ≤ printedValue (plainDirective m c) a := fun h => hpos (by simp [h])
  have hlen := length_plainText m c (printedValue (plainDirective m c) a) hv hlt
  have htext := formatText_plain hfits
  obtain ⟨s,hrun,-,hmem⟩ : ∃ s,fmtVsnprintf mem str FMT_NOLIMIT (plainFormat m c) [a] = .ok (_,s) ∧ _ ∧ _ :=
    fmtVsnprintf_of_text mem htext (by dsimp only; omega) (by dsimp only; omega) (.inl hnull) (.inl rfl)
  refine ⟨_,s,hrun,?_⟩
  have hall : (plainText m c (printedValue (plainDirective m c) a)).take
      (kept FMT_NOLIMIT (plainText m c (printedValue (plainDirective m c) a)).length) =
        plainText m c (printedValue (plainDirective m c) a) := List.take_of_length_le (by simp [kept])
  rw [hmem,if_neg (by decide),hall,stringAt_put]
  exact plainResult_iff hfits

/-- `-5` with `"%ld"`, and `12` with `"%i"` -/
theorem sscanf_sprintf_samples :
    (∃ length s,fmtVsprintf (fun _ => 0) 100 (plainFormat .long .d) [.word (-5)] = .ok (length,s) ∧
      plainResult (stringAt s.mem 100 length) .long .d = .ok (1,[.int .long (2 ^ 32 - 5)])) ∧
    ∃ length s,fmtVsprintf (fun _ => 0) 100 (plainFormat .none .i) [.word 12] = .ok (length,s) ∧
      plainResult (stringAt s.mem 100 length) .none .i ≠ .ok (1,[.int .none 12]) := by
  obtain ⟨l₁,s₁,h₁,hiff₁⟩ := sscanf_sprintf (fun _ => 0) 100 .long .d (.word (-5)) trivial (by decide) (by decide)
  obtain ⟨l₂,s₂,h₂,hiff₂⟩ := sscanf_sprintf (fun _ => 0) 100 .none .i (.word 12) trivial (by decide) (by decide)
  refine ⟨⟨l₁,s₁,h₁,hiff₁.mpr trivial⟩,l₂,s₂,h₂,fun h => ?_⟩
  exact absurd (hiff₂.mp h).2 (by decide)

end X1.Fmt
