import X1.Shell.Args

/-! # The formats of lib/shell.c

What is printed for a format with one string, and, from the format that copies a line, what
the arguments of a line are.
-/
namespace X1.Shell
open X1.Word X1.CString X1.Fmt

/-! ## Formats -/

section
variable {a b f text rest : List UInt8} {args : List Arg} {turns done : ℕ} {d : Directive}

/-- The characters of a format that stand for themselves. -/
def Literal (a : List UInt8) : Prop := ∀ c ∈ a,c ≠ 0 ∧ c ≠ '%'.toUInt8

instance : Decidable (Literal a) := inferInstanceAs (Decidable (∀ c ∈ a,c ≠ 0 ∧ c ≠ '%'.toUInt8))

theorem formatText_literal (done : ℕ) (ha : Literal a) :
    formatText (a.length + turns) (a ++ f) args done =
      (formatText turns f args (done + a.length)).map fun r => (a ++ r.1,r.2) := by
  induction a generalizing done with
  | nil =>
    simp only [List.length_nil,Nat.zero_add,Nat.add_zero,List.nil_append]
    cases formatText turns f args done <;> rfl
  | cons c a ih =>
    have hc := ha c (by simp)
    have hrest := ih (done + 1) fun d hd => ha d (by simp [hd])
    rw [List.length_cons,Nat.add_right_comm,List.cons_append,formatText]
    simp only [fmtConsume,bind,Except.bind]
    rw [if_neg hc.1,if_pos hc.2,hrest,Nat.add_assoc done,Nat.add_comm 1]
    cases formatText turns f args (done + (a.length + 1)) <;> rfl

/-- The length of a string is one that an `int` has, or the counter overflows. -/
theorem strLength_eq {len : ℕ} (hlen : len < 2 ^ 31) (htext : 0 ∉ text) :
    strLength (-1) len (text ++ 0 :: rest) = checkLength (len + text.length) := by
  induction text generalizing len with
  | nil => exact (checkLength_of_lt hlen).symm
  | cons c text ih =>
    have hc : c ≠ 0 := fun h => htext (by simp [h])
    rw [List.cons_append,strLength,if_neg hc,if_neg (by omega)]
    by_cases hnext : len + 1 < 2 ^ 31
    · rw [if_pos hnext,ih hnext fun h => htext (by simp [h]),List.length_cons,Nat.add_assoc,Nat.add_comm 1]
    · have hover : ¬len + (c :: text).length < 2 ^ 31 := by
        rw [List.length_cons]
        omega
      rw [if_neg hnext,checkLength_of_not_lt hover]

/-- A string in a field of some width. -/
def field (d : Directive) (text : List UInt8) : List UInt8 :=
  let room := List.replicate (d.width - text.length).toNat ' '.toUInt8
  if d.flags.leftJustify then text ++ room else room ++ text

theorem directiveText_str (htext : 0 ∉ text) (hstr : d.specifier = .str) (hprecision : d.precision = -1) :
    directiveText d (.str (some (text ++ 0 :: rest)) :: args) done =
      checkLength text.length >>= fun _ => .ok (field d text,args,[]) := by
  unfold directiveText strText
  rw [hstr]
  simp only [vaStr,Option.getD_some,hprecision,ok_bind,strLength_eq (Nat.two_pow_pos 31) htext,Nat.zero_add]
  by_cases hlen : text.length < 2 ^ 31
  · rw [checkLength_of_lt hlen,ok_bind,ok_bind,List.take_left]
    rfl
  · rw [checkLength_of_not_lt hlen]
    rfl

theorem formatText_str (spec rest : List UInt8) (ha : Literal a) (hb : Literal b) (htext : 0 ∉ text)
    (hspec : ∀ s args,consumeDirective (spec ++ s) args = .ok (d,args,s)) (hstr : d.specifier = .str)
    (hprecision : d.precision = -1) :
    formatText (a ++ '%'.toUInt8 :: spec ++ b ++ [0]).length (a ++ '%'.toUInt8 :: spec ++ b ++ [0])
      [.str (some (text ++ 0 :: rest))] 0 =
        checkLength text.length >>= fun _ => .ok (a ++ field d text ++ b,[],[]) := by
  have hlen : (a ++ '%'.toUInt8 :: spec ++ b ++ [0]).length = a.length + (b.length + (spec.length + 1) + 1) := by
    simp
    omega
  have hsplit : a ++ '%'.toUInt8 :: spec ++ b ++ [0] = a ++ '%'.toUInt8 :: (spec ++ (b ++ [0])) := by simp
  rw [hlen,hsplit,formatText_literal 0 ha,formatText]
  simp only [fmtConsume,ok_bind]
  rw [if_neg (by decide),if_neg (by decide),hspec]
  simp only [ok_bind,directiveText_str htext hstr hprecision]
  cases checkLength text.length with
  | error fault => rfl
  | ok n =>
    simp only [ok_bind]
    rw [formatText_literal _ hb,formatText]
    simp [fmtConsume,bind,Except.bind,pure,Except.pure,Except.map]

/-- What is printed is cut to the size of a buffer, and at a NUL. -/
theorem printf_of_text {format : String} {r : List Arg × List (Modifier × ℤ)}
    (h : formatText (cstring format ++ [0]).length (cstring format ++ [0]) args 0 = .ok (text,r))
    (hlen : text.length < PRINTF_BUFFER_SIZE) (htext : 0 ∉ text) : printf format args = .ok text := by
  have hall : ∀ c ∈ text,decide (c ≠ 0) = true := fun c hc => decide_eq_true fun hzero => htext (hzero ▸ hc)
  have hsize : PRINTF_BUFFER_SIZE = 1024 := rfl
  rw [printf,consoleText,h,ok_bind]
  simp only [checkLength_of_lt (by omega : text.length < 2 ^ 31),ok_bind]
  rw [List.take_of_length_le (by omega),List.takeWhile_eq_self_iff.mpr hall]
  rfl

theorem field_plain : field { specifier := .str } text = text := by
  simp [field]

theorem formatText_plain_str (rest : List UInt8) (ha : Literal a) (hb : Literal b) (htext : 0 ∉ text) :
    formatText (a ++ cstring "%s" ++ b ++ [0]).length (a ++ cstring "%s" ++ b ++ [0])
      [.str (some (text ++ 0 :: rest))] 0 = checkLength text.length >>= fun _ => .ok (a ++ text ++ b,[],[]) := by
  have h := formatText_str ['s'.toUInt8] rest ha hb htext (fun s args => rfl) rfl rfl
  rw [field_plain] at h
  exact h

theorem printf_str {format : String} (hformat : cstring format = a ++ cstring "%s" ++ b) (ha : Literal a) (hb : Literal b)
    (htext : 0 ∉ text) (hlen : a.length + text.length + b.length < PRINTF_BUFFER_SIZE) :
    printf format [.str (some (text ++ 0 :: rest))] = .ok (a ++ text ++ b) := by
  have hsize : PRINTF_BUFFER_SIZE = 1024 := rfl
  refine printf_of_text (r := ([],[])) ?_ (by simp; omega) ?_
  · rw [hformat,formatText_plain_str rest ha hb htext,checkLength_of_lt (by omega)]
    rfl
  · intro hzero
    rcases List.mem_append.mp hzero with hzero | hzero
    · rcases List.mem_append.mp hzero with hzero | hzero
      · exact (ha 0 hzero).1 rfl
      · exact htext hzero
    · exact (hb 0 hzero).1 rfl

theorem snprintf_str {size : ℕ} (htext : 0 ∉ text) (hlen : text.length < size) (hsize : size < 2 ^ 31) :
    snprintf size "%s" [.str (some (text ++ 0 :: rest))] = .ok (text ++ [0]) := by
  have h := formatText_plain_str (a := []) (b := []) rest (by decide) (by decide) htext
  have hcheck : checkLength text.length = .ok text.length := checkLength_of_lt (by omega)
  rw [hcheck,ok_bind] at h
  simp only [List.nil_append,List.append_nil] at h
  unfold snprintf
  dsimp only
  rw [h,ok_bind]
  simp only [hcheck,ok_bind]
  rw [List.take_of_length_le (by omega)]
  rfl

end

/-! ## The arguments of a line -/

theorem Line.Holds.processArgs {guard : Bytes} {line : Line} {text : List UInt8} (h : Line.Holds guard line text) :
    shellProcessArgs line =
      if (words text).length < SHELL_MAX_ARGS then ([],.ok (words text))
      else ([printf "shell: too many arguments\n" []],.error .inval) := by
  obtain ⟨rest,hrest⟩ := h.chars_eq (Nat.zero_le _)
  obtain ⟨first,others,hsplit⟩ : ∃ first others,text.splitOn SHELL_SEPARATOR = first :: others :=
    List.exists_cons_of_ne_nil (List.splitOnP_ne_nil _ _)
  have hahead : ahead SHELL_SEPARATOR first others = words text := by rw [words,hsplit]; rfl
  have hloop := argsLoop_eq [] 0 0 SHELL_SEPARATOR h.nonzero (by decide) hsplit
  rw [hahead,Nat.zero_add] at hloop
  unfold shellProcessArgs
  rw [hrest,List.drop_zero,snprintf_str h.nonzero h.room (by decide)]
  dsimp only
  by_cases hfew : (words text).length < SHELL_MAX_ARGS
  · rw [if_pos hfew] at hloop ⊢
    obtain ⟨tmp,argv,hrun,hs⟩ := hloop
    rw [hrun]
    have hargs := hs.args
    rw [hahead] at hargs
    simp only [Nat.sub_zero] at hargs
    simp only [hargs]
  · rw [if_neg hfew] at hloop ⊢
    rw [hloop]

end X1.Shell
