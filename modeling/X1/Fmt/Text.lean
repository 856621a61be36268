import X1.Base.Checked
import X1.Fmt.Model

/-! # The text of a format

What the conversions produce does not depend on the room in the buffer: there is a text
for a format and its arguments, and `fmt_vsnprintf` writes as much of it as fits.
-/
namespace X1.Fmt
open X1.Word X1.CString X1.Checked

/-- The number with its prefix in a field of some width. -/
def layout (flags : Flags) (width : ℤ) (mark number : List UInt8) : List UInt8 :=
  let room := (width - mark.length - number.length).toNat
  if flags.leftJustify then mark ++ number ++ List.replicate room ' '.toUInt8
  else if flags.zeroPad then mark ++ List.replicate room '0'.toUInt8 ++ number
  else List.replicate room ' '.toUInt8 ++ mark ++ number

/-- `0`, `0x`, `0X` or the sign -/
def intMark (flags : Flags) (base : ℕ) (sign : Option UInt8) : List UInt8 :=
  if flags.altForm then
    '0'.toUInt8 :: if base = 16 then ['X'.toUInt8 ||| (if flags.lower then 0x20 else 0)] else []
  else sign.toList

/-- How often the width is decremented where nothing is padded: behind the spaces on the left, behind the zeros,
and at the end. -/
def passes (flags : Flags) : ℕ := if flags.leftJustify then 1 else if flags.zeroPad then 2 else 3

def intText (d : Directive) (args : List Arg) : Except Fault (List UInt8 × List Arg) := do
  let (n,args) ← intArgument d args
  let flags := if d.flags.leftJustify ∨ 0 ≤ d.precision then { d.flags with zeroPad := false } else d.flags
  let mark := intMark flags d.base (signOf flags n).1
  let width ← checkInt (d.width - mark.length)
  let tmp ← intDigits d (signOf flags n).2
  let number := List.replicate (d.precision - tmp.length).toNat '0'.toUInt8 ++ tmp.reverse
  let _ ← checkInt (width - number.length - passes flags)
  return (layout flags d.width mark number,args)

def charText (d : Directive) (args : List Arg) : Except Fault (List UInt8 × List Arg) := do
  let (w,args) ← vaWord args
  let width ← checkInt (if d.flags.leftJustify then d.width else min (d.width - 1) 0)
  let _ ← checkInt (min (width - 1) 0)
  let room := List.replicate (d.width - 1).toNat ' '.toUInt8
  return (if d.flags.leftJustify then w.toUInt8 :: room else room ++ [w.toUInt8],args)

def strText (d : Directive) (args : List Arg) : Except Fault (List UInt8 × List Arg) := do
  let (text,args) ← vaStr args
  let text := text.getD nullText
  let len ← strLength d.precision 0 text
  let room := List.replicate (d.width - len).toNat ' '.toUInt8
  return (if d.flags.leftJustify then text.take len ++ room else room ++ text.take len,args)

/-- The text of a conversion, the arguments left, and what `%n` stores after `done` characters. -/
def directiveText (d : Directive) (args : List Arg) (done : ℕ) :
    Except Fault (List UInt8 × List Arg × List (Modifier × ℤ)) :=
  match d.specifier with
  | .int => (intText d args).map fun r => (r.1,r.2,[])
  | .char => (charText d args).map fun r => (r.1,r.2,[])
  | .str => (strText d args).map fun r => (r.1,r.2,[])
  | .nrchars => do
    let args ← vaRef args
    let length ← checkLength (done % 2 ^ 32)
    return ([],args,[(d.modifier,stored d.modifier length)])
  | .percent | .invalid => .ok (['%'.toUInt8],args,[])

/-- The text of a format, the arguments left, and what its `%n` store. -/
def formatText : ℕ → Ptr → List Arg → ℕ → Except Fault (List UInt8 × List Arg × List (Modifier × ℤ))
  | 0,_,_,_ => .error .loop
  | turns + 1,format,args,done => do
    let (c,format) ← fmtConsume format
    if c = 0 then return ([],args,[])
    else if c ≠ '%'.toUInt8 then
      let (text,args,counts) ← formatText turns format args (done + 1)
      return (c :: text,args,counts)
    else
      let (d,args,format) ← consumeDirective format args
      let (text,args,counts) ← directiveText d args done
      let (text',args,counts') ← formatText turns format args (done + text.length)
      return (text ++ text',args,counts ++ counts')

/-! ## The buffer -/

section
variable {s : Sprintf} {c : UInt8} {cs : List UInt8} {n : ℕ} {d : Directive}

theorem produceChars_append (cs ds : List UInt8) (s : Sprintf) :
    produceChars ds (produceChars cs s) = produceChars (cs ++ ds) s := by
  induction cs generalizing s with
  | nil => rfl
  | cons c cs ih => exact ih (produceRawChar s c)

theorem produceRepeat_eq (c : UInt8) (n : ℕ) (s : Sprintf) :
    produceRepeat c n s = produceChars (List.replicate n c) s := by
  induction n generalizing s with
  | zero => rfl
  | succ n ih => exact ih (produceRawChar s c)

theorem produceRawChar_eq (s : Sprintf) (c : UInt8) : produceRawChar s c = produceChars [c] s := rfl

theorem produceChars_frame (cs : List UInt8) (s : Sprintf) :
    ∃ mem str, produceChars cs s = { s with mem := mem, str := str } := by
  induction cs generalizing s with
  | nil => exact ⟨s.mem,s.str,rfl⟩
  | cons c cs ih => exact ih (produceRawChar s c)

theorem produceChars_counts (cs : List UInt8) (s : Sprintf) : (produceChars cs s).counts = s.counts := by
  obtain ⟨mem,str,h⟩ := produceChars_frame cs s
  rw [h]

theorem produceChars_start (cs : List UInt8) (s : Sprintf) : (produceChars cs s).start = s.start := by
  obtain ⟨mem,str,h⟩ := produceChars_frame cs s
  rw [h]

theorem produceChars_limit (cs : List UInt8) (s : Sprintf) : (produceChars cs s).limit = s.limit := by
  obtain ⟨mem,str,h⟩ := produceChars_frame cs s
  rw [h]

theorem produceChars_mark (flags : Flags) (base : ℕ) (sign : Option UInt8) (s : Sprintf) :
    (if flags.altForm then
      let s := produceRawChar s '0'.toUInt8
      if base = 16 then produceRawChar s ('X'.toUInt8 ||| (if flags.lower then 0x20 else 0)) else s
    else
      match sign with
      | some c => produceRawChar s c
      | none => s) = produceChars (intMark flags base sign) s := by
  unfold intMark
  cases flags.altForm with
  | true =>
    by_cases hbase : base = 16
    · simp only [hbase,if_true]
      rfl
    · simp only [hbase,if_true,if_false]
      rfl
  | false => cases sign <;> rfl

/-- The padding of the code: spaces before the mark, or zeros after it, or spaces at the end. -/
theorem layout_eq (flags : Flags) (width : ℤ) (mark zeros digits : List UInt8) (s : Sprintf) :
    let room := width - mark.length - (zeros ++ digits).length
    let spaces := !(flags.leftJustify || flags.zeroPad)
    let s₁ := if spaces then produceRepeat ' '.toUInt8 room.toNat s else s
    let room₁ := if spaces then min room 0 - 1 else room
    let s₂ := produceChars mark s₁
    let s₃ := if flags.leftJustify then s₂
      else produceRepeat (if flags.zeroPad then '0'.toUInt8 else ' '.toUInt8) room₁.toNat s₂
    let room₃ := if flags.leftJustify then room₁ else min room₁ 0 - 1
    produceRepeat ' '.toUInt8 room₃.toNat (produceChars digits (produceChars zeros s₃)) =
      produceChars (layout flags width mark (zeros ++ digits)) s := by
  simp only [produceRepeat_eq]
  have hnone (r : ℤ) : (min r 0 - 1).toNat = 0 := by omega
  unfold layout
  cases flags.leftJustify with
  | true => simp [produceChars_append]
  | false =>
    cases flags.zeroPad with
    | true => simp [produceChars_append,hnone]
    | false => simp [produceChars_append,hnone]

theorem length_intMark (flags : Flags) (base : ℕ) (sign : Option UInt8) (width : ℤ) :
    (if flags.altForm then (if base = 16 then width - 2 else width - 1)
      else if sign.isSome then width - 1 else width) = width - (intMark flags base sign).length := by
  unfold intMark
  cases flags.altForm with
  | true => by_cases hbase : base = 16 <;> simp [hbase]
  | false => cases sign <;> simp

theorem length_number (precision : ℤ) (tmp : List UInt8) :
    (if precision < tmp.length then (tmp.length : ℤ) else precision) =
      (List.replicate (precision - tmp.length).toNat '0'.toUInt8 ++ tmp.reverse).length := by
  simp only [List.length_append,List.length_replicate,List.length_reverse]
  split <;> omega

theorem checkInt_of_le {n : ℤ} (h : -2 ^ 31 ≤ n) (h' : n < 2 ^ 31) : checkInt n = .ok n := if_pos ⟨h,h'⟩

theorem checkInt_of_lt {n : ℤ} (h : n < -2 ^ 31) : checkInt n = .error .overflow := if_neg (by omega)

theorem lt_of_checkInt {n m : ℤ} (h : checkInt n = .ok m) : m = n ∧ n < 2 ^ 31 := by
  unfold checkInt at h
  split at h
  · next hn =>
    cases h
    exact ⟨rfl,hn.2⟩
  · cases h

/-- The last of two checks decides, if it is the stricter one. -/
theorem checkInt_bind {β : Type} {n m : ℤ} (low : ℤ → ℤ) (rest : ℤ → Except Fault β)
    (h : -2 ^ 31 ≤ low n → low n < 2 ^ 31 → -2 ^ 31 ≤ n ∧ n < 2 ^ 31)
    (hm : -2 ^ 31 ≤ low n ∧ low n < 2 ^ 31 ↔ -2 ^ 31 ≤ m ∧ m < 2 ^ 31) :
    (checkInt n >>= fun r => checkInt (low r) >>= fun _ => rest r) = checkInt m >>= fun _ => rest n := by
  unfold checkInt
  by_cases hlow : -2 ^ 31 ≤ low n ∧ low n < 2 ^ 31
  · rw [if_pos (h hlow.1 hlow.2),if_pos (hm.mp hlow)]
    simp only [bind,Except.bind]
    rw [if_pos hlow]
  · rw [if_neg (mt hm.mpr hlow)]
    split_ifs
    · simp only [bind,Except.bind]
      rw [if_neg hlow]
    · rfl

theorem widthAfter_bind {β : Type} (room : ℤ) (k : ℕ) (rest : ℤ → Except Fault β) :
    (widthAfter true room >>= fun r => checkInt (min r 0 - k) >>= fun _ => rest r) =
      checkInt (min room 0 - (k + 1 : ℕ)) >>= fun _ => rest (min room 0 - 1) :=
  checkInt_bind (fun r => min r 0 - k) rest (by omega) (by omega)

/-- The width is at its lowest behind the last loop. -/
theorem widthAfter_eq {β : Type} (flags : Flags) {width : ℤ} (n : ℕ) (hwidth : width < 2 ^ 31)
    (rest : ℤ → ℤ → ℤ → Except Fault β) :
    (checkInt (width - n) >>= fun room => widthAfter (!(flags.leftJustify || flags.zeroPad)) room >>= fun room₁ =>
      widthAfter (!flags.leftJustify) room₁ >>= fun room₃ => widthAfter true room₃ >>= fun _ => rest room room₁ room₃) =
    checkInt (width - n - passes flags) >>= fun _ =>
      let room := width - n
      let room₁ := if !(flags.leftJustify || flags.zeroPad) then min room 0 - 1 else room
      rest room room₁ (if flags.leftJustify then room₁ else min room₁ 0 - 1) := by
  have hlast (room : ℤ) (r : Except Fault β) :
    (widthAfter true room >>= fun _ => r) = checkInt (min room 0 - (1 : ℕ)) >>= fun _ => r := rfl
  have hfirst (k : ℕ) (hk : k ≤ 3) (rest : ℤ → Except Fault β) :
      (checkInt (width - n) >>= fun room => checkInt (min room 0 - k) >>= fun _ => rest room) =
        checkInt (width - n - k) >>= fun _ => rest (width - n) :=
    checkInt_bind (fun room => min room 0 - k) rest (by omega) (by omega)
  simp only [hlast]
  cases hleft : flags.leftJustify with
  | true =>
    simp only [passes,hleft]
    exact hfirst 1 (by decide) fun room => rest room room room
  | false =>
    simp only [Bool.not_false,widthAfter_bind]
    cases hzero : flags.zeroPad with
    | true =>
      simp only [passes,hleft,hzero]
      exact hfirst 2 (by decide) fun room => rest room room (min room 0 - 1)
    | false =>
      simp only [passes,hleft,hzero,Bool.or_false,Bool.not_false,widthAfter_bind]
      exact hfirst 3 (by decide) fun room => rest room (min room 0 - 1) (min (min room 0 - 1) 0 - 1)
theorem ok_bind {α β : Type} (a : α) (f : α → Except Fault β) : ((.ok a : Except Fault α) >>= f) = f a := rfl

/-- The conversion of an integer is its text, produced character by character. -/
theorem produceInt_eq (d : Directive) (s : Sprintf) :
    produceInt d s = (intText d s.args).map fun r => { produceChars r.1 s with args := r.2 } := by
  unfold produceInt intText
  cases hn : intArgument d s.args with
  | error fault => rfl
  | ok r =>
    obtain ⟨n,args⟩ := r
    simp only [ok_bind]
    generalize (if d.flags.leftJustify ∨ 0 ≤ d.precision then
      ({ d.flags with zeroPad := false } : Flags) else d.flags) = flags
    rcases signOf flags n with ⟨sign,n'⟩
    simp only [length_intMark]
    cases hwidth : checkInt (d.width - (intMark flags d.base sign).length) with
    | error fault => rfl
    | ok width =>
      obtain ⟨rfl,hlt⟩ := lt_of_checkInt hwidth
      simp only [ok_bind]
      cases intDigits d n' with
      | error fault => rfl
      | ok tmp =>
        have hzeros : ((if d.precision < tmp.length then (tmp.length : ℤ) else d.precision) - tmp.length).toNat =
            (d.precision - tmp.length).toNat := by split <;> omega
        simp only [ok_bind]
        rw [hzeros,length_number]
        have hlayout := layout_eq flags d.width (intMark flags d.base sign)
          (List.replicate (d.precision - tmp.length).toNat '0'.toUInt8) tmp.reverse s
        simp only [← produceChars_mark flags d.base sign,← produceRepeat_eq] at hlayout
        refine (widthAfter_eq flags _ hlt _).trans ?_
        cases checkInt (d.width - (intMark flags d.base sign).length -
            (List.replicate (d.precision - tmp.length).toNat '0'.toUInt8 ++ tmp.reverse).length - passes flags) with
        | error fault => rfl
        | ok _ => exact congrArg (fun r : Sprintf => Except.ok { r with args := args }) hlayout

theorem produceChar_eq (d : Directive) (s : Sprintf) :
    produceChar d s = (charText d s.args).map fun r => { produceChars r.1 s with args := r.2 } := by
  unfold produceChar charText
  cases vaWord s.args with
  | error fault => rfl
  | ok r =>
    obtain ⟨w,args⟩ := r
    simp only [ok_bind]
    cases hwidth : checkInt (if d.flags.leftJustify then d.width else min (d.width - 1) 0) with
    | error fault => rfl
    | ok width =>
      obtain ⟨rfl,-⟩ := lt_of_checkInt hwidth
      simp only [ok_bind]
      cases checkInt (min ((if d.flags.leftJustify then d.width else min (d.width - 1) 0) - 1) 0) with
      | error fault => rfl
      | ok _ =>
        have hnone : (min (d.width - 1) 0 - 1).toNat = 0 := by omega
        simp only [ok_bind,produceRepeat_eq,produceRawChar_eq,produceChars_append]
        cases d.flags.leftJustify with
        | true => rfl
        | false => simp [hnone,pure,Except.pure,Except.map,produceChars_append]

theorem produceStr_eq (d : Directive) (s : Sprintf) :
    produceStr d s = (strText d s.args).map fun r => { produceChars r.1 s with args := r.2 } := by
  unfold produceStr strText
  cases vaStr s.args with
  | error fault => rfl
  | ok r =>
    obtain ⟨text,args⟩ := r
    simp only [bind,Except.bind]
    cases strLength d.precision 0 (text.getD nullText) with
    | error fault => rfl
    | ok len =>
      have hnone : (min d.width len - len).toNat = 0 := by omega
      simp only [produceRepeat_eq,produceChars_append]
      cases d.flags.leftJustify with
      | true => rfl
      | false => simp [hnone,pure,Except.pure,Except.map,produceChars_append]

/-- The state after some text, once arguments have been taken and counts stored. -/
def printed (s : Sprintf) (r : List UInt8 × List Arg × List (Modifier × ℤ)) : Sprintf :=
  { produceChars r.1 s with args := r.2.1, counts := s.counts ++ r.2.2 }

theorem produceChars_with (cs : List UInt8) (s : Sprintf) (args : List Arg) (counts : List (Modifier × ℤ)) :
    produceChars cs { s with args := args, counts := counts } =
      { produceChars cs s with args := args, counts := counts } := by
  induction cs generalizing s with
  | nil => rfl
  | cons c cs ih => exact ih (produceRawChar s c)

theorem printed_printed (s : Sprintf) (r r' : List UInt8 × List Arg × List (Modifier × ℤ)) :
    printed (printed s r) r' = printed s (r.1 ++ r'.1,r'.2.1,r.2.2 ++ r'.2.2) := by
  unfold printed
  rw [produceChars_with,produceChars_append,List.append_assoc]

theorem produce_eq (d : Directive) (s : Sprintf) (done : ℕ) (hdone : sub s.str s.start = done % 2 ^ 32) :
    produce d s = (directiveText d s.args done).map (printed s) := by
  have hmap (r : Except Fault (List UInt8 × List Arg)) :
      (r.map fun r => { produceChars r.1 s with args := r.2 }) =
        (r.map fun r => (r.1,r.2,[])).map (printed s) := by
    cases r with
    | error fault => rfl
    | ok r => simp [Except.map,printed,produceChars_counts]
  unfold produce directiveText
  cases d.specifier with
  | int => exact (produceInt_eq d s).trans (hmap _)
  | char => exact (produceChar_eq d s).trans (hmap _)
  | str => exact (produceStr_eq d s).trans (hmap _)
  | nrchars =>
    simp only [produceNrchars]
    cases vaRef s.args with
    | error fault => rfl
    | ok args =>
      simp only [ok_bind,hdone]
      cases checkLength (done % 2 ^ 32) <;> rfl
  | percent
  | invalid =>
    simp only [Except.map,printed,List.append_nil]
    rfl

theorem produceChars_str (cs : List UInt8) (s : Sprintf) (hs : s.str < 2 ^ 32) :
    (produceChars cs s).str = (s.str + cs.length) % 2 ^ 32 := by
  induction cs generalizing s with
  | nil => exact (Nat.mod_eq_of_lt hs).symm
  | cons c cs ih =>
    refine (ih (produceRawChar s c) (add_lt _ _)).trans ?_
    simp only [produceRawChar,add,List.length_cons]
    omega

/-- The loop produces the text of the format, or has its fault. -/
theorem vsnprintfLoop_eq (turns : ℕ) (format : Ptr) (s : Sprintf) (done : ℕ)
    (hs : s.str < 2 ^ 32) (hdone : sub s.str s.start = done % 2 ^ 32) :
    vsnprintfLoop turns format s = (formatText turns format s.args done).map (printed s) := by
  induction turns generalizing format s done with
  | zero => rfl
  | succ turns ih =>
    have hnext (cs : List UInt8) (args : List Arg) (counts : List (Modifier × ℤ)) :
        sub (printed s (cs,args,counts)).str (printed s (cs,args,counts)).start =
          (done + cs.length) % 2 ^ 32 := by
      simp only [printed,produceChars_str cs s hs,produceChars_start]
      unfold sub at hdone ⊢
      omega
    have hlt (cs : List UInt8) (args : List Arg) (counts : List (Modifier × ℤ)) :
        (printed s (cs,args,counts)).str < 2 ^ 32 := by
      simp only [printed,produceChars_str cs s hs]
      omega
    unfold vsnprintfLoop formatText
    cases format with
    | nil => rfl
    | cons c format =>
      simp only [fmtConsume,bind,Except.bind]
      split_ifs with hend hchar
      · simp [Except.map,pure,Except.pure,printed,produceChars]
      · have hone : produceRawChar s c = printed s ([c],s.args,[]) := by
          simp only [printed,List.append_nil]
          rfl
        rw [hone,ih format _ (done + 1) (hlt _ _ _) (hnext _ _ _)]
        change (formatText turns format s.args (done + 1)).map _ = _
        cases formatText turns format s.args (done + 1) with
        | error fault => rfl
        | ok r => exact congrArg Except.ok (printed_printed s _ _)
      · cases consumeDirective format s.args with
        | error fault => rfl
        | ok r =>
          obtain ⟨d,args,format'⟩ := r
          dsimp only
          rw [produce_eq d { s with args := args } done hdone]
          dsimp only
          cases directiveText d args done with
          | error fault => rfl
          | ok r =>
            have hone : printed { s with args := args } r = printed s r := by
              simp only [printed]
              rw [produceChars_with r.1 s args s.counts]
            simp only [Except.map]
            rw [hone,ih format' _ (done + r.1.length) (hlt _ _ _) (hnext _ _ _)]
            change (formatText turns format' r.2.1 (done + r.1.length)).map _ = _
            cases formatText turns format' r.2.1 (done + r.1.length) with
            | error fault => rfl
            | ok r' => exact congrArg Except.ok (printed_printed s r r')

end

/-! ## What fits -/

/-- The memory with some bytes at an address. -/
def put (m : Bytes) (addr : ℕ) (cs : List UInt8) : Bytes := fun a =>
  if addr ≤ a ∧ a < addr + cs.length then cs.getD (a - addr) 0 else m a

theorem put_nil (m : Bytes) (addr : ℕ) : put m addr [] = m := by
  funext a
  exact if_neg (by simp only [List.length_nil]; omega)

theorem put_cons (m : Bytes) (addr : ℕ) (c : UInt8) (cs : List UInt8) :
    put (store m addr c) (addr + 1) cs = put m addr (c :: cs) := by
  funext a
  unfold put store
  simp only [List.length_cons]
  by_cases hlater : addr + 1 ≤ a ∧ a < addr + 1 + cs.length
  · rw [if_pos hlater,if_pos (by omega),show a - addr = a - (addr + 1) + 1 by omega,List.getD_cons_succ]
  · rw [if_neg hlater]
    by_cases hfirst : a = addr
    · rw [hfirst,Function.update_self,if_pos (by omega),Nat.sub_self,List.getD_cons_zero]
    · rw [Function.update_of_ne hfirst,if_neg (by omega)]

theorem put_append (m : Bytes) (addr : ℕ) (cs ds : List UInt8) :
    put (put m addr cs) (addr + cs.length) ds = put m addr (cs ++ ds) := by
  induction cs generalizing m addr with
  | nil => rw [put_nil,List.nil_append,List.length_nil,Nat.add_zero]
  | cons c cs ih =>
    rw [← put_cons,List.cons_append,← put_cons,← ih,List.length_cons]
    congr 1
    omega

theorem put_singleton (m : Bytes) (addr : ℕ) (c : UInt8) : put m addr [c] = store m addr c := by
  rw [← put_cons,put_nil]

theorem produceChars_mem (cs : List UInt8) (s : Sprintf) (hfit : s.str + cs.length < 2 ^ 32) :
    (produceChars cs s).mem = put s.mem s.str (cs.take (s.limit - s.str)) := by
  induction cs generalizing s with
  | nil => rw [List.take_nil,put_nil,produceChars]
  | cons c cs ih =>
    rw [List.length_cons] at hfit
    have hstr : (produceRawChar s c).str = s.str + 1 := add_of_lt (by omega)
    have hrest := ih (produceRawChar s c) (by omega)
    rw [hstr] at hrest
    refine hrest.trans ?_
    simp only [produceRawChar]
    by_cases hroom : s.str < s.limit
    · rw [if_pos hroom,put_cons,show s.limit - s.str = s.limit - (s.str + 1) + 1 by omega,List.take_succ_cons]
    · rw [if_neg hroom,show s.limit - s.str = 0 by omega,show s.limit - (s.str + 1) = 0 by omega,List.take_zero,
        List.take_zero,put_nil,put_nil]

/-- How many characters of a text a buffer keeps. -/
def kept (size length : ℕ) : ℕ := if size = FMT_NOLIMIT then length else size - 1

theorem sprintfInit_limit (mem : Bytes) (args : List Arg) {str size : ℕ} (hnone : size ≠ 0) (hnull : str ≠ 0)
    (hsize : size = FMT_NOLIMIT ∨ str + size ≤ 2 ^ 32) (hstr : str < 2 ^ 32) :
    (sprintfInit mem str size args).limit = (if size = FMT_NOLIMIT then 2 ^ 32 - 1 else str + (size - 1)) := by
  simp only [sprintfInit,if_neg hnone]
  split_ifs with hall
  · rfl
  · unfold sub add
    omega

theorem take_kept (text : List UInt8) {str size : ℕ} (hfit : str + text.length < 2 ^ 32) :
    text.take ((if size = FMT_NOLIMIT then 2 ^ 32 - 1 else str + (size - 1)) - str) =
      text.take (kept size text.length) := by
  unfold kept
  split_ifs with hall
  · rw [List.take_of_length_le (by omega),List.take_of_length_le (by omega)]
  · rw [Nat.add_sub_cancel_left]

theorem sprintfFinalize_store (s : Sprintf) (hlimit : s.limit ≠ 0) :
    (sprintfFinalize s).mem = store s.mem (min s.str s.limit) 0 := by
  unfold sprintfFinalize
  by_cases hroom : s.str < s.limit
  · rw [if_pos hroom,Nat.min_eq_left (by omega)]
  · rw [if_neg hroom,if_pos hlimit,Nat.min_eq_right (by omega)]

theorem sprintfFinalize_mem (mem : Bytes) (str size : ℕ) (args : List Arg) (text : List UInt8)
    (hnull : str ≠ 0 ∨ size = 0) (hsize : size = FMT_NOLIMIT ∨ str + size ≤ 2 ^ 32)
    (hfit : str + text.length < 2 ^ 32) :
    (sprintfFinalize (produceChars text (sprintfInit mem str size args))).mem =
      if size = 0 then mem else put mem str (text.take (kept size text.length) ++ [0]) := by
  have hstr : (produceChars text (sprintfInit mem str size args)).str = str + text.length :=
    (produceChars_str text (sprintfInit mem str size args) (by simp only [sprintfInit]; omega)).trans
      (Nat.mod_eq_of_lt hfit)
  have hmem : (produceChars text (sprintfInit mem str size args)).mem =
      put mem str (text.take ((sprintfInit mem str size args).limit - str)) :=
    produceChars_mem text (sprintfInit mem str size args) hfit
  by_cases hnone : size = 0
  · have hlimit : (sprintfInit mem str size args).limit = 0 := if_pos hnone
    unfold sprintfFinalize
    rw [produceChars_limit,hstr,hlimit]
    rw [hlimit] at hmem
    simpa [hnone,put_nil] using hmem
  · have hlimit := sprintfInit_limit mem args hnone (hnull.resolve_right hnone) hsize (by omega)
    have hend : min (str + text.length) (sprintfInit mem str size args).limit =
        str + (text.take (kept size text.length)).length := by
      rw [hlimit,List.length_take]
      unfold kept
      split_ifs with hall <;> omega
    have hpos : (sprintfInit mem str size args).limit ≠ 0 := by
      rw [hlimit]
      have := hnull.resolve_right hnone
      split_ifs <;> omega
    rw [sprintfFinalize_store _ (by rwa [produceChars_limit]),produceChars_limit,hstr,hend,hmem,hlimit,
      take_kept text hfit,if_neg hnone,← put_append,put_singleton]

theorem sprintfFinalize_printed (s : Sprintf) (r : List UInt8 × List Arg × List (Modifier × ℤ)) :
    sprintfFinalize (printed s r) =
      { produceChars r.1 s with
        mem := (sprintfFinalize (produceChars r.1 s)).mem
        args := r.2.1
        counts := s.counts ++ r.2.2 } := by
  unfold sprintfFinalize printed
  split_ifs <;> rfl

/-- The length of the text, and the part of it that fits. -/
theorem fmtVsnprintf_eq (mem : Bytes) (str size : ℕ) (format : Ptr) (args : List Arg)
    (hstr : str < 2 ^ 32) (hnull : str ≠ 0 ∨ size = 0) (hsize : size = FMT_NOLIMIT ∨ str + size ≤ 2 ^ 32)
    (hfit : ∀ r, formatText format.length format args 0 = .ok r → str + r.1.length < 2 ^ 32) :
    (fmtVsnprintf mem str size format args).map (fun r => (r.1,r.2.mem,r.2.counts)) =
      formatText format.length format args 0 >>= fun r => checkLength r.1.length >>= fun length =>
        .ok (length,if size = 0 then mem else put mem str (r.1.take (kept size r.1.length) ++ [0]),r.2.2) := by
  have hzero : sub (sprintfInit mem str size args).str (sprintfInit mem str size args).start = 0 % 2 ^ 32 := by
    simp only [sprintfInit]
    unfold sub
    omega
  unfold fmtVsnprintf
  rw [vsnprintfLoop_eq format.length format (sprintfInit mem str size args) 0 hstr hzero]
  change ((formatText format.length format args 0).map _ >>= _).map _ = _
  cases htext : formatText format.length format args 0 with
  | error fault => rfl
  | ok r =>
    have hmem := sprintfFinalize_mem mem str size args r.1 hnull hsize (hfit r htext)
    have hend : (produceChars r.1 (sprintfInit mem str size args)).str = str + r.1.length :=
      (produceChars_str r.1 (sprintfInit mem str size args) hstr).trans (Nat.mod_eq_of_lt (hfit r htext))
    have hlen : sub (str + r.1.length) str = r.1.length := by
      have := hfit r htext
      rw [sub_of_le (by omega) this,Nat.add_sub_cancel_left]
    have hstart : (sprintfInit mem str size args).start = str := rfl
    simp only [Except.map,ok_bind,sprintfFinalize_printed]
    rw [hmem,hend,produceChars_start,hstart,hlen]
    cases checkLength r.1.length <;> rfl

theorem checkLength_of_lt {n : ℕ} (h : n < 2 ^ 31) : checkLength n = .ok n := if_pos h

theorem checkLength_of_not_lt {n : ℕ} (h : ¬n < 2 ^ 31) : checkLength n = .error .overflow := if_neg h

theorem fmtVsnprintf_of_text (mem : Bytes) {str size : ℕ} {format : Ptr} {args : List Arg}
    {r : List UInt8 × List Arg × List (Modifier × ℤ)} (htext : formatText format.length format args 0 = .ok r)
    (hlen : r.1.length < 2 ^ 31) (hfit : str + r.1.length < 2 ^ 32) (hnull : str ≠ 0 ∨ size = 0)
    (hsize : size = FMT_NOLIMIT ∨ str + size ≤ 2 ^ 32) :
    ∃ s,fmtVsnprintf mem str size format args = .ok (r.1.length,s) ∧ s.counts = r.2.2 ∧
      s.mem = if size = 0 then mem else put mem str (r.1.take (kept size r.1.length) ++ [0]) := by
  have heq := fmtVsnprintf_eq mem str size format args (by omega) hnull hsize
    (fun r' hr' => by rw [htext] at hr'; cases hr'; exact hfit)
  rw [htext,ok_bind,checkLength_of_lt hlen,ok_bind] at heq
  cases hrun : fmtVsnprintf mem str size format args with
  | error fault =>
    rw [hrun] at heq
    cases heq
  | ok r' =>
    rw [hrun] at heq
    obtain ⟨length,s⟩ := r'
    simp only [Except.map,Except.ok.injEq,Prod.mk.injEq] at heq
    obtain ⟨rfl,hmem,hcounts⟩ := heq
    exact ⟨s,rfl,hcounts,hmem⟩

end X1.Fmt
