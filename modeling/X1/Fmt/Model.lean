import X1.String.Move

/-! # The formatted output of lib/fmt.c

A pointer into a string is the string from there on, so that a character that is read
and then restored is one that has not been passed. What C leaves undefined is a fault:
a read past the end of a string, a missing argument or one of another type, and an
`int` or a `ptrdiff_t` that overflows. Arguments are the words that a caller pushes;
`long`, `size_t`, `ptrdiff_t` and pointers have the size of `int`.
-/
namespace X1.Fmt
open X1.Word X1.CString

inductive Fault where
  | bounds | argument | overflow | loop | assertion
  deriving DecidableEq

/-- The characters of a string from some place on, with the NUL at its end. -/
abbrev Ptr := List UInt8

/-- `(sizeof(unsigned long long) * CHAR_BIT) / 3 + 1` -/
def FMT_MAX_NUM_SIZE : ℕ := 22

def FMT_NOLIMIT : ℕ := 2 ^ 32 - 1

structure Flags where
  altForm : Bool := false
  zeroPad : Bool := false
  leftJustify : Bool := false
  blank : Bool := false
  sign : Bool := false
  lower : Bool := false
  convSigned : Bool := false
  deriving DecidableEq

inductive Modifier where
  | none | char | short | long | longlong | ptr | size | ptrdiff
  deriving DecidableEq

inductive Specifier where
  | invalid | int | char | str | nrchars | percent
  deriving DecidableEq

/-- `int`, `long`, a size or a pointer that is not read through; `long long`; a `char *`; a pointer to a number. -/
inductive Arg where
  | word (w : UInt32)
  | wide (d : UInt64)
  | str (s : Option Ptr)
  | ref
  deriving DecidableEq

/-- The bits of the integer type that a modifier announces. -/
def argBits : Modifier → ℕ
  | .char => 8
  | .short => 16
  | .longlong => 64
  | .none | .long | .ptr | .size | .ptrdiff => 32

/-- What a conversion of the format asks for. -/
structure Directive where
  flags : Flags := {}
  width : ℤ := 0
  precision : ℤ := -1
  modifier : Modifier := .none
  specifier : Specifier := .invalid
  base : ℕ := 0
  deriving DecidableEq

/-- The output side of `struct fmt_sprintf_state`, with the memory, and the numbers that `%n` has stored. -/
structure Sprintf where
  mem : Bytes
  str : ℕ
  start : ℕ
  limit : ℕ
  args : List Arg
  counts : List (Modifier × ℤ)

def fmtDigits : List UInt8 := "0123456789ABCDEF".toList.map Char.toUInt8

def fmtConsume : Ptr → Except Fault (UInt8 × Ptr)
  | [] => .error .bounds
  | c :: s => .ok (c,s)

def fmtIsdigit (c : UInt8) : Bool := '0'.toUInt8 ≤ c && c ≤ '9'.toUInt8

def fmtIsxdigit (c : UInt8) : Bool :=
  fmtIsdigit c || ('a'.toUInt8 ≤ c && c ≤ 'f'.toUInt8) || ('A'.toUInt8 ≤ c && c ≤ 'F'.toUInt8)

/-- The value of an expression of type `int` -/
def checkInt (n : ℤ) : Except Fault ℤ := if -2 ^ 31 ≤ n ∧ n < 2 ^ 31 then .ok n else .error .overflow

/-- A distance of pointers, as an `int` or a `ptrdiff_t` -/
def checkLength (n : ℕ) : Except Fault ℕ := if n < 2 ^ 31 then .ok n else .error .overflow

/-- `va_arg(ap, int)` and the other types of a word -/
def vaWord : List Arg → Except Fault (UInt32 × List Arg)
  | .word w :: args => .ok (w,args)
  | _ => .error .argument

def vaWide : List Arg → Except Fault (UInt64 × List Arg)
  | .wide d :: args => .ok (d,args)
  | _ => .error .argument

def vaStr : List Arg → Except Fault (Option Ptr × List Arg)
  | .str s :: args => .ok (s,args)
  | _ => .error .argument

def vaRef : List Arg → Except Fault (List Arg)
  | .ref :: args => .ok args
  | _ => .error .argument

/-! ## The format -/

def flag (c : UInt8) (flags : Flags) : Option Flags :=
  if c = '#'.toUInt8 then some { flags with altForm := true }
  else if c = '0'.toUInt8 then some { flags with zeroPad := true }
  else if c = '-'.toUInt8 then some { flags with leftJustify := true }
  else if c = ' '.toUInt8 then some { flags with blank := true }
  else if c = '+'.toUInt8 then some { flags with sign := true }
  else none

def consumeFlags (flags : Flags) : Ptr → Except Fault (Flags × Ptr)
  | [] => .error .bounds
  | c :: s =>
    match flag c flags with
    | some flags => consumeFlags flags s
    | none => .ok (flags,c :: s)

/-- `number = number * 10 + (c - '0')`, as long as there are digits -/
def consumeNumber (number : ℕ) : Ptr → Except Fault (ℕ × Ptr)
  | [] => .error .bounds
  | c :: s =>
    if fmtIsdigit c then
      let number := number * 10 + (c - '0'.toUInt8).toNat
      if number < 2 ^ 31 then consumeNumber number s else .error .overflow
    else .ok (number,c :: s)

def consumeWidth (s : Ptr) (flags : Flags) (args : List Arg) :
    Except Fault (ℤ × Flags × List Arg × Ptr) := do
  let (c,rest) ← fmtConsume s
  if fmtIsdigit c then
    let (width,s) ← consumeNumber 0 s
    return (width,flags,args,s)
  else if c = '*'.toUInt8 then
    let (w,args) ← vaWord args
    let width := w.toInt32.toInt
    if width = -2 ^ 31 then throw .overflow
    else if width < 0 then return (-width,{ flags with leftJustify := true },args,rest)
    else return (width,flags,args,rest)
  else return (0,flags,args,s)

/-- The precision is negative unless it is explicit. -/
def consumePrecision (s : Ptr) (args : List Arg) : Except Fault (ℤ × List Arg × Ptr) := do
  let (c,rest) ← fmtConsume s
  if c = '.'.toUInt8 then
    let (c,rest') ← fmtConsume rest
    if fmtIsdigit c then
      let (precision,s) ← consumeNumber 0 rest
      return (precision,args,s)
    else if c = '*'.toUInt8 then
      let (w,args) ← vaWord args
      return (max w.toInt32.toInt 0,args,rest')
    else return (0,args,rest)
  else return (-1,args,s)

/-- There is no `break` after `z`. -/
def consumeModifier (s : Ptr) : Except Fault (Modifier × Ptr) := do
  let (c,rest) ← fmtConsume s
  if c = 'h'.toUInt8 then
    let (c2,rest') ← fmtConsume rest
    if c = c2 then return (.char,rest') else return (.short,rest)
  else if c = 'l'.toUInt8 then
    let (c2,rest') ← fmtConsume rest
    if c = c2 then return (.longlong,rest') else return (.long,rest)
  else if c = 'z'.toUInt8 then return (.ptrdiff,rest)
  else if c = 't'.toUInt8 then return (.ptrdiff,rest)
  else return (.none,s)

def specify (c : UInt8) (d : Directive) : Option Directive :=
  if c = 'd'.toUInt8 ∨ c = 'i'.toUInt8 then
    some { d with flags := { d.flags with convSigned := true }, base := 10, specifier := .int }
  else if c = 'u'.toUInt8 then some { d with base := 10, specifier := .int }
  else if c = 'o'.toUInt8 then some { d with base := 8, specifier := .int }
  else if c = 'p'.toUInt8 then
    some { d with
      flags := { d.flags with altForm := true, lower := true }
      modifier := .ptr
      base := 16
      specifier := .int }
  else if c = 'x'.toUInt8 then
    some { d with flags := { d.flags with lower := true }, base := 16, specifier := .int }
  else if c = 'X'.toUInt8 then some { d with base := 16, specifier := .int }
  else if c = 'c'.toUInt8 then some { d with specifier := .char }
  else if c = 's'.toUInt8 then some { d with specifier := .str }
  else if c = 'n'.toUInt8 then some { d with specifier := .nrchars }
  else if c = '%'.toUInt8 then some { d with specifier := .percent }
  else none

def consumeSpecifier (s : Ptr) (d : Directive) : Except Fault (Directive × Ptr) := do
  let (c,rest) ← fmtConsume s
  match specify c d with
  | some d => return (d,rest)
  | none => return ({ d with specifier := .invalid },s)

/-- What follows a `%`. -/
def consumeDirective (s : Ptr) (args : List Arg) : Except Fault (Directive × List Arg × Ptr) := do
  let (flags,s) ← consumeFlags {} s
  let (width,flags,args,s) ← consumeWidth s flags args
  let (precision,args,s) ← consumePrecision s args
  let (modifier,s) ← consumeModifier s
  let (d,s) ← consumeSpecifier s
    { flags := flags, width := width, precision := precision, modifier := modifier }
  return (d,args,s)

/-! ## The output -/

def produceRawChar (s : Sprintf) (c : UInt8) : Sprintf :=
  { s with mem := if s.str < s.limit then store s.mem s.str c else s.mem, str := add s.str 1 }

/-- `while (n > 0) { n--; produce(c); }` -/
def produceRepeat (c : UInt8) : ℕ → Sprintf → Sprintf
  | 0,s => s
  | n + 1,s => produceRepeat c n (produceRawChar s c)

def produceChars : List UInt8 → Sprintf → Sprintf
  | [],s => s
  | c :: cs,s => produceChars cs (produceRawChar s c)

/-- A word as a `long long`, from its low `bits` bits. -/
def extend (bits : ℕ) (signed : Bool) (w : ℕ) : ℕ :=
  let low := w % 2 ^ bits
  if signed ∧ 2 ^ (bits - 1) ≤ low then low + (2 ^ 64 - 2 ^ bits) else low

/-- The argument of an integer conversion, as an `unsigned long long` -/
def intArgument (d : Directive) (args : List Arg) : Except Fault (ℕ × List Arg) :=
  match d.modifier with
  | .longlong => do
    let (n,args) ← vaWide args
    return (n.toNat,args)
  | .char => do
    let (w,args) ← vaWord args
    return (extend 8 d.flags.convSigned w.toNat,args)
  | .short => do
    let (w,args) ← vaWord args
    return (extend 16 d.flags.convSigned w.toNat,args)
  | .ptr => do
    let (w,args) ← vaWord args
    return (extend 32 false w.toNat,args)
  | .ptrdiff => do
    let (w,args) ← vaWord args
    return (extend 32 true w.toNat,args)
  | .none | .long | .size => do
    let (w,args) ← vaWord args
    return (extend 32 d.flags.convSigned w.toNat,args)

/-- `do { tmp[i] = digits[n % base] | lower; n /= base; i++; } while (n != 0)`: the number in reverse
order, `i` being the room used in `tmp`. With a base of 8 or 16 the code masks and shifts. -/
def convert (base : ℕ) (lower : Bool) : ℕ → ℕ → Except Fault (List UInt8)
  | 0,_ => .error .bounds
  | room + 1,n =>
    let r := if base = 10 then n % 10 else n &&& (base - 1)
    let n := if base = 10 then n / 10 else n >>> (if base = 8 then 3 else 4)
    let digit := fmtDigits.getD r 0 ||| (if lower then 0x20 else 0)
    if n = 0 then .ok [digit] else (convert base lower room n).map (digit :: ·)

/-- The sign that is put before the number, and the number to convert. The negation of the least `long long`
wraps around. -/
def signOf (flags : Flags) (n : ℕ) : Option UInt8 × ℕ :=
  if flags.altForm then (none,n)
  else if flags.convSigned then
    if 2 ^ 63 ≤ n then (some '-'.toUInt8,2 ^ 64 - n)
    else if flags.sign then (some '+'.toUInt8,n)
    else if flags.blank then (some ' '.toUInt8,n)
    else (none,n)
  else (none,n)

/-- The digits in `tmp`. Without `long long` the decimal conversion works on 32 bits. -/
def intDigits (d : Directive) (n : ℕ) : Except Fault (List UInt8) :=
  if n = 0 then
    if d.precision ≠ 0 then .ok ['0'.toUInt8] else .ok []
  else if d.base = 10 then
    if d.modifier = .longlong then convert 10 false FMT_MAX_NUM_SIZE n
    else convert 10 false FMT_MAX_NUM_SIZE (n % 2 ^ 32)
  else convert d.base d.flags.lower FMT_MAX_NUM_SIZE n

/-- The width after `while (state->width > 0) { state->width--; ... } state->width--;`, where this is done. -/
def widthAfter (done : Bool) (width : ℤ) : Except Fault ℤ :=
  if done then checkInt (min width 0 - 1) else .ok width

def produceInt (d : Directive) (s : Sprintf) : Except Fault Sprintf := do
  let (n,args) ← intArgument d s.args
  let flags := if d.flags.leftJustify ∨ 0 ≤ d.precision then { d.flags with zeroPad := false } else d.flags
  let (sign,n) := signOf flags n
  let width ← checkInt
    (if flags.altForm then (if d.base = 16 then d.width - 2 else d.width - 1)
      else if sign.isSome then d.width - 1 else d.width)
  let tmp ← intDigits d n
  let precision : ℤ := if d.precision < tmp.length then tmp.length else d.precision
  let width ← checkInt (width - precision)
  let spaces := !(flags.leftJustify || flags.zeroPad)
  let s := if spaces then produceRepeat ' '.toUInt8 width.toNat s else s
  let width ← widthAfter spaces width
  let s :=
    if flags.altForm then
      let s := produceRawChar s '0'.toUInt8
      if d.base = 16 then produceRawChar s ('X'.toUInt8 ||| (if flags.lower then 0x20 else 0)) else s
    else
      match sign with
      | some c => produceRawChar s c
      | none => s
  let s :=
    if flags.leftJustify then s
    else produceRepeat (if flags.zeroPad then '0'.toUInt8 else ' '.toUInt8) width.toNat s
  let width ← widthAfter (!flags.leftJustify) width
  let s := produceRepeat '0'.toUInt8 (precision - tmp.length).toNat s
  let s := produceChars tmp.reverse s
  let s := produceRepeat ' '.toUInt8 width.toNat s
  let _ ← widthAfter true width
  return { s with args := args }

/-- Each loop ends when `width--` has made the width zero or less. -/
def produceChar (d : Directive) (s : Sprintf) : Except Fault Sprintf := do
  let (w,args) ← vaWord s.args
  let s := if d.flags.leftJustify then s else produceRepeat ' '.toUInt8 (d.width - 1).toNat s
  let width ← checkInt (if d.flags.leftJustify then d.width else min (d.width - 1) 0)
  let s := produceRawChar s w.toUInt8
  let s := produceRepeat ' '.toUInt8 (width - 1).toNat s
  let _ ← checkInt (min (width - 1) 0)
  return { s with args := args }

/-- `for (len = 0; s[len] != '\0'; len++) if (len == precision) break;` -/
def strLength (precision : ℤ) (len : ℕ) : Ptr → Except Fault ℕ
  | [] => .error .bounds
  | c :: s =>
    if c = 0 then .ok len
    else if len = precision then .ok len
    else if len + 1 < 2 ^ 31 then strLength precision (len + 1) s
    else .error .overflow

def nullText : Ptr := "(null)".toList.map Char.toUInt8 ++ [0]

def produceStr (d : Directive) (s : Sprintf) : Except Fault Sprintf := do
  let (text,args) ← vaStr s.args
  let text := text.getD nullText
  let len ← strLength d.precision 0 text
  let s := if d.flags.leftJustify then s else produceRepeat ' '.toUInt8 (d.width - len).toNat s
  let width := if d.flags.leftJustify then d.width else min d.width len
  let s := produceChars (text.take len) s
  let s := produceRepeat ' '.toUInt8 (width - len).toNat s
  return { s with args := args }

/-- A number that is stored in an object of the type that a modifier announces. -/
def stored (modifier : Modifier) (n : ℕ) : ℤ := Int.bmod n (2 ^ argBits modifier)

def produceNrchars (d : Directive) (s : Sprintf) : Except Fault Sprintf := do
  let args ← vaRef s.args
  let length ← checkLength (sub s.str s.start)
  return { s with counts := s.counts ++ [(d.modifier,stored d.modifier length)], args := args }

def produce (d : Directive) (s : Sprintf) : Except Fault Sprintf :=
  match d.specifier with
  | .int => produceInt d s
  | .char => produceChar d s
  | .str => produceStr d s
  | .nrchars => produceNrchars d s
  | .percent | .invalid => .ok (produceRawChar s '%'.toUInt8)

/-- The loop of `fmt_vsnprintf`, which passes at least one character of the format in each turn. -/
def vsnprintfLoop : ℕ → Ptr → Sprintf → Except Fault Sprintf
  | 0,_,_ => .error .loop
  | turns + 1,format,s => do
    let (c,format) ← fmtConsume format
    if c = 0 then return s
    else if c ≠ '%'.toUInt8 then vsnprintfLoop turns format (produceRawChar s c)
    else
      let (d,args,format) ← consumeDirective format s.args
      let s ← produce d { s with args := args }
      vsnprintfLoop turns format s

def sprintfInit (mem : Bytes) (str size : ℕ) (args : List Arg) : Sprintf where
  mem := mem
  str := str
  start := str
  limit := if size = 0 then 0 else if size = FMT_NOLIMIT then 2 ^ 32 - 1 else sub (add str size) 1
  args := args
  counts := []

def sprintfFinalize (s : Sprintf) : Sprintf :=
  if s.str < s.limit then { s with mem := store s.mem s.str 0 }
  else if s.limit ≠ 0 then { s with mem := store s.mem s.limit 0 }
  else s

/-- The length returned, and the state at the end. -/
def fmtVsnprintf (mem : Bytes) (str size : ℕ) (format : Ptr) (args : List Arg) :
    Except Fault (ℕ × Sprintf) := do
  let s ← vsnprintfLoop format.length format (sprintfInit mem str size args)
  let s := sprintfFinalize s
  let length ← checkLength (sub s.str s.start)
  return (length,s)

def fmtVsprintf (mem : Bytes) (str : ℕ) (format : Ptr) (args : List Arg) : Except Fault (ℕ × Sprintf) :=
  fmtVsnprintf mem str FMT_NOLIMIT format args

end X1.Fmt
