import X1.Fmt.Model

/-! # The formatted input of lib/fmt.c

The string is a cursor, as a character that was consumed can be restored. A width that
is used up makes the end of the field look like `EOF`. What is stored through the
arguments is a list, in the order of the stores; that a destination has the type and
the room its conversion needs is the caller's business.
-/
namespace X1.Fmt

/-- A pointer into a string: the characters before it, the nearest first, and those from it on. -/
structure Cursor where
  passed : List UInt8
  rest : Ptr
  deriving DecidableEq

/-- What a conversion stores: a number, the characters of `%c`, a string or a count. -/
inductive Stored where
  | int (modifier : Modifier) (n : ℕ)
  | chars (cs : List UInt8)
  | str (cs : List UInt8)
  | count (n : ℕ)
  deriving DecidableEq

/-- `struct fmt_sscanf_state`, with the pointers that are left among the arguments. -/
structure Sscanf where
  str : Cursor
  args : ℕ
  discard : Bool := false
  checkWidth : Bool := false
  convSigned : Bool := false
  width : ℕ := 0
  modifier : Modifier := .none
  specifier : Specifier := .invalid
  base : ℕ := 0
  nrConvs : ℤ := 0
  stores : List Stored := []
  deriving DecidableEq

def EOF : ℤ := -1

/-- `EOF` as a `char` -/
def eofChar : UInt8 := 0xff

def fmtIsspace (c : UInt8) : Bool := c = ' '.toUInt8 || ('\t'.toUInt8 ≤ c && c ≤ 0x0c)

def fmtAtoi (c : UInt8) : Except Fault ℕ :=
  if fmtIsxdigit c then
    if fmtIsdigit c then .ok (c - '0'.toUInt8).toNat
    else if 'a'.toUInt8 ≤ c && c ≤ 'f'.toUInt8 then .ok (10 + (c - 'a'.toUInt8).toNat)
    else .ok (10 + (c - 'A'.toUInt8).toNat)
  else .error .assertion

def Cursor.consume (s : Cursor) : Except Fault (UInt8 × Cursor) :=
  match s.rest with
  | [] => .error .bounds
  | c :: rest => .ok (c,⟨c :: s.passed,rest⟩)

def Cursor.restore (s : Cursor) : Except Fault Cursor :=
  match s.passed with
  | [] => .error .bounds
  | c :: passed => .ok ⟨passed,c :: s.rest⟩

def skip (passed : List UInt8) : Ptr → Except Fault Cursor
  | [] => .error .bounds
  | c :: rest => if fmtIsspace c then skip (c :: passed) rest else .ok ⟨passed,c :: rest⟩

def fmtSkip (s : Cursor) : Except Fault Cursor := skip s.passed s.rest

def reportConv (s : Sscanf) : Sscanf :=
  { s with nrConvs := if s.nrConvs = EOF then 1 else s.nrConvs + 1 }

def reportError (s : Sscanf) : Sscanf := if s.nrConvs ≠ 0 then s else { s with nrConvs := EOF }

def skipSpace (s : Sscanf) : Except Fault Sscanf := do
  let str ← fmtSkip s.str
  return { s with str := str }

def consumeString (s : Sscanf) : Except Fault (UInt8 × Sscanf) := do
  let (c,str) ← s.str.consume
  if s.checkWidth then
    if s.width = 0 then return (eofChar,{ s with str := str })
    else return (c,{ s with str := str, width := s.width - 1 })
  else return (c,{ s with str := str })

def restoreString (s : Sscanf) : Except Fault Sscanf := do
  let str ← s.str.restore
  return { s with str := str }

/-- A store through the next argument -/
def storeArg (s : Sscanf) (x : Stored) : Except Fault Sscanf :=
  match s.args with
  | 0 => .error .argument
  | args + 1 => .ok { s with args := args, stores := s.stores ++ [x] }

/-! ## The format -/

def scanFlags (discard : Bool) : Ptr → Except Fault (Bool × Ptr)
  | [] => .error .bounds
  | c :: s => if c = '*'.toUInt8 then scanFlags true s else .ok (discard,c :: s)

def scanModifier (s : Ptr) : Except Fault (Modifier × Ptr) := do
  let (c,rest) ← fmtConsume s
  if c = 'h'.toUInt8 then
    let (c2,rest') ← fmtConsume rest
    if c = c2 then return (.char,rest') else return (.short,rest)
  else if c = 'l'.toUInt8 then
    let (c2,rest') ← fmtConsume rest
    if c = c2 then return (.longlong,rest') else return (.long,rest)
  else if c = 'z'.toUInt8 then return (.size,rest)
  else if c = 't'.toUInt8 then return (.ptrdiff,rest)
  else return (.none,s)

/-- `base` and `modifier` keep what they had where the specifier does not set them. -/
def scanSpecify (c : UInt8) (s : Sscanf) : Option Sscanf :=
  if c = 'i'.toUInt8 then some { s with base := 0, convSigned := true, specifier := .int }
  else if c = 'd'.toUInt8 then some { s with base := 10, convSigned := true, specifier := .int }
  else if c = 'u'.toUInt8 then some { s with base := 10, specifier := .int }
  else if c = 'o'.toUInt8 then some { s with base := 8, specifier := .int }
  else if c = 'p'.toUInt8 then some { s with modifier := .ptr, base := 16, specifier := .int }
  else if c = 'x'.toUInt8 ∨ c = 'X'.toUInt8 then some { s with base := 16, specifier := .int }
  else if c = 'c'.toUInt8 then some { s with specifier := .char }
  else if c = 's'.toUInt8 then some { s with specifier := .str }
  else if c = 'n'.toUInt8 then some { s with specifier := .nrchars }
  else if c = '%'.toUInt8 then some { s with specifier := .percent }
  else none

def scanDirective (format : Ptr) (s : Sscanf) : Except Fault (Sscanf × Ptr) := do
  let (discard,format) ← scanFlags false format
  let (width,format) ← consumeNumber 0 format
  let (modifier,format) ← scanModifier format
  let s := { s with
    discard := discard
    checkWidth := width ≠ 0
    convSigned := false
    width := width
    modifier := modifier }
  let (c,rest) ← fmtConsume format
  match scanSpecify c s with
  | some s => return (s,rest)
  | none => return ({ s with specifier := .invalid },format)

/-- Whether the character of the format is there. -/
def discardChar (s : Sscanf) (c : UInt8) : Except Fault (Bool × Sscanf) := do
  if fmtIsspace c then
    let s ← skipSpace s
    return (true,s)
  else
    let (c2,s) ← consumeString s
    if c ≠ c2 then
      if c2 = 0 ∧ s.nrConvs = 0 then return (false,{ s with nrConvs := EOF })
      else return (false,s)
    else return (true,s)

/-! ## The conversions -/

def baseDigit (base : ℕ) (c : UInt8) : Bool :=
  if base = 8 then '0'.toUInt8 ≤ c && c ≤ '7'.toUInt8
  else if base = 16 then fmtIsxdigit c
  else fmtIsdigit c

/-- What the loop over the digits has: `buf`, `i` and `negative`. -/
structure Digits where
  buf : List UInt8
  i : ℕ
  negative : Bool
  deriving DecidableEq

/-- A number with too many digits is replaced by `1`, and becomes `-1`. -/
def collect (g : Digits) (c : UInt8) : Digits :=
  if g.i < FMT_MAX_NUM_SIZE - 1 then { g with buf := g.buf ++ [c], i := g.i + 1 }
  else if g.i = FMT_MAX_NUM_SIZE - 1 then { buf := ['1'.toUInt8], i := g.i + 1, negative := true }
  else { g with i := g.i + 1 }

/-- `while (c != '\0')`, up to a character that is no digit, which is returned; `turns` bounds the loop. -/
def collectLoop : ℕ → UInt8 → Digits → Sscanf → Except Fault (UInt8 × Digits × Sscanf)
  | 0,_,_,_ => .error .loop
  | turns + 1,c,g,s => do
    if c ≠ 0 ∧ baseDigit s.base c then
      let (c',s) ← consumeString s
      collectLoop turns c' (collect g c) s
    else return (c,g,s)

/-- The first character that is no sign, and whether there is a sign. -/
def scanSign (s : Sscanf) : Except Fault (UInt8 × Bool × Sscanf) := do
  let (c,s) ← consumeString s
  if c = '-'.toUInt8 then
    let (c,s) ← consumeString s
    return (c,true,s)
  else return (c,false,s)

/-- What `c == '0'` leads to: the mark of a base is passed. The base of `%i` is set here only. -/
def scanMark (c : UInt8) (s : Sscanf) : Except Fault (UInt8 × Sscanf) := do
  if c = '0'.toUInt8 then
    let (c,s) ← consumeString s
    if c = 'x'.toUInt8 ∨ c = 'X'.toUInt8 then
      let s := if s.base = 0 then { s with base := 16 } else s
      if s.base = 16 then consumeString s
      else
        let s ← restoreString s
        return ('0'.toUInt8,s)
    else
      let s := if s.base = 0 then { s with base := 8 } else s
      if s.base ≠ 8 then
        let s ← restoreString s
        return ('0'.toUInt8,s)
      else return (c,s)
  else return (c,s)

/-- The number from its last digit on, in `bits` bits, and whether it overflowed and became `1`. -/
def accumulate (bits base : ℕ) : List UInt8 → ℕ → ℕ → Except Fault (ℕ × Bool)
  | [],n,_ => .ok (n,false)
  | c :: cs,n,m => do
    let v ← fmtAtoi c
    let tmp := (n + v * m) % 2 ^ bits
    if tmp < n then return (1,true) else accumulate bits base cs tmp (m * base % 2 ^ bits)

/-- `false` ends the scan. -/
def scanInt (s : Sscanf) : Except Fault (Bool × Sscanf) := do
  let s ← skipSpace s
  let (c,negative,s) ← scanSign s
  let (c,s) ← scanMark c s
  let (c,g,s) ← collectLoop (s.str.rest.length + 1) c ⟨[],0,negative⟩ s
  let s ← restoreString s
  if s.discard then return (true,s)
  else if g.i = 0 ∧ c = 0 then return (false,reportError s)
  else
    let buf := if g.i = 0 then ['0'.toUInt8] else g.buf
    let bits := if s.modifier = .longlong then 64 else 32
    let (n,overflow) ← accumulate bits s.base buf.reverse 0 1
    let n := if g.negative ∨ overflow then (2 ^ 64 - n) % 2 ^ 64 else n
    let s ← storeArg s (.int s.modifier (n % 2 ^ argBits s.modifier))
    return (true,reportConv s)

/-- `for (i = 0; i < width; i++)` with `left = width - i`: whether the field was filled, and the characters -/
def charLoop : ℕ → List UInt8 → Sscanf → Except Fault (Bool × List UInt8 × Sscanf)
  | 0,cs,s => .ok (true,cs,s)
  | left + 1,cs,s => do
    let (c,s) ← consumeString s
    if c = 0 ∨ c = eofChar then return (false,cs,s) else charLoop left (cs ++ [c]) s

def scanChar (s : Sscanf) : Except Fault (Bool × Sscanf) := do
  let (filled,cs,s) ← charLoop (if s.checkWidth then s.width else 1) [] s
  let s ← if filled then pure s else restoreString s
  if s.discard then return (true,s)
  else
    let s ← storeArg s (.chars cs)
    if cs ≠ [] then return (true,reportConv s) else return (true,s)

/-- The characters up to a space, a NUL or the end of the field -/
def strLoop : ℕ → List UInt8 → Sscanf → Except Fault (List UInt8 × Sscanf)
  | 0,_,_ => .error .loop
  | turns + 1,cs,s => do
    let (c,s) ← consumeString s
    if c = 0 ∨ c = ' '.toUInt8 ∨ c = eofChar then return (cs,s) else strLoop turns (cs ++ [c]) s

/-- The characters are stored before it is known whether the conversion fails. -/
def scanStr (s : Sscanf) : Except Fault (Bool × Sscanf) := do
  let orig := s.str
  let s ← skipSpace s
  let (cs,s) ← strLoop (s.str.rest.length + 1) [] s
  let s ← restoreString s
  if s.str = orig then
    let s ← if s.discard then pure s else storeArg s (.chars cs)
    return (false,reportError s)
  else if s.discard then return (true,s)
  else
    let s ← storeArg s (.str cs)
    return (true,reportConv s)

def scanNrchars (s : Sscanf) : Except Fault (Bool × Sscanf) := do
  let length ← checkLength s.str.passed.length
  let s ← storeArg s (.count length)
  return (true,s)

def scanProduce (s : Sscanf) : Except Fault (Bool × Sscanf) :=
  match s.specifier with
  | .int => scanInt s
  | .char => scanChar s
  | .str => scanStr s
  | .nrchars => scanNrchars s
  | .percent => do
    let s ← skipSpace s
    discardChar s '%'.toUInt8
  | .invalid => .ok (false,reportError s)

def vsscanfLoop : ℕ → Ptr → Sscanf → Except Fault Sscanf
  | 0,_,_ => .error .loop
  | turns + 1,format,s => do
    let s := { s with discard := false, checkWidth := false, convSigned := false }
    let (c,format) ← fmtConsume format
    if c = 0 then return s
    else if c ≠ '%'.toUInt8 then
      let (goOn,s) ← discardChar s c
      if goOn then vsscanfLoop turns format s else return s
    else
      let (s,format) ← scanDirective format s
      let (goOn,s) ← scanProduce s
      if goOn then vsscanfLoop turns format s else return s

/-- The number of conversions, or `EOF`, and the state at the end. -/
def fmtVsscanf (str format : Ptr) (args : ℕ) : Except Fault (ℤ × Sscanf) := do
  let s ← vsscanfLoop format.length format { str := ⟨[],str⟩, args := args }
  return (s.nrConvs,s)

end X1.Fmt
