import X1.Base.Loop
import X1.Shell.Args

/-! # The line editor of lib/shell.c

The history, the cursor and the escape sequences: what the shell does with each character
it reads. The arrays of the history are its lines, and what is printed is recorded, and the
first fault of a format. Loops are given a number of turns, and `none` means that it was not
enough. What a command does is a parameter: it prints something.
-/
namespace X1.Shell
open X1.Word X1.CString X1.Loop X1.Fmt

def SHELL_HISTORY_SIZE : ℕ := 21

def SHELL_ESC_SEQ_MAX_SIZE : ℕ := 8

/-- `escape`: 0, `SHELL_ESC_STATE_START` or `SHELL_ESC_STATE_CSI` -/
inductive Escape where
  | none | start | csi
  deriving DecidableEq

/-- `seq` has the characters of an escape sequence, up to `ptr`. `out` records what is printed, `fault` the first
fault of a `printf`, and `ran` the calls of the functions of commands. -/
structure State where
  history : ℕ → Line
  newest : ℕ
  oldest : ℕ
  index : ℕ
  cursor : ℕ
  escape : Escape
  seq : List UInt8
  registry : Registry
  out : List UInt8
  fault : Option Fault
  ran : List (ℕ × List (List UInt8))

def State.print (s : State) (cs : List UInt8) : State := { s with out := s.out ++ cs }

def State.emit (s : State) (out : Except Fault (List UInt8)) : State :=
  match out with
  | .ok cs => s.print cs
  | .error fault => { s with fault := s.fault.or (some fault) }

def State.emitAll (s : State) (outs : List (Except Fault (List UInt8))) : State := outs.foldl State.emit s

def State.printf (s : State) (format : String) (args : List Arg) : State := s.emit (X1.Shell.printf format args)

def putchar (s : State) (c : UInt8) : State := s.print [c]

/-- `while (n != 0) { putchar('\b'); n--; }` -/
def putBackspaces (s : State) (n : ℕ) : State := s.print (List.replicate n 0x08)

/-! ## The history -/

def shellHistoryGet (s : State) (index : ℕ) : Line := s.history (index % SHELL_HISTORY_SIZE)

def shellHistoryGetNewest (s : State) : Line := shellHistoryGet s s.newest

def shellHistoryGetIndex (s : State) : Line := shellHistoryGet s s.index

def shellHistoryResetIndex (s : State) : State := { s with index := s.newest }

/-- The current line becomes another one. -/
def State.setNewest (s : State) (line : Line) : State :=
  { s with history := Function.update s.history (s.newest % SHELL_HISTORY_SIZE) line }

def shellHistorySameNewest (s : State) : Bool :=
  s.newest ≠ s.oldest ∧ shellLineCmp (shellHistoryGetNewest s) (shellHistoryGet s (sub s.newest 1)) = 0

def shellHistoryPush (s : State) : State :=
  if (shellHistoryGetNewest s).size = 0 ∨ shellHistorySameNewest s then shellHistoryResetIndex s
  else
    let s := shellHistoryResetIndex { s with newest := add s.newest 1 }
    if sub s.newest s.oldest ≥ SHELL_HISTORY_SIZE then { s with oldest := add (sub s.newest SHELL_HISTORY_SIZE) 1 }
    else s

def shellHistoryBack (s : State) : State :=
  if s.index = s.oldest then s
  else
    let s := { s with index := sub s.index 1 }
    s.setNewest (shellLineCopy (shellHistoryGetNewest s) (shellHistoryGetIndex s))

def shellHistoryForward (s : State) : State :=
  if s.index = s.newest then s
  else
    let s := { s with index := add s.index 1 }
    if s.index = s.newest then s.setNewest (shellLineReset (shellHistoryGetNewest s))
    else s.setNewest (shellLineCopy (shellHistoryGetNewest s) (shellHistoryGetIndex s))

/-! ## The current line -/

def shellPrompt (s : State) : State := s.printf "shell> " []

def shellReset (s : State) : State :=
  shellPrompt { s.setNewest (shellLineReset (shellHistoryGetNewest s)) with cursor := 0 }

def shellErase (turns : ℕ) (s : State) : Option State := do
  let remainingChars := (shellHistoryGetNewest s).size
  let s ← whileLoop (fun s => s.cursor ≠ remainingChars)
    (fun s => { putchar s ' '.toUInt8 with cursor := add s.cursor 1 }) turns s
  let s := (State.printf · "\x08 \x08" [])^[remainingChars] s
  return { s with cursor := 0 }

def shellRestore (s : State) : State :=
  let currentLine := shellHistoryGetNewest s
  { s.printf "%s" [.str (some (currentLine.chars 0))] with cursor := currentLine.size }

/-- `char` is signed. -/
def shellIsCtrlChar (c : UInt8) : Bool := signed c < 0x20 || 0x7f ≤ signed c

def shellProcessLeft (s : State) : State :=
  if s.cursor = 0 then s else { s with cursor := sub s.cursor 1 }.printf "\x1b[1D" []

def shellProcessRight (s : State) : Option Error × State :=
  if s.cursor ≥ (shellHistoryGetNewest s).size then (some .again,s)
  else (none,{ s with cursor := add s.cursor 1 }.printf "\x1b[1C" [])

def shellProcessUp (turns : ℕ) (s : State) : Option State := do
  let s ← shellErase turns s
  return shellRestore (shellHistoryBack s)

def shellProcessDown (turns : ℕ) (s : State) : Option State := do
  let s ← shellErase turns s
  return shellRestore (shellHistoryForward s)

def shellProcessBackspace (s : State) : State :=
  match shellLineErase (shellHistoryGetNewest s) (sub s.cursor 1) with
  | .error _ => s
  | .ok line =>
    let s := { s.setNewest line with cursor := sub s.cursor 1 }
    let s := s.printf "\x08%s " [.str (some (line.chars s.cursor))]
    putBackspaces s (add (sub line.size s.cursor) 1)

def shellProcessRawChar (s : State) (c : UInt8) : Option Error × State :=
  match shellLineInsert (shellHistoryGetNewest s) s.cursor c with
  | .error e => (some e,s.printf "\nshell: line too long\n" [])
  | .ok line =>
    let s := { s.setNewest line with cursor := add s.cursor 1 }
    if s.cursor = line.size then (none,putchar s c)
    else
      let s := s.printf "%s" [.str (some (line.chars (sub s.cursor 1)))]
      (none,putBackspaces s (sub line.size s.cursor))

/-! ## Completion -/

/-- The number of separators before the first word. -/
def shellFindWord (str : List UInt8) : ℕ := (str.takeWhile (· = SHELL_SEPARATOR)).length

/-- `for (i = 0; i < size; i++) { error = shell_process_raw_char(name[i]); if (error) goto out; }` -/
def insertName : List UInt8 → State → Option Error × State
  | [],s => (none,s)
  | c :: cs,s =>
    match shellProcessRawChar s c with
    | (some e,s) => (some e,s)
    | (none,s) => insertName cs s

/-- The end of `shell_process_tabulation`. -/
def replaceWord (turns : ℕ) (s : State) (cmd size cmdCursor : ℕ) : Option (Option Error × State) := do
  let s ← whileLoop (fun s => s.cursor ≠ cmdCursor) shellProcessBackspace turns s
  return insertName ((s.registry.name cmd).take size) s

def shellProcessTabulation (turns : ℕ) (s : State) : Option (Option Error × State) := do
  let str := shellLineStr (shellHistoryGetNewest s)
  let word := shellFindWord str
  let size := sub s.cursor word
  let cmdCursor := sub s.cursor size
  match ← shellCmdComplete turns s.registry (str.drop word) size with
  | .inval => return (none,s)
  | .single cmd size => replaceWord turns s cmd size cmdCursor
  | .again cmd size =>
    let cursor := s.cursor
    let outs ← shellCmdPrintMatches turns s.registry cmd size
    let s := shellRestore (shellPrompt (s.emitAll outs))
    let s ← whileLoop (fun s => s.cursor ≠ cursor) shellProcessLeft turns s
    replaceWord turns s cmd size cmdCursor

/-! ## Escape sequences -/

def shellEscSeqHome (turns : ℕ) (s : State) : Option State :=
  whileLoop (fun s => s.cursor ≠ 0) shellProcessLeft turns s

def shellEscSeqDel (s : State) : State :=
  match shellProcessRight s with
  | (some _,s) => s
  | (none,s) => shellProcessBackspace s

def shellEscSeqEnd (turns : ℕ) (s : State) : Option State :=
  let size := (shellHistoryGetNewest s).size
  whileLoop (fun s => s.cursor < size) (fun s => (shellProcessRight s).2) turns s

def shellEscSeqs (turns : ℕ) : List (String × (State → Option State)) :=
  [("A",shellProcessUp turns),("B",shellProcessDown turns),("C",fun s => some (shellProcessRight s).2),
    ("D",fun s => some (shellProcessLeft s)),("H",shellEscSeqHome turns),("1~",shellEscSeqHome turns),
    ("3~",fun s => some (shellEscSeqDel s)),("F",shellEscSeqEnd turns),("4~",shellEscSeqEnd turns)]

def shellEscSeqLookup (turns : ℕ) (str : List UInt8) : Option (State → Option State) :=
  ((shellEscSeqs turns).find? fun seq => strcmp (cstring seq.1) str = 0).map (·.2)

def shellProcessEscSequence (turns : ℕ) (s : State) (c : UInt8) : Option State :=
  if s.seq.length ≥ SHELL_ESC_SEQ_MAX_SIZE - 1 then
    some { s.printf "shell: escape sequence too long\n" [] with seq := [], escape := .none }
  else
    let seq := s.seq ++ [c]
    if '@'.toUInt8 ≤ c ∧ c ≤ '~'.toUInt8 then do
      let s ← ((shellEscSeqLookup turns (stringAt seq)).getD some) s
      return { s with seq := [], escape := .none }
    else some { s with seq := seq, escape := .csi }

/-! ## The shell -/

section
variable (turns : ℕ) (fn : State → ℕ → List (List UInt8) → List UInt8)

def shellProcessLine (s : State) : Option State := do
  let (outs,args) := shellProcessArgs (shellHistoryGetNewest s)
  let s := s.emitAll outs
  match args with
  | .error _ => return shellHistoryPush s
  | .ok [] => return shellHistoryPush s
  | .ok (name :: args) =>
    match ← shellCmdLookup turns s.registry name with
    | none => return shellHistoryPush (s.printf "shell: %s: command not found\n" [strArg name])
    | some cmd =>
      let s := shellHistoryPush s
      return { s.print (fn s cmd (name :: args)) with ran := s.ran ++ [(cmd,name :: args)] }

def shellProcessCtrlChar (s : State) (c : UInt8) : Option (Option Error × State) :=
  if c = 0x08 ∨ c = 0x7f then some (none,shellProcessBackspace s)
  else if c = '\t'.toUInt8 then shellProcessTabulation turns s
  else if c = '\n'.toUInt8 ∨ c = '\r'.toUInt8 then
    (shellProcessLine turns fn (putchar s '\n'.toUInt8)).map fun s => (some .again,s)
  else some (none,s)

/-- The byte as a `char`; `EOF` is none of those that are looked for, and neither is its `char`. -/
def getchar (byte : Option UInt8) : UInt8 := byte.getD 0xff

/-- The outer loop of `shell_run`, up to the next character. -/
def restart (s : State) : State := { shellReset s with escape := .none }

/-- What `shell_run` does with a character. -/
def shellRunStep (s : State) (byte : Option UInt8) : Option State := do
  let c := getchar byte
  match s.escape with
  | .start => return { s with escape := if c = '['.toUInt8 ∨ c = 'O'.toUInt8 then .csi else .none }
  | .csi => shellProcessEscSequence turns s c
  | .none =>
    if shellIsCtrlChar c then
      if c = 0x1b then return { s with escape := .start }
      else
        let (error,s) ← shellProcessCtrlChar turns fn s c
        return if error.isSome then restart s else s
    else
      let (error,s) := shellProcessRawChar s c
      return if error.isSome then restart s else s

end

/-- `shell_run` before the first character: the static lines are zero, and `guard` is what is beyond them. -/
def start (guard : ℕ → Bytes) (registry : Registry) : State :=
  restart
    { history := fun slot => ⟨fun a => if a < SHELL_LINE_MAX_SIZE then 0 else guard slot a,0⟩, newest := 0, oldest := 0,
      index := 0, cursor := 0, escape := .none, seq := [], registry := registry, out := [], fault := none, ran := [] }

end X1.Shell
