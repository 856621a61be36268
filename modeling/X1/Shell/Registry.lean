import X1.Base.Chain
import X1.Fmt.Printf
import X1.String.Compare

/-! # The commands of lib/shell.c

A command is the address of its `struct shell_cmd`. Registered commands are linked twice: in
the chain of their bucket, in the order in which they came, and in a list that is sorted by
name. Strings stand without their NUL. The loops over the links are given a number of turns,
and `none` means that it was not enough. The mutex of the containers makes each of these
functions one step. What is printed is given as the list of what each `printf` writes.
-/
namespace X1.Shell
open X1.Word X1.CString X1.Chain X1.Fmt X1.FirstDifference

/-- What holds of the members of a list is decided by going through the list, also where the type
is finite: there are 256 bytes. -/
scoped instance (priority := 2000) decidableMembers {α : Type} {p : α → Prop} [DecidablePred p] (l : List α) :
    Decidable (∀ a ∈ l,p a) := List.decidableBAll p l

/-- The error codes of error.h that the shell uses. -/
inductive Error where
  | inval | again | nomem | exist
  deriving DecidableEq

def cstring (s : String) : List UInt8 := s.toList.map Char.toUInt8

/-- What `printf` writes to the console. -/
def printf (format : String) (args : List Arg) : Except Fault (List UInt8) :=
  consoleText (cstring format ++ [0]) args

def strArg (s : List UInt8) : Arg := .str (some (s ++ [0]))

/-- What `strcmp` of string.c returns for two strings. -/
def strcmp (a b : List UInt8) : ℤ := difference signed a b

/-- What `strncmp` returns. -/
def strncmp (a b : List UInt8) (n : ℕ) : ℤ := difference signed (a.take n) (b.take n)

def SHELL_HTABLE_BITS : ℕ := 6

/-- The links of the commands and the containers. -/
structure Registry where
  name : ℕ → List UInt8
  htNext : ℕ → Option ℕ
  lsNext : ℕ → Option ℕ
  htable : ℕ → Option ℕ
  list : Option ℕ

/-- `hash = ((hash << 5) - hash) + c` for the characters of a string, as `char` -/
def hashStr (str : List UInt8) (bits : ℕ) : ℕ :=
  str.foldl (fun hash c => add (sub (hash * 2 ^ 5 % 2 ^ 32) hash) (signed c % 2 ^ 32).toNat) 0 &&& (2 ^ bits - 1)

def shellBucketGet (name : List UInt8) : ℕ := hashStr name SHELL_HTABLE_BITS

def shellCmdLookup (turns : ℕ) (sh : Registry) (name : List UInt8) : Option (Option ℕ) :=
  find sh.htNext (fun cmd => strcmp (sh.name cmd) name = 0) turns (sh.htable (shellBucketGet name))

/-- The first command from `cmd` on that begins like the string -/
def shellCmdMatch (turns : ℕ) (sh : Registry) (cmd : Option ℕ) (str : List UInt8) (size : ℕ) : Option (Option ℕ) :=
  find sh.lsNext (fun cmd => strncmp (sh.name cmd) str size = 0) turns cmd

/-- What `shell_cmd_complete` returns: `ERROR_INVAL`, `0` or `ERROR_AGAIN`, and `*cmdp` and `*sizep`. -/
inductive Completion where
  | inval
  | single (cmd size : ℕ)
  | again (cmd size : ℕ)
  deriving DecidableEq

/-- `while ((a[size - 1] != '\0') && (a[size - 1] == b[size - 1])) size++;`, from the characters at `size - 1`
on; a character after the NUL is out of bounds. -/
def commonLoop : List UInt8 → List UInt8 → ℕ → Option ℕ
  | x :: xs,y :: ys,size => if x ≠ 0 ∧ x = y then commonLoop xs ys (size + 1) else some size
  | _,_,_ => none

def shellCmdComplete (turns : ℕ) (sh : Registry) (str : List UInt8) (size : ℕ) : Option Completion := do
  match ← shellCmdMatch turns sh sh.list str size with
  | none => return .inval
  | some cmd =>
    match sh.lsNext cmd with
    | none => return .single cmd (sh.name cmd).length
    | some next =>
      if strncmp (sh.name cmd) (sh.name next) size ≠ 0 then return .single cmd (sh.name cmd).length
      else
        let next ← seek sh.lsNext (fun c => strncmp (sh.name cmd) (sh.name c) size ≠ 0) turns next
        let size := if size = 0 then 1 else size
        let size ← commonLoop ((sh.name cmd ++ [0]).drop (size - 1)) ((sh.name next ++ [0]).drop (size - 1)) size
        return .again cmd (size - 1)

/-- What is printed from `tmp` on, `i` being the number of the match. -/
def printMatchesLoop (sh : Registry) (cmd size : ℕ) : ℕ → Option ℕ → ℕ → Option (List (Except Fault (List UInt8)))
  | 0,_,_ => none
  | turns + 1,tmp,i =>
    let last := if i % 4 ≠ 1 then [printf "\n" []] else []
    match tmp with
    | none => some last
    | some tmp =>
      if strncmp (sh.name cmd) (sh.name tmp) size ≠ 0 then some last
      else (printMatchesLoop sh cmd size turns (sh.lsNext tmp) (i + 1)).map fun out =>
        printf "%-16s" [strArg (sh.name tmp)] :: (if i % 4 = 0 then [printf "\n" []] else []) ++ out

def shellCmdPrintMatches (turns : ℕ) (sh : Registry) (cmd size : ℕ) : Option (List (Except Fault (List UInt8))) :=
  (printMatchesLoop sh cmd size turns (some cmd) 1).map (printf "\n" [] :: ·)

def shellCmdCheckChar (c : UInt8) : Bool :=
  ('a'.toUInt8 ≤ c && c ≤ 'z'.toUInt8) || ('A'.toUInt8 ≤ c && c ≤ 'Z'.toUInt8) ||
    ('0'.toUInt8 ≤ c && c ≤ '9'.toUInt8) || c = '-'.toUInt8 || c = '_'.toUInt8

def shellCmdCheck (name : List UInt8) : Bool := name.all shellCmdCheckChar && name ≠ []

def shellCmdAddList (turns : ℕ) (sh : Registry) (cmd : ℕ) : Option Registry :=
  match sh.list with
  | none => some { sh with list := some cmd, lsNext := Function.update sh.lsNext cmd none }
  | some prev =>
    if strcmp (sh.name cmd) (sh.name prev) < 0 then
      some { sh with list := some cmd, lsNext := Function.update sh.lsNext cmd (some prev) }
    else do
      let prev ← seek sh.lsNext (fun next => strcmp (sh.name cmd) (sh.name next) < 0) turns prev
      return { sh with
        lsNext := Function.update (Function.update sh.lsNext prev (some cmd)) cmd (sh.lsNext prev) }

/-- The last command of the chain, or a collision. -/
def bucketLoop (sh : Registry) (cmd : ℕ) : ℕ → ℕ → Option (Except Error ℕ)
  | 0,_ => none
  | turns + 1,tmp =>
    if strcmp (sh.name cmd) (sh.name tmp) = 0 then some (.error .exist)
    else
      match sh.htNext tmp with
      | none => some (.ok tmp)
      | some tmp => bucketLoop sh cmd turns tmp

/-- The error, if there is one, what is printed, and the containers. -/
def shellCmdAdd (turns : ℕ) (sh : Registry) (cmd : ℕ) :
    Option (Option Error × List (Except Fault (List UInt8)) × Registry) :=
  let bucket := shellBucketGet (sh.name cmd)
  match sh.htable bucket with
  | none => do
    let sh ← shellCmdAddList turns { sh with htable := Function.update sh.htable bucket (some cmd) } cmd
    return (none,[],sh)
  | some tmp => do
    match ← bucketLoop sh cmd turns tmp with
    | .error e =>
      return (some e,[printf "shell: error: %s: shell command name collision" [strArg (sh.name cmd)]],sh)
    | .ok tmp =>
      let sh ← shellCmdAddList turns { sh with htNext := Function.update sh.htNext tmp (some cmd) } cmd
      return (none,[],sh)

def shellCmdRegister (turns : ℕ) (sh : Registry) (cmd : ℕ) :
    Option (Option Error × List (Except Fault (List UInt8)) × Registry) :=
  if shellCmdCheck (sh.name cmd) then shellCmdAdd turns sh cmd else some (some .inval,[],sh)

end X1.Shell
