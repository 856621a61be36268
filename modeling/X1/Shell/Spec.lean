import X1.Base.CommonPrefix
import X1.Shell.Abstract
import X1.Shell.Editor
import X1.Shell.Commands

/-! # What the shell is for

A shell without arrays, links and loops: a line editor, the commands that have been
registered, the calls of their functions, and the lines that have been entered. `none` is a
shell that never reads another character.
-/
namespace X1.Shell
open X1.Display X1.CommonPrefix

/-- A character that is read, or something that another thread does in between: a registration, or a text
that it prints. -/
inductive Event where
  | char (byte : Option UInt8)
  | register (cmd : ℕ)
  | other (cs : List UInt8)

/-- `clean` is false where something that the editor does not know of has been printed since the last prompt. -/
structure Spec where
  editor : Editor
  escape : Escape
  seq : List UInt8
  cmds : List ℕ
  ran : List (ℕ × List (List UInt8))
  entered : List (List UInt8)
  clean : Bool

namespace Editor

/-- Where the first word begins. -/
def word (e : Editor) : ℕ := shellFindWord e.text

/-- What is before the cursor, from an index on, is replaced. -/
def fill (e : Editor) (start : ℕ) (name : List UInt8) : Editor :=
  { e with text := e.text.take start ++ name ++ e.text.drop e.cursor, cursor := start + name.length }

/-- The beginning of the first word, up to the cursor. -/
def typed (e : Editor) : List UInt8 := (e.text.drop e.word).take (e.cursor - e.word)

end Editor

/-- The keys that send a sequence. -/
inductive Key where
  | up | down | right | left | home | delete | toEnd
  deriving DecidableEq

def keyOf (seq : List UInt8) : Option Key :=
  if seq = cstring "A" then some .up
  else if seq = cstring "B" then some .down
  else if seq = cstring "C" then some .right
  else if seq = cstring "D" then some .left
  else if seq = cstring "H" then some .home
  else if seq = cstring "1~" then some .home
  else if seq = cstring "3~" then some .delete
  else if seq = cstring "F" then some .toEnd
  else if seq = cstring "4~" then some .toEnd
  else none

def Editor.press (e : Editor) : Option Key → Editor
  | none => e
  | some .up => e.up
  | some .down => e.down
  | some .right => e.right
  | some .left => e.left
  | some .home => e.home
  | some .delete => e.delete
  | some .toEnd => e.toEnd

namespace Spec
variable (name : ℕ → List UInt8)

/-- The line is given up, and there is a new prompt. -/
def giveUp (sp : Spec) : Spec := { sp with editor := sp.editor.reset, clean := true }

/-- What the typed beginning of a name is completed to. -/
def completion (cmds : List ℕ) (typed : List UInt8) : Option (List UInt8) :=
  match (cmds.map name).filter (typed.isPrefixOf ·) with
  | [] => none
  | names => some (commonAll names)

def tab (sp : Spec) : Option Spec :=
  let e := sp.editor
  if e.cursor < e.word then
    if ∃ c ∈ sp.cmds,name c = e.text.drop e.word then none else some sp
  else
    match completion name sp.cmds e.typed with
    | none => some sp
    | some new =>
      if e.word + new.length + (e.text.length - e.cursor) < 64 then some { sp with editor := e.fill e.word new }
      else some sp.giveUp

/-- The call that a line asks for. -/
def call (cmds : List ℕ) (text : List UInt8) : List (ℕ × List (List UInt8)) :=
  if (words text).length < 16 then
    match words text with
    | [] => []
    | w :: _ => ((cmds.find? (name · = w)).map fun cmd => (cmd,words text)).toList
  else []

def enter (sp : Spec) : Spec :=
  { sp with
    editor := sp.editor.enter, ran := sp.ran ++ call name sp.cmds sp.editor.text, entered := sp.entered ++ [sp.editor.text],
    clean := true }

def char (sp : Spec) (c : UInt8) : Option Spec :=
  match sp.escape with
  | .start => some { sp with escape := if c = '['.toUInt8 ∨ c = 'O'.toUInt8 then .csi else .none }
  | .csi =>
    if sp.seq.length ≥ 7 then some { sp with seq := [], escape := .none, clean := false }
    else if '@'.toUInt8 ≤ c ∧ c ≤ '~'.toUInt8 then
      some { sp with editor := sp.editor.press (keyOf (stringAt (sp.seq ++ [c]))), seq := [], escape := .none }
    else some { sp with seq := sp.seq ++ [c], escape := .csi }
  | .none =>
    if isPrint c then
      if sp.editor.text.length + 1 < 64 then some { sp with editor := sp.editor.insert c } else some sp.giveUp
    else if c = 0x1b then some { sp with escape := .start }
    else if c = 0x08 ∨ c = 0x7f then some { sp with editor := sp.editor.backspace }
    else if c = '\t'.toUInt8 then sp.tab name
    else if c = '\n'.toUInt8 ∨ c = '\r'.toUInt8 then some (sp.enter name)
    else some sp

def register (sp : Spec) (cmd : ℕ) : Spec :=
  if shellCmdCheck (name cmd) = false then sp
  else if ∃ c ∈ sp.cmds,name c = name cmd then { sp with clean := false }
  else { sp with cmds := sp.cmds ++ [cmd] }

def step (sp : Spec) : Event → Option Spec
  | .char byte => sp.char name (getchar byte)
  | .register cmd => some (sp.register name cmd)
  | .other _ => some { sp with clean := false }

/-- The prompt, with some commands registered. -/
def start (cmds : List ℕ) : Spec where
  editor := { entries := [], position := 0, text := [], cursor := 0 }
  escape := .none
  seq := []
  cmds := cmds
  ran := []
  entered := []
  clean := true

def run (sp : Spec) (events : List Event) : Option Spec := events.foldlM (step name) sp

end Spec

section
variable (turns : ℕ) (fn : State → ℕ → List (List UInt8) → List UInt8)

def step (s : State) : Event → Option State
  | .char byte => shellRunStep turns fn s byte
  | .register cmd => do
    let (_,outs,sh) ← shellCmdRegister turns s.registry cmd
    return { s.emitAll outs with registry := sh }
  | .other cs => some (s.print cs)

def run (s : State) (events : List Event) : Option State := events.foldlM (step turns fn) s

end

end X1.Shell
