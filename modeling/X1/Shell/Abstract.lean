import X1.Base.Display

/-! # A line editor with a history

What the shell is for: a text and a cursor in it, and the lines that were entered before,
the last twenty of them, without empty lines and without a line that repeats the one
before it. The way up and down through these lines replaces the text.
-/
namespace X1.Shell
open X1.Display

structure Editor where
  entries : List (List UInt8)
  position : ℕ
  text : List UInt8
  cursor : ℕ

namespace Editor
variable {e : Editor} {c : UInt8}

def insert (e : Editor) (c : UInt8) : Editor :=
  { e with text := e.text.take e.cursor ++ c :: e.text.drop e.cursor, cursor := e.cursor + 1 }

def backspace (e : Editor) : Editor :=
  if e.cursor = 0 then e
  else { e with text := e.text.take (e.cursor - 1) ++ e.text.drop e.cursor, cursor := e.cursor - 1 }

def left (e : Editor) : Editor := { e with cursor := e.cursor - 1 }

def right (e : Editor) : Editor := { e with cursor := min (e.cursor + 1) e.text.length }

def home (e : Editor) : Editor := { e with cursor := 0 }

def toEnd (e : Editor) : Editor := { e with cursor := e.text.length }

def delete (e : Editor) : Editor := if e.cursor < e.text.length then e.right.backspace else e

/-- Another text, with the cursor at its end. -/
def replace (e : Editor) (position : ℕ) (text : List UInt8) : Editor :=
  { e with position := position, text := text, cursor := text.length }

def up (e : Editor) : Editor :=
  if e.position = 0 then e.toEnd else e.replace (e.position - 1) (e.entries.getD (e.position - 1) [])

def down (e : Editor) : Editor :=
  if e.position = e.entries.length then e.toEnd else e.replace (e.position + 1) (e.entries.getD (e.position + 1) [])

/-- The line is remembered. -/
def remember (entries : List (List UInt8)) (text : List UInt8) : List (List UInt8) :=
  if text = [] ∨ entries.getLast? = some text then entries
  else (entries ++ [text]).drop (entries.length + 1 - 20)

/-- The line is entered, and the next one is empty. -/
def enter (e : Editor) : Editor where
  entries := remember e.entries e.text
  position := (remember e.entries e.text).length
  text := []
  cursor := 0

/-- The line is given up. -/
def reset (e : Editor) : Editor := { e with text := [], cursor := 0 }

/-- A text that has been typed. -/
def Typed (text : List UInt8) : Prop := text.length < 64 ∧ ∀ c ∈ text,isPrint c = true

structure Valid (e : Editor) : Prop where
  entries : e.entries.length ≤ 20
  lines : ∀ text ∈ e.entries,Typed text
  position : e.position ≤ e.entries.length
  text : Typed e.text
  cursor : e.cursor ≤ e.text.length

theorem Typed.nil : Typed [] := ⟨by decide,by simp⟩

theorem Typed.zero_not_mem {text : List UInt8} (h : Typed text) : 0 ∉ text := fun hzero =>
  absurd (h.2 0 hzero) (by decide)

theorem Valid.insert (h : e.Valid) (hc : isPrint c = true) (hroom : e.text.length + 1 < 64) : (e.insert c).Valid where
  entries := h.entries
  lines := h.lines
  position := h.position
  text := by
    refine ⟨?_,fun d hd => ?_⟩
    · simp [Editor.insert]
      omega
    · simp only [Editor.insert,List.mem_append,List.mem_cons] at hd
      rcases hd with hd | rfl | hd
      · exact h.text.2 d (List.mem_of_mem_take hd)
      · exact hc
      · exact h.text.2 d (List.mem_of_mem_drop hd)
  cursor := by
    have hcursor := h.cursor
    simp [Editor.insert]
    omega

theorem Valid.backspace (h : e.Valid) : e.backspace.Valid := by
  unfold Editor.backspace
  split_ifs with hzero
  · exact h
  · have hcursor := h.cursor
    have hroom := h.text.1
    refine ⟨h.entries,h.lines,h.position,⟨?_,fun c hc => ?_⟩,?_⟩
    · simp
      omega
    · rcases List.mem_append.mp hc with hc | hc
      · exact h.text.2 c (List.mem_of_mem_take hc)
      · exact h.text.2 c (List.mem_of_mem_drop hc)
    · simp
      omega

/-- The cursor goes anywhere in the text. -/
theorem Valid.move {k : ℕ} (h : e.Valid) (hk : k ≤ e.text.length) : ({ e with cursor := k } : Editor).Valid :=
  ⟨h.entries,h.lines,h.position,h.text,hk⟩

theorem Valid.replace {position : ℕ} {text : List UInt8} (h : e.Valid) (hposition : position ≤ e.entries.length)
    (htext : Typed text) : (e.replace position text).Valid :=
  ⟨h.entries,h.lines,hposition,htext,Nat.le_refl _⟩

theorem Valid.reset (h : e.Valid) : e.reset.Valid := ⟨h.entries,h.lines,h.position,.nil,Nat.le_refl _⟩

theorem length_remember {entries : List (List UInt8)} (text : List UInt8) (h : entries.length ≤ 20) :
    (remember entries text).length ≤ 20 := by
  unfold remember
  split_ifs with hsame
  · exact h
  · simp
    omega

theorem mem_remember {entries : List (List UInt8)} {text t : List UInt8} (h : t ∈ remember entries text) :
    t ∈ entries ∨ t = text := by
  unfold remember at h
  split_ifs at h with hsame
  · exact .inl h
  · simpa using List.mem_of_mem_drop h

theorem Valid.enter (h : e.Valid) : e.enter.Valid where
  entries := length_remember _ h.entries
  lines t ht := by
    rcases mem_remember ht with ht | rfl
    · exact h.lines t ht
    · exact h.text
  position := Nat.le_refl _
  text := .nil
  cursor := Nat.le_refl _

end Editor

end X1.Shell
