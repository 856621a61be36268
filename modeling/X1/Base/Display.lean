import Mathlib.Data.List.Basic

/-! # A row of a terminal

The terminal has a current row, which is as long as it needs to be, and a column in it: a
printable character replaces the one in its column, a backspace and the two sequences of the
cursor only move the column, and a new line starts at the first column. No other character
does anything. A part of the row that follows a fixed beginning is edited by what is printed
at its column.
-/
namespace X1.Display

/-- `pending` is the beginning of a sequence that has been received. -/
structure Terminal where
  row : List UInt8
  column : ℕ
  pending : List UInt8

def isPrint (c : UInt8) : Bool := 0x20 ≤ c && c ≤ 0x7e

/-- The character in a column, to the left of which there are blanks at least. -/
def Terminal.put (t : Terminal) (c : UInt8) : Terminal where
  row := (t.row ++ List.replicate (t.column + 1 - t.row.length) 0x20).set t.column c
  column := t.column + 1
  pending := []

/-- `ESC [ 1 D` -/
def cursorBack : List UInt8 := [0x1b,0x5b,0x31,0x44]

/-- `ESC [ 1 C` -/
def cursorForward : List UInt8 := [0x1b,0x5b,0x31,0x43]

/-- A character that comes when no sequence is pending. -/
def Terminal.control (t : Terminal) (c : UInt8) : Terminal :=
  if c = 0x1b then { t with pending := [c] }
  else if c = 0x0a then { row := [], column := 0, pending := [] }
  else if c = 0x08 then { t with column := t.column - 1 }
  else if isPrint c then t.put c
  else t

def Terminal.write (t : Terminal) (c : UInt8) : Terminal :=
  if t.pending = [] then t.control c
  else if t.pending ++ [c] = cursorBack then { t with column := t.column - 1, pending := [] }
  else if t.pending ++ [c] = cursorForward then { t with column := t.column + 1, pending := [] }
  else if t.pending ++ [c] <+: cursorBack ∨ t.pending ++ [c] <+: cursorForward then
    { t with pending := t.pending ++ [c] }
  else { t with pending := [] }

def Terminal.feed (t : Terminal) (cs : List UInt8) : Terminal := cs.foldl Terminal.write t

section
variable {t : Terminal} {cs ds pre shown : List UInt8} {c : UInt8} {k n : ℕ}

theorem feed_append (t : Terminal) (cs ds : List UInt8) : t.feed (cs ++ ds) = (t.feed cs).feed ds :=
  List.foldl_append

/-- No sequence is pending. -/
def Calm (t : Terminal) : Prop := t.pending = []

/-- What is printed ends with no sequence pending. -/
def Complete (cs : List UInt8) : Prop := ∀ t,Calm t → Calm (t.feed cs)

/-- The next character comes at the end of the row. -/
def AtEnd (t : Terminal) : Prop := Calm t ∧ t.column = t.row.length

/-- Printable characters and new lines. -/
def Plain (cs : List UInt8) : Prop := ∀ c ∈ cs,isPrint c = true ∨ c = 0x0a

instance : Decidable (Plain cs) := List.decidableBAll (fun c => isPrint c = true ∨ c = 0x0a) cs

/-- After a fixed beginning, the row shows a text and blanks, and the column is in or after the text. -/
def Showing (pre shown : List UInt8) (k : ℕ) (t : Terminal) : Prop :=
  Calm t ∧ (∃ n,t.row = pre ++ shown ++ List.replicate n 0x20) ∧ t.column = pre.length + k

theorem write_calm (ht : Calm t) (c : UInt8) : t.write c = t.control c := if_pos ht

theorem write_print (ht : Calm t) (hc : isPrint c = true) : t.write c = t.put c := by
  have h1 : c ≠ 0x1b := by rintro rfl; exact absurd hc (by decide)
  have h2 : c ≠ 0x0a := by rintro rfl; exact absurd hc (by decide)
  have h3 : c ≠ 0x08 := by rintro rfl; exact absurd hc (by decide)
  rw [write_calm ht,Terminal.control,if_neg h1,if_neg h2,if_neg h3,if_pos hc]

theorem write_newline (ht : Calm t) : t.write 0x0a = { row := [], column := 0, pending := [] } := by
  rw [write_calm ht]
  rfl

theorem write_backspace (ht : Calm t) : t.write 0x08 = { t with column := t.column - 1 } := by
  rw [write_calm ht]
  rfl

theorem feed_cursorBack (ht : Calm t) : t.feed cursorBack = { t with column := t.column - 1 } := by
  obtain ⟨row,column,pending⟩ := t
  obtain rfl : pending = [] := ht
  rfl

theorem feed_cursorForward (ht : Calm t) : t.feed cursorForward = { t with column := t.column + 1 } := by
  obtain ⟨row,column,pending⟩ := t
  obtain rfl : pending = [] := ht
  rfl

/-! ## What is complete -/

theorem Complete.append (hcs : Complete cs) (hds : Complete ds) : Complete (cs ++ ds) := by
  intro t ht
  rw [feed_append]
  exact hds _ (hcs t ht)

theorem Complete.nil : Complete [] := fun _ ht => ht

theorem Complete.of_write (h : ∀ c ∈ cs,isPrint c = true ∨ c = 0x0a ∨ c = 0x08) : Complete cs := by
  intro t ht
  induction cs generalizing t with
  | nil => exact ht
  | cons c cs ih =>
    refine ih (fun d hd => h d (by simp [hd])) (t.write c) ?_
    rcases h c (by simp) with hc | rfl | rfl
    · rw [write_print ht hc]
      rfl
    · rw [write_newline ht]
      rfl
    · rw [write_backspace ht]
      exact ht

theorem Plain.append (hcs : Plain cs) (hds : Plain ds) : Plain (cs ++ ds) := fun c hc =>
  (List.mem_append.mp hc).elim (hcs c) (hds c)

theorem Plain.complete (h : Plain cs) : Complete cs := .of_write fun c hc => (h c hc).imp id .inl

theorem Complete.cursorBack : Complete cursorBack := by
  intro t ht
  rw [feed_cursorBack ht]
  exact ht

theorem Complete.cursorForward : Complete cursorForward := by
  intro t ht
  rw [feed_cursorForward ht]
  exact ht

/-- Plain text is added to the end of the row, or starts other ones. -/
theorem AtEnd.plain (ht : AtEnd t) (h : Plain cs) : AtEnd (t.feed cs) := by
  induction cs generalizing t with
  | nil => exact ht
  | cons c cs ih =>
    refine ih ?_ fun d hd => h d (by simp [hd])
    rcases h c (by simp) with hc | rfl
    · rw [write_print ht.1 hc]
      refine ⟨rfl,?_⟩
      simp [Terminal.put,ht.2]
    · rw [write_newline ht.1]
      exact ⟨rfl,rfl⟩

theorem atEnd_newline (ht : Calm t) (h : Plain cs) : AtEnd (t.feed (0x0a :: cs)) := by
  have hstart : AtEnd (t.write 0x0a) := by
    rw [write_newline ht]
    exact ⟨rfl,rfl⟩
  exact hstart.plain h

/-! ## What the row shows -/

theorem feed_print {left old : List UInt8} (hpending : Calm t) (hrow : t.row = left ++ old) (hcolumn : t.column = left.length)
    (h : ∀ c ∈ cs,isPrint c = true) :
    t.feed cs = { row := left ++ cs ++ old.drop cs.length, column := left.length + cs.length, pending := [] } := by
  induction cs generalizing t left old with
  | nil =>
    obtain ⟨row,column,pending⟩ := t
    obtain rfl : pending = [] := hpending
    simp only at hrow hcolumn
    simp [Terminal.feed,hrow,hcolumn]
  | cons c cs ih =>
    have hput : t.write c = { row := (left ++ [c]) ++ old.drop 1, column := (left ++ [c]).length, pending := [] } := by
      rw [write_print hpending (h c (by simp)),Terminal.put,hrow,hcolumn]
      congr 1
      · cases old with
        | nil => simp
        | cons o old => simp
      · simp
    change (t.write c).feed cs = _
    have hcalm : Calm { row := (left ++ [c]) ++ old.drop 1, column := (left ++ [c]).length, pending := [] } := rfl
    rw [hput,ih hcalm rfl rfl fun d hd => h d (by simp [hd])]
    congr 1
    · simp
    · simp
      omega

/-- What is printed in the column replaces as much of the text. -/
theorem Showing.print (ht : Showing pre shown k t) (cs : List UInt8) (hk : k ≤ shown.length) (h : ∀ c ∈ cs,isPrint c = true) :
    Showing pre (shown.take k ++ cs ++ shown.drop (k + cs.length)) (k + cs.length) (t.feed cs) := by
  obtain ⟨hcalm,⟨n,hrow⟩,hcolumn⟩ := ht
  have hsplit : t.row = (pre ++ shown.take k) ++ (shown.drop k ++ List.replicate n 0x20) := by
    rw [hrow,List.append_assoc,List.append_assoc,← List.append_assoc (shown.take k),List.take_append_drop]
  have hlen : (pre ++ shown.take k).length = pre.length + k := by
    rw [List.length_append,List.length_take,Nat.min_eq_left hk]
  rw [feed_print hcalm hsplit (hcolumn.trans hlen.symm) h]
  refine ⟨rfl,⟨n - (cs.length - (shown.drop k).length),?_⟩,?_⟩
  · simp [List.drop_append]
  · simp only [hlen]
    omega

theorem Showing.back (ht : Showing pre shown k t) (hn : n ≤ k) :
    Showing pre shown (k - n) (t.feed (List.replicate n 0x08)) := by
  induction n generalizing k t with
  | zero => exact ht
  | succ n ih =>
    have hstep : Showing pre shown (k - 1) (t.write 0x08) := by
      obtain ⟨hcalm,hrow,hcolumn⟩ := ht
      rw [write_backspace hcalm]
      exact ⟨hcalm,hrow,by simp only [hcolumn]; omega⟩
    have hrest := ih hstep (by omega)
    rwa [Nat.sub_sub,Nat.add_comm 1] at hrest

theorem Showing.cursorBack (ht : Showing pre shown (k + 1) t) : Showing pre shown k (t.feed cursorBack) := by
  obtain ⟨hcalm,hrow,hcolumn⟩ := ht
  rw [feed_cursorBack hcalm]
  exact ⟨hcalm,hrow,by simp only [hcolumn]; omega⟩

theorem Showing.cursorForward (ht : Showing pre shown k t) : Showing pre shown (k + 1) (t.feed cursorForward) := by
  obtain ⟨hcalm,hrow,hcolumn⟩ := ht
  rw [feed_cursorForward hcalm]
  exact ⟨hcalm,hrow,by simp only [hcolumn]; omega⟩

/-- Blanks at the end of the text are not told from those after it. -/
theorem Showing.trim (ht : Showing pre (shown ++ List.replicate n 0x20) k t) : Showing pre shown k t := by
  obtain ⟨hcalm,⟨m,hrow⟩,hcolumn⟩ := ht
  refine ⟨hcalm,⟨n + m,?_⟩,hcolumn⟩
  rw [hrow,List.replicate_add]
  simp only [List.append_assoc]

/-- What is printed at the end of the row is the beginning of what is shown. -/
theorem AtEnd.showing (ht : AtEnd t) (h : ∀ c ∈ cs,isPrint c = true) : Showing (t.row ++ cs) [] 0 (t.feed cs) := by
  rw [feed_print ht.1 (List.append_nil _).symm ht.2 h]
  exact ⟨rfl,⟨0,by simp⟩,by simp⟩

theorem Showing.calm (ht : Showing pre shown k t) : Calm t := ht.1

end

end X1.Display
