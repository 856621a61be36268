import Mathlib.Data.List.Destutter
import X1.Shell.Run

/-! # The history over a run

The lines that are remembered are the last twenty of those that have been entered, without
the empty ones and without those that repeat the line before them.
-/
namespace X1.Shell
open X1.Display

/-- The lines to remember, if there were no bound on their number. -/
def remembered (entered : List (List UInt8)) : List (List UInt8) :=
  (entered.filter (· ≠ [])).destutter (· ≠ ·)

section
variable {α : Type*} [DecidableEq α] {a b x : α} {l : List α}

theorem destutter'_concat : (l ++ [x]).destutter' (· ≠ ·) a =
    if (l.destutter' (· ≠ ·) a).getLast? = some x then l.destutter' (· ≠ ·) a else l.destutter' (· ≠ ·) a ++ [x] := by
  induction l generalizing a with
  | nil =>
    by_cases hax : a = x
    · simp [hax]
    · simp [hax]
  | cons b l ih =>
    rw [List.cons_append]
    by_cases hab : a = b
    · subst hab
      simpa using ih (a := a)
    · rw [List.destutter'_cons_pos _ hab,List.destutter'_cons_pos _ hab,ih]
      obtain ⟨y,m,hm⟩ : ∃ y m,l.destutter' (· ≠ ·) b = y :: m :=
        List.exists_cons_of_ne_nil (List.destutter'_ne_nil _ _)
      rw [hm,List.getLast?_cons_cons]
      split_ifs <;> rfl

theorem destutter_concat : (l ++ [x]).destutter (· ≠ ·) =
    if (l.destutter (· ≠ ·)).getLast? = some x then l.destutter (· ≠ ·) else l.destutter (· ≠ ·) ++ [x] := by
  cases l with
  | nil => simp
  | cons a l => exact destutter'_concat

end

theorem remembered_concat (entered : List (List UInt8)) (text : List UInt8) :
    remembered (entered ++ [text]) =
      if text = [] ∨ (remembered entered).getLast? = some text then remembered entered
      else remembered entered ++ [text] := by
  unfold remembered
  rw [List.filter_append]
  by_cases htext : text = []
  · simp [htext]
  · have hkeep : [text].filter (fun t => decide (t ≠ [])) = [text] := by simp [htext]
    rw [hkeep,destutter_concat]
    simp [htext]

/-- The last of the lines that are to be remembered. -/
theorem remember_last (entered : List (List UInt8)) (text : List UInt8) :
    Editor.remember ((remembered entered).drop ((remembered entered).length - 20)) text =
      (remembered (entered ++ [text])).drop ((remembered (entered ++ [text])).length - 20) := by
  rw [remembered_concat,Editor.remember]
  generalize remembered entered = l
  have hlast : (l.drop (l.length - 20)).getLast? = l.getLast? := by
    by_cases hl : l = []
    · simp [hl]
    · have hpos := List.length_pos_of_ne_nil hl
      rw [List.getLast?_drop,if_neg (by omega)]
  rw [hlast]
  split_ifs with hsame
  · rfl
  · rw [← List.drop_append_of_le_length (Nat.sub_le _ _),List.drop_drop,List.length_drop,List.length_append,
      List.length_singleton]
    congr 1
    omega

section
variable {name : ℕ → List UInt8} {sp sp' : Spec} {e : Editor} {c : UInt8} {events : List Event}

/-- The history of the editor is that of the lines that have been entered. -/
def Keeping (sp : Spec) : Prop :=
  sp.editor.entries = (remembered sp.entered).drop ((remembered sp.entered).length - 20)

theorem Keeping.step {event : Event} (h : Keeping sp) (hrun : sp.step name event = some sp') : Keeping sp' := by
  cases event with
  | char byte =>
    rcases char_cases hrun with rfl | ⟨e',escape,seq,clean,rfl,hentries⟩
    · unfold Keeping at h ⊢
      exact (congrArg (Editor.remember · sp.editor.text) h).trans (remember_last sp.entered sp.editor.text)
    · exact hentries.trans h
  | register cmd =>
    cases hrun
    unfold Spec.register
    split_ifs <;> exact h
  | other cs =>
    cases hrun
    exact h

theorem Keeping.run (h : Keeping sp) (hrun : sp.run name events = some sp') : Keeping sp' := by
  induction events generalizing sp with
  | nil =>
    cases hrun
    exact h
  | cons event events ih =>
    rw [Spec.run,List.foldlM_cons] at hrun
    cases hstep : sp.step name event with
    | none =>
      rw [hstep] at hrun
      cases hrun
    | some sp₁ =>
      rw [hstep] at hrun
      exact ih (h.step hstep) hrun

end

end X1.Shell
