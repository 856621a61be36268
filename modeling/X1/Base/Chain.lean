import Mathlib.Data.List.Basic
import Mathlib.Data.List.TakeWhile
import Mathlib.Logic.Function.Basic

/-! # Linked lists that end with a null pointer

The nodes that are met from a pointer on are a list, which the links determine. Loops over
such a list are given a number of turns: with more turns than there are nodes, a search
finds what a search in the list finds, and so does a walk up to the node before a stop.
A node is put in by changing two links.
-/
namespace X1.Chain

variable {α : Type*} {next next' : α → Option α} {p : Option α} {c new : α} {l l' l₁ l₂ : List α} {turns : ℕ}

/-- The nodes from a pointer on, up to the null pointer. -/
def Path (next : α → Option α) : Option α → List α → Prop
  | p,[] => p = none
  | p,c :: l => p = some c ∧ Path next (next c) l

/-- `for (c = p; c != NULL; c = c->next) if (test(c)) break;` -/
def find (next : α → Option α) (test : α → Bool) : ℕ → Option α → Option (Option α)
  | 0,_ => none
  | _ + 1,none => some none
  | turns + 1,some c => if test c then some (some c) else find next test turns (next c)

/-- `for (;;) { next = prev->next; if (next == NULL || stop(next)) break; prev = next; }` -/
def seek (next : α → Option α) (stop : α → Bool) : ℕ → α → Option α
  | 0,_ => none
  | turns + 1,prev =>
    match next prev with
    | none => some prev
    | some c => if stop c then some prev else seek next stop turns c

theorem Path.unique (h : Path next p l) (h' : Path next p l') : l = l' := by
  induction l generalizing p l' with
  | nil =>
    cases l' with
    | nil => rfl
    | cons c l' => exact absurd (h.symm.trans h'.1) (by simp)
  | cons c l ih =>
    cases l' with
    | nil => exact absurd (h'.symm.trans h.1) (by simp)
    | cons c' l' =>
      obtain rfl : c = c' := Option.some.inj (h.1.symm.trans h'.1)
      rw [ih h.2 h'.2]

theorem Path.of_append (h : Path next p (l₁ ++ c :: l₂)) : Path next (next c) l₂ := by
  induction l₁ generalizing p with
  | nil => exact h.2
  | cons b l₁ ih => exact ih h.2

theorem Path.nodup (h : Path next p l) : l.Nodup := by
  induction l generalizing p with
  | nil => exact List.nodup_nil
  | cons c l ih =>
    refine List.nodup_cons.mpr ⟨fun hc => ?_,ih h.2⟩
    obtain ⟨l₁,l₂,rfl⟩ := List.append_of_mem hc
    have hlen := congrArg List.length (h.2.unique h.2.of_append)
    simp at hlen
    omega

theorem Path.congr (h : Path next p l) (hnext : ∀ c ∈ l,next' c = next c) : Path next' p l := by
  induction l generalizing p with
  | nil => exact h
  | cons c l ih =>
    refine ⟨h.1,?_⟩
    rw [hnext c (by simp)]
    exact ih h.2 fun b hb => hnext b (by simp [hb])

theorem find_eq (test : α → Bool) (h : Path next p l) (hturns : l.length < turns) :
    find next test turns p = some (l.find? test) := by
  induction l generalizing p turns with
  | nil =>
    obtain ⟨turns,rfl⟩ := Nat.exists_eq_succ_of_ne_zero (Nat.ne_of_gt hturns)
    rw [show p = none from h]
    rfl
  | cons c l ih =>
    obtain ⟨turns,rfl⟩ := Nat.exists_eq_succ_of_ne_zero (Nat.ne_of_gt (Nat.zero_lt_of_lt hturns))
    rw [h.1,find,List.find?_cons]
    cases test c with
    | true => rfl
    | false => exact ih h.2 (by simpa using hturns)

/-- The walk ends at the last node before one at which it stops. -/
theorem seek_eq (stop : α → Bool) (h : Path next (next c) l) (hturns : l.length < turns) :
    seek next stop turns c = (c :: l.takeWhile (!stop ·)).getLast? := by
  induction l generalizing c turns with
  | nil =>
    obtain ⟨turns,rfl⟩ := Nat.exists_eq_succ_of_ne_zero (Nat.ne_of_gt hturns)
    rw [seek,show next c = none from h]
    rfl
  | cons b l ih =>
    obtain ⟨turns,rfl⟩ := Nat.exists_eq_succ_of_ne_zero (Nat.ne_of_gt (Nat.zero_lt_of_lt hturns))
    rw [seek,h.1]
    cases hstop : stop b with
    | true => simp [hstop]
    | false =>
      have hrest := ih h.2 (by simpa using hturns)
      simp [hstop,hrest]

/-- A node put in after another one. -/
theorem Path.insert [DecidableEq α] (h : Path next p (l₁ ++ c :: l₂)) (hnew : new ∉ l₁ ++ c :: l₂) :
    Path (Function.update (Function.update next c (some new)) new (next c)) p (l₁ ++ c :: new :: l₂) := by
  have hnodup := h.nodup
  induction l₁ generalizing p with
  | nil =>
    simp only [List.nil_append,List.mem_cons,not_or] at hnew hnodup
    have hc : c ∉ l₂ := (List.nodup_cons.mp hnodup).1
    refine ⟨h.1,?_,?_⟩
    · rw [Function.update_of_ne (Ne.symm hnew.1),Function.update_self]
    · rw [Function.update_self]
      refine h.2.congr fun b hb => ?_
      have hbnew : b ≠ new := ne_of_mem_of_not_mem hb hnew.2
      have hbc : b ≠ c := ne_of_mem_of_not_mem hb hc
      rw [Function.update_of_ne hbnew,Function.update_of_ne hbc]
  | cons b l₁ ih =>
    simp only [List.cons_append,List.mem_cons,not_or] at hnew hnodup
    have hb : b ∉ l₁ ++ c :: l₂ := (List.nodup_cons.mp hnodup).1
    refine ⟨h.1,?_⟩
    rw [Function.update_of_ne (Ne.symm hnew.1),Function.update_of_ne (fun heq => hb (by simp [heq]))]
    exact ih h.2 hnew.2 (List.nodup_cons.mp hnodup).2

end X1.Chain
