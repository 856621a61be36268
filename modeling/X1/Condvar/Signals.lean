import X1.Condvar.Threads

/-! # A call of condvar_signal, from its beginning to its return

What the statements of one thread add to the history while it is in `condvar_signal`.
Preemption is disabled from the search for a waiter on, so that the entry of the call is
the last one of the history when the call ends.
-/
namespace X1.Condvar
open X1.Lib X1.Checked X1.Mutex
variable {T : Type}

def Pc.searching : Pc T → Bool
  | signalEnter | signalFirst | signalVisit _ => true
  | _ => false

theorem Pc.inside_of_searching {pc : Pc T} (h : pc.searching = true) : pc.inside = some .signal := by
  cases pc <;> first | rfl | cases h

variable [DecidableEq T]

section
variable {s s' s₁ s₂ s₃ : State T} {ws : List T} {t : T} {f : Option Func} {l : List (Event T)} {next : T}

/-! ## Statements -/

theorem State.goto_pc (pc : Pc T) (h : s'.current = s.current) : (s'.goto pc).pc s.current = pc := by
  rw [← h]
  exact Function.update_self _ _ _

theorem signalBody_step (s : State T) (entry : Node T) :
    (((signalBody s entry).pc s.current).searching = true ∧ (signalBody s entry).log = s.log) ∨
    ∃ m, (signalBody s entry).pc s.current = .signalLeave ∧ (signalBody s entry).log = s.log ++ [.signal m] := by
  cases entry with
  | waiters => exact .inr ⟨none,State.goto_pc .signalLeave rfl,rfl⟩
  | waiter w =>
    rw [signalBody_waiter]
    split
    · exact .inl ⟨congrArg Pc.searching (State.goto_pc _ rfl),rfl⟩
    · exact .inr ⟨some w,State.goto_pc .signalLeave (current_threadWakeup s.mutex (s.waiterThread w)),rfl⟩

theorem Executed.log {p : Pc T} (h : Executed s next p s') : s'.log = s.log ∨
    ∃ e,s'.log = s.log ++ [e] ∧ ∀ m,e = .signal m → p.inside = some .signal := by
  cases h with
  | waitQueue => exact .inr ⟨_,rfl,nofun⟩
  | waitDequeue => exact .inr ⟨_,rfl,nofun⟩
  | signalVisit entry =>
    rcases signalBody_step s entry with ⟨-,hlog⟩ | ⟨m,-,hlog⟩
    · exact .inl hlog
    · exact .inr ⟨_,hlog,fun _ _ => rfl⟩
  | broadcastVisit entry =>
    cases entry with
    | waiters => exact .inl rfl
    | waiter w =>
      rw [broadcastBody_waiter]
      split
      · exact .inl rfl
      · exact .inr ⟨_,rfl,nofun⟩
  | _ => exact .inl rfl

/-! ## Steps -/

theorem Call.same {g : Func} (h : Call g s s') : s'.log = s.log ∧ ∀ u,u ≠ s.current → s'.pc u = s.pc u := by
  cases h with
  | wait | signal | broadcast => exact ⟨rfl,fun u hu => Function.update_of_ne hu _ _⟩
  | _ => exact ⟨rfl,fun _ _ => rfl⟩

theorem Step.log (hstep : Step f s s') : s'.log = s.log ∨
    ∃ e,s'.log = s.log ++ [e] ∧ ∀ m,e = .signal m → (s.pc s.current).inside = some .signal := by
  cases hstep with
  | exec next _ hx _ => exact (Executed.of_exec hx).log
  | call _ hcall => exact .inl hcall.same.1
  | _ => exact .inl rfl

/-- The call has added nothing yet, or its signal, which is then the last event. -/
def Accounted (t : T) (s s' : State T) (l : List (Event T)) : Prop :=
  (s'.pc t).searching = true ∧ l = [] ∨
  s'.pc t = .signalLeave ∧ ∃ l₁ m,l = [.signal m] ∧ s'.log = l₁ ++ [.signal m] ∧ s.log <+: l₁

theorem Accounted.inside (h : Accounted t s s' l) : (s'.pc t).inside = some .signal := by
  rcases h with ⟨hsearch,-⟩ | ⟨hleave,-⟩
  · exact Pc.inside_of_searching hsearch
  · rw [hleave]
    rfl

end

end X1.Condvar
