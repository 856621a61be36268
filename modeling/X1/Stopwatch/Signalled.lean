import X1.Stopwatch.Contract

/-! # The signal of the stopwatch

`sw_timer_run` clears `sw_shell_waiting` and signals `sw_cv` with the mutex held, and the shell
has set the flag, and keeps the mutex, until it is among the waiters. So a shell that sleeps
although the flag is clear has been awakened.
-/
namespace X1.Stopwatch
open X1 X1.Timer

variable {s s' : State}

structure Signalled (s : State) : Prop where
  wait : s.shell = .condvarWait → s.shellWaiting = true
  linked : s.shell = .condvarSleep → s.waiter.isSome = true
  awaken : s.shell = .condvarSleep → s.shellWaiting = false → s.waiter = some true

namespace Signalled

theorem of_place (hwait : s.shell ≠ .condvarWait) (hsleep : s.shell ≠ .condvarSleep) : Signalled s :=
  ⟨fun h => absurd h hwait,fun h => absurd h hsleep,fun h => absurd h hsleep⟩

theorem congr (h : Signalled s) (hshell : s'.shell = s.shell) (hwaiting : s'.shellWaiting = s.shellWaiting)
    (hwaiter : s'.waiter = s.waiter) : Signalled s' := by
  refine ⟨?_,?_,?_⟩ <;> rw [hshell]
  · rw [hwaiting]
    exact h.wait
  · rw [hwaiter]
    exact h.linked
  · rw [hwaiting,hwaiter]
    exact h.awaken

/-- The flag is cleared together with the signal, and the shell does not have the mutex meanwhile. -/
theorem count (h : Signalled s) (hshell : s.shell ≠ .condvarWait) : Signalled (swCount s) := by
  unfold swCount
  dsimp only
  split
  · refine ⟨fun hwait => absurd hwait hshell,fun hsleep => ?_,fun hsleep _ => ?_⟩
    · obtain ⟨b,hb⟩ := Option.isSome_iff_exists.mp (h.linked hsleep)
      simp [condvarSignal,hb]
    · obtain ⟨b,hb⟩ := Option.isSome_iff_exists.mp (h.linked hsleep)
      simp [condvarSignal,hb]
  · exact h.congr rfl rfl rfl

theorem swTimerRun (h : Signalled s) (hi : Inv s) {fuel : ℕ} (hstep : swTimerRun fuel s = some s') :
    Signalled s' := by
  cases swTimerRun_move hstep with
  | count hrun =>
    have hshell : s.shell ≠ .condvarWait := fun hwait => by
      have hsame := hi.held.unique (a := .timer) (b := .thread ()) (by rw [State.holds,hrun]; rfl)
        (by rw [State.holds,hwait]; rfl)
      cases hsame
    exact (h.count hshell).congr rfl rfl rfl
  | _ => exact h.congr rfl rfl rfl

theorem swShell (h : Signalled s) {fuel : ℕ} (hstep : swShell fuel s = some s') : Signalled s' := by
  cases swShell_move hstep with
  | @lock shell hlocks _ =>
    generalize s.shell = place at hlocks
    cases hlocks <;> exact of_place nofun nofun
  | goto hgoes =>
    cases hgoes with
    | again hshell hwaiting => exact ⟨fun _ => hwaiting,nofun,nofun⟩
    | started | scheduled | refuse | accept | disabled | done => exact of_place nofun nofun
  | wait hshell => exact ⟨fun _ => rfl,nofun,nofun⟩
  | sleep hshell =>
    refine ⟨nofun,fun _ => rfl,fun _ hwaiting => ?_⟩
    have hset := h.wait hshell
    rw [show s.shellWaiting = false from hwaiting] at hset
    cases hset
  | call hshell _ => exact of_place (by simp [hshell]) (by simp [hshell])
  | start | stop | resume | schedule | wakeup | out => exact of_place nofun nofun

theorem step (h : Signalled s) (hi : Inv s) (hstep : Step s s') : Signalled s' := by
  cases hstep with
  | tick | timerBlock _ | timerWakeup => exact h.congr rfl rfl rfl
  | timer fuel _ hrun => exact h.swTimerRun hi hrun
  | shell fuel hrun => exact h.swShell hrun
  | command _ hc => cases hc <;> exact of_place nofun nofun

end Signalled

theorem Initial.signalled (h : Initial s) : Signalled s := .of_place (by simp [h.pcs.2]) (by simp [h.pcs.2])

end X1.Stopwatch
