import X1.Base.Checked
import X1.Stopwatch.Invariant

/-! # When the stopwatch keeps the list of timers

`sw_shell_start` tests `sw_timer_scheduled` before it schedules the timer, and
`sw_shell_resume` does not. Neither looks at the timer itself, which stays linked after
`sw_stop` until it expires. In every run in which the shell calls `timer_schedule` only when
the timer is spare, the list is well formed and no linked timer is scheduled; without the
condition two commands in a row break the list.
-/
namespace X1.Stopwatch
open X1 X1.Lib X1.Ring X1.Timer X1.Checked

/-- The list is a ring through its head, in which `sw_timer` is met at most once. -/
def Sound (d : Data Unit) : Prop :=
  ∃ nodes, IsRing d.links.nextOf d.links.prevOf .head nodes ∧ nodes.count (.timer ()) ≤ 1

/-- The runs in which the shell calls `timer_schedule` only when the timer is spare. -/
inductive Careful : State → Prop where
  | init {s : State} : Initial s → Careful s
  | step {s s' : State} : Careful s → Step s s' →
      (s.shell = .schedule → s'.shell = .scheduling → Spare s) →
      Careful s'

theorem Careful.inv {s : State} (h : Careful s) : Inv s := by
  induction h with
  | init hi => exact hi.inv
  | step _ hstep hspare ih => exact hstep.inv ih hspare

theorem stopwatch_list_kept (s : State) (h : Careful s) :
    (s.timer.mutex = none → Sound s.timer.toData) ∧
      ∀ a, (s.timer.at a).pending = true → ¬Linked s.timer.toData () := by
  have hi := h.inv
  constructor
  · intro _
    obtain ⟨ks,hks⟩ := hi.timer
    exact ⟨ks.map .timer,hks.listed.ring,List.nodup_iff_count_le_one.mp
      (IsRing.nodup_nodes hks.listed.ring) _⟩
  · exact hi.unlinked

/-! ## Two runs -/

inductive Move where
  | tick
  | timer
  | shell
  | start
  | stop
  | resume
  deriving DecidableEq

def Move.command (s : State) (pc : ShellPc) : Option State :=
  if s.shell = .idle then some { s with shell := pc } else none

def Move.next (s : State) : Move → Option State
  | .tick => some { s with timer := timerReportTick s.timer }
  | .timer => if s.timer.running then swTimerRun 2 s else none
  | .shell => swShell 2 s
  | .start => Move.command s .startLock
  | .stop => Move.command s .stopLock
  | .resume => Move.command s .resumeLock

theorem Move.step_next {s s' : State} {m : Move} (h : m.next s = some s') : Step s s' := by
  have hcommand : ∀ {pc : ShellPc}, Command pc → Move.command s pc = some s' → Step s s' := by
    intro pc hc h
    unfold Move.command at h
    split at h
    · next hidle =>
      cases h
      exact .command hidle hc
    · cases h
  cases m with
  | tick =>
    cases h
    exact .tick
  | timer =>
    simp only [Move.next] at h
    split at h
    · next hr => exact .timer 2 hr h
    · cases h
  | shell => exact .shell 2 h
  | start => exact hcommand .start h
  | stop => exact hcommand .stop h
  | resume => exact hcommand .resume h

def sampleInit : State where
  timer :=
    { ticks := fun _ => 0
      links := listInit ⟨id,id⟩ .head
      timerTicks := 0
      listEmpty := true
      wakeupTicks := 0
      mutex := none
      running := true
      pc := .check
      thread := fun _ => .idle
      elapsed := 0
      issued := 0
      call := fun _ => 0
      due := fun _ => 0
      started := [] }
  mutex := none
  waiter := none
  ticks := 0
  timerScheduled := false
  shellWaiting := false
  waitTicks := 0
  time := 0
  run := .off
  shell := .idle

theorem sampleInit_initial : Initial sampleInit :=
  ⟨⟨⟨rfl,rfl⟩,⟨_,rfl⟩,rfl,rfl,fun _ => rfl,⟨rfl,rfl,rfl⟩⟩,rfl,rfl,⟨rfl,rfl⟩,⟨rfl,rfl⟩,⟨rfl,rfl⟩⟩

/-- The stopwatch is started, stopped, and resumed after the timer has expired: the timer thread is
through with the callback when the shell schedules the timer again. -/
def carefulMoves : List Move :=
  .timer :: .start :: List.replicate 9 .shell ++ .stop :: List.replicate 3 .shell ++
    .tick :: List.replicate 13 .timer ++ .resume :: List.replicate 9 .shell

def State.spare (s : State) : Bool :=
  Lib.listEmpty s.timer.links Node.head && s.timer.pc.taken.isNone && decide (s.run ≠ .lock)

theorem spare_of_spare {s : State} (h : s.spare = true) : Spare s := by
  simp only [State.spare,Bool.and_eq_true,decide_eq_true_iff,Option.isNone_iff_eq_none] at h
  obtain ⟨⟨hempty,htaken⟩,hrun⟩ := h
  refine ⟨fun hl => ?_,htaken,hrun⟩
  obtain ⟨n,hn⟩ := hl
  have hfix : s.timer.links.nextOf Node.head = .head := (of_decide_eq_true hempty).symm
  rw [Function.iterate_fixed hfix] at hn
  cases hn

def Move.run (s : State) (m : Move) : Option State :=
  if s.shell = .schedule && !s.spare then none else m.next s

theorem Move.run_careful {m : Move} {s s' : State} (hs : Careful s) (h : m.run s = some s') :
    Careful s' := by
  unfold Move.run at h
  split at h
  · cases h
  · next hspare =>
    refine .step hs (Move.step_next h) fun hshell _ => spare_of_spare ?_
    simpa [hshell] using hspare

def State.view (s : State) : Bool × Bool × Bool × Bool :=
  (decide (s.shell = .idle),s.timer.mutex.isNone,decide (s.timer.links.nextOf .head = .timer ()),
    decide (s.timer.links.nextOf (.timer ()) = .timer ()))

theorem stopwatch_list_kept_sample : ∃ s : State, Careful s ∧ s.shell = .idle ∧ Linked s.timer.toData () ∧
    Sound s.timer.toData := by
  have hrun : (carefulMoves.foldlM Move.run sampleInit).map State.view =
      some (true,true,true,false) := by
    decide +kernel
  obtain ⟨s,hs,hv⟩ := Option.map_eq_some_iff.mp hrun
  simp only [State.view,Prod.mk.injEq,decide_eq_true_iff,Option.isNone_iff_eq_none] at hv
  have hcareful : Careful s :=
    foldlM_keeps (P := Careful) (fun m _ s s' => Move.run_careful) (.init sampleInit_initial) hs
  exact ⟨s,hcareful,hv.1,⟨1,hv.2.2.1⟩,(stopwatch_list_kept s hcareful).1 hv.2.1⟩

theorem not_sound {d : Data Unit} (hhead : d.links.nextOf .head = .timer ())
    (htimer : d.links.nextOf (.timer ()) = .timer ()) : ¬Sound d := by
  rintro ⟨nodes,hring,-⟩
  cases nodes with
  | nil =>
    have := hring.next_head
    rw [hhead] at this
    cases this
  | cons a rest =>
    obtain rfl : Node.timer () = a := hhead.symm.trans hring.next_head
    have hnext : d.links.nextOf (.timer ()) = rest.headD .head := hring.next_node (l := [])
    rw [htimer] at hnext
    cases rest with
    | nil => cases hnext
    | cons b rest =>
      obtain rfl : Node.timer () = b := hnext
      have := hring.nodup_nodes
      simp at this

/-- `sw_start`, and `sw_resume` before the next tick. -/
def resumeMoves : List Move := .start :: List.replicate 9 .shell ++ .resume :: List.replicate 9 .shell

theorem resume_breaks_list : ¬∀ s : State, Reachable s →
    (s.timer.mutex = none → Sound s.timer.toData) ∧
      ∀ a, (s.timer.at a).pending = true → ¬Linked s.timer.toData () := by
  intro h
  have hrun : (resumeMoves.foldlM Move.next sampleInit).map State.view = some (true,true,true,true) := by
    decide +kernel
  obtain ⟨s,hs,hv⟩ := Option.map_eq_some_iff.mp hrun
  simp only [State.view,Prod.mk.injEq,decide_eq_true_iff,Option.isNone_iff_eq_none] at hv
  have hreach : Reachable s :=
    foldlM_keeps (P := Reachable) (fun m _ s s' hr hm => .step hr (Move.step_next hm))
      (.init sampleInit_initial) hs
  exact not_sound hv.2.2.1 hv.2.2.2 ((h s hreach).1 hv.2.1)

end X1.Stopwatch
