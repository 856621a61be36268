import X1.Timer.Model

/-! # The stopwatch of sw.c

The variables of sw.c over the machine of timer.c, whose only timer is `sw_timer` and whose
only other thread is the one of the shell. The timer thread runs `sw_timer_run` as the
callback of the timer, the shell thread runs the commands in any order, one at a time, and
the clock ticks. What a thread does under `sw_mutex` between two calls is one step. The
printing is left out.
-/
namespace X1.Stopwatch
open X1.Timer

def SW_MAX_WAIT : ℕ := 30

def THREAD_SCHED_FREQ : ℕ := 100

/-- Where the timer thread is in `sw_timer_run`. -/
inductive RunPc where
  /-- not in the callback -/
  | off
  | lock
  /-- `if (!sw_timer_scheduled)` -/
  | test
  | count
  /-- in `timer_get_time` -/
  | getTime
  /-- in `timer_schedule` -/
  | schedule
  /-- `out`, in front of `mutex_unlock` -/
  | out
  | return
  deriving DecidableEq

/-- Where the shell thread is in a command. The argument of `sw_wait` is `none` when it is missing or is
not a number. -/
inductive ShellPc where
  | idle
  | startLock
  | startTest
  | stopLock
  | stopClear
  | resumeLock
  | resumeSet
  /-- in front of `timer_schedule(&sw_timer, timer_now() + 1)`, in `sw_shell_start` and `sw_shell_resume` -/
  | schedule
  /-- in `timer_schedule` -/
  | scheduling
  | readLock
  | wait (seconds : Option UInt32)
  | waitLock (seconds : UInt32)
  | waitTest (seconds : UInt32)
  /-- `condvar_wait`, in front of `mutex_unlock` -/
  | condvarWait
  /-- `thread_sleep`, until the waiter is awaken -/
  | condvarSleep
  | condvarLock
  /-- `while (sw_shell_waiting)` -/
  | waitRetest
  /-- `out`, in front of `mutex_unlock` -/
  | out
  deriving DecidableEq

/-- `time` is what `timer_get_time` has read. Only the shell waits on `sw_cv`: `waiter` is its waiter,
while it is linked, with the member `awaken`. -/
structure State where
  timer : Timer.State Unit Unit
  mutex : Option (Actor Unit)
  waiter : Option Bool
  ticks : ℕ
  timerScheduled : Bool
  shellWaiting : Bool
  waitTicks : ℕ
  time : ℕ
  run : RunPc
  shell : ShellPc

/-- `mutex_lock(&sw_mutex)` returns when the mutex is free. -/
def mutexLock (s : State) (a : Actor Unit) : Option State :=
  match s.mutex with
  | none => some { s with mutex := some a }
  | some _ => none

def condvarSignal (s : State) : State := { s with waiter := s.waiter.map fun _ => true }

/-- The part of `sw_timer_run` in front of `timer_schedule`. -/
def swCount (s : State) : State :=
  let s := { s with ticks := (s.ticks + 1) % 2 ^ 32 }
  if s.shellWaiting && timerTicksOccurred s.waitTicks s.ticks then
    condvarSignal { s with shellWaiting := false }
  else s

def State.timerCall (s : State) (pc : Pc Unit) : State :=
  { s with timer := { s.timer with pc := s.timer.pc.setInner pc } }

def State.timerStep (fuel : ℕ) (s : State) : Option State :=
  (timerRun fuel s.timer).map fun timer => { s with timer := timer }

def swTimerRun (fuel : ℕ) (s : State) : Option State :=
  match s.run with
  | .off =>
    (s.timerStep fuel).map fun s =>
      match s.timer.pc with
      | .callback _ _ _ _ _ => { s with run := .lock }
      | _ => s
  | .lock => (mutexLock s .timer).map fun s => { s with run := .test }
  | .test => some { s with run := if s.timerScheduled then .count else .out }
  | .count => some { (swCount s).timerCall (.getTimeLock ()) with run := .getTime }
  | .getTime =>
    match s.timer.pc.inner with
    | .idle => some { s.timerCall (.scheduleLock () (.ofNat (s.time + 1))) with run := .schedule }
    | .getTimeRead k => (s.timerStep fuel).map fun r => { r with time := s.timer.ticks k }
    | _ => s.timerStep fuel
  | .schedule =>
    match s.timer.pc.inner with
    | .idle => some { s with run := .out }
    | _ => s.timerStep fuel
  | .out => some { s with mutex := none, run := .return }
  | .return => (s.timerStep fuel).map fun s => { s with run := .off }

def swShell (fuel : ℕ) (s : State) : Option State :=
  match s.shell with
  | .idle => none
  | .startLock => (mutexLock s (.thread ())).map fun s => { s with shell := .startTest }
  | .startTest =>
    if s.timerScheduled then some { s with shell := .out }
    else some { s with ticks := 0, timerScheduled := true, shell := .schedule }
  | .stopLock => (mutexLock s (.thread ())).map fun s => { s with shell := .stopClear }
  | .stopClear => some { s with timerScheduled := false, shell := .out }
  | .resumeLock => (mutexLock s (.thread ())).map fun s => { s with shell := .resumeSet }
  | .resumeSet => some { s with timerScheduled := true, shell := .schedule }
  | .schedule =>
    some { s with
      timer := s.timer.setThread () (.scheduleLock () (.ofNat (timerNow s.timer.toData + 1)))
      shell := .scheduling }
  | .scheduling =>
    match s.timer.thread () with
    | .idle => some { s with shell := .out }
    | pc => (callStep fuel (.thread ()) s.timer pc).map fun r => { s with timer := r.1.setThread () r.2 }
  | .readLock => (mutexLock s (.thread ())).map fun s => { s with shell := .out }
  | .wait none => some { s with shell := .idle }
  | .wait (some seconds) =>
    if seconds.toNat > SW_MAX_WAIT then
      some { s with shell := .idle }
    else some { s with shell := .waitLock seconds }
  | .waitLock seconds => (mutexLock s (.thread ())).map fun s => { s with shell := .waitTest seconds }
  | .waitTest seconds =>
    if s.timerScheduled then
      some { s with
        shellWaiting := true
        waitTicks := (s.ticks + seconds.toNat * THREAD_SCHED_FREQ) % 2 ^ 32
        shell := .condvarWait }
    else some { s with shell := .out }
  | .condvarWait => some { s with mutex := none, waiter := some false, shell := .condvarSleep }
  | .condvarSleep =>
    match s.waiter with
    | some true => some { s with waiter := none, shell := .condvarLock }
    | _ => none
  | .condvarLock => (mutexLock s (.thread ())).map fun s => { s with shell := .waitRetest }
  | .waitRetest => some { s with shell := if s.shellWaiting then .condvarWait else .out }
  | .out => some { s with mutex := none, shell := .idle }

inductive Command : ShellPc → Prop where
  | start : Command .startLock
  | stop : Command .stopLock
  | resume : Command .resumeLock
  | read : Command .readLock
  | wait (seconds : Option UInt32) : Command (.wait seconds)

inductive Step : State → State → Prop where
  | tick {s : State} : Step s { s with timer := timerReportTick s.timer }
  | timer {s s' : State} (fuel : ℕ) : s.timer.running = true → swTimerRun fuel s = some s' → Step s s'
  | timerBlock {s : State} : s.timer.pc.Blocks →
      Step s { s with timer := { s.timer with running := false } }
  | timerWakeup {s : State} : Step s { s with timer := { s.timer with running := true } }
  | shell {s s' : State} (fuel : ℕ) : swShell fuel s = some s' → Step s s'
  | command {s : State} {pc : ShellPc} : s.shell = .idle → Command pc → Step s { s with shell := pc }

/-- The state after `timer_setup` and `sw_setup`. The variables are in zeroed storage. -/
structure Initial (s : State) : Prop where
  timer : Timer.Initial s.timer
  mutex : s.mutex = none
  waiter : s.waiter = none
  ticks : s.ticks = 0 ∧ s.waitTicks = 0
  flags : s.timerScheduled = false ∧ s.shellWaiting = false
  pcs : s.run = .off ∧ s.shell = .idle

inductive Reachable : State → Prop where
  | init {s : State} : Initial s → Reachable s
  | step {s s' : State} : Reachable s → Step s s' → Reachable s'

end X1.Stopwatch
