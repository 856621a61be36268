import X1.Base.Word
import X1.Lib.List

/-! # The timers of timer.c

The variables of the module, the functions on them, and the machine in which any number
of threads call `timer_schedule` and `timer_get_time`, the clock ticks, and the timer
thread runs `timer_run`. A thread holds `timer_mutex` or waits until it is free. What the
code does under the mutex, and what it does with interrupts off, is one step each, and the
steps of the threads and the ticks come in any order.

Every call of `timer_schedule` gets a number when it links its timer, for the sake of
stating what becomes of it, and the ticks since `timer_setup` are counted without limit.
-/
namespace X1.Timer
open X1 X1.Lib

def TIMER_THRESHOLD : ℕ := (2 ^ 32 - 1) / 2

def timerTicksExpired (ticks ref : ℕ) : Bool := Word.sub ticks ref > TIMER_THRESHOLD

def timerTicksOccurred (ticks ref : ℕ) : Bool := ticks = ref || timerTicksExpired ticks ref

/-- A `struct list`: the head of `timer_list`, or the node of a timer. -/
inductive Node (K : Type) where
  | head
  | timer (k : K)
  deriving DecidableEq

/-- The variables of timer.c, and the member `ticks` of every timer. -/
structure Data (K : Type) where
  ticks : K → ℕ
  links : Links (Node K)
  timerTicks : ℕ
  listEmpty : Bool
  wakeupTicks : ℕ

section
variable {K : Type} [DecidableEq K]

def timerNow (d : Data K) : ℕ := d.timerTicks

def timerWorkPending (d : Data K) : Bool := !d.listEmpty && timerTicksOccurred d.wakeupTicks d.timerTicks

def timerExpired (d : Data K) (k : K) (ref : ℕ) : Bool := timerTicksExpired (d.ticks k) ref

def timerOccurred (d : Data K) (k : K) (ref : ℕ) : Bool := timerTicksOccurred (d.ticks k) ref

/-- The loop of `timer_schedule`, from a node on: the first timer that has not expired at `ticks`, or
the head. -/
def timerFind (d : Data K) (ticks : ℕ) : ℕ → Node K → Option (Node K)
  | 0, _ => none
  | _ + 1, .head => some .head
  | fuel + 1, .timer k =>
    if !timerExpired d k ticks then
      some (.timer k)
    else timerFind d ticks fuel (d.links.nextOf (.timer k))

/-- `timer->ticks = ticks`, the loop, and `list_insert_before` -/
def timerInsert (fuel : ℕ) (d : Data K) (k : K) (ticks : ℕ) : Option (Data K) := do
  let d := { d with ticks := Function.update d.ticks k ticks }
  let tmp ← timerFind d ticks fuel (listFirst d.links .head)
  return { d with links := listInsertBefore d.links tmp (.timer k) }

/-- The end of `timer_schedule`: the pair that the interrupt handler reads. -/
def timerPublish (d : Data K) : Option (Data K) :=
  match listFirst d.links .head with
  | .timer k => some { d with listEmpty := false, wakeupTicks := d.ticks k }
  | .head => none

/-- The same at the end of `timer_process_list`. -/
def timerFinish (d : Data K) : Option (Data K) :=
  if Lib.listEmpty d.links Node.head then some { d with listEmpty := true }
  else
    match listFirst d.links Node.head with
    | .timer k => some { d with listEmpty := false, wakeupTicks := d.ticks k }
    | .head => none

end

/-- A thread that calls the module. -/
inductive Actor (T : Type) where
  | timer
  | thread (t : T)
  deriving DecidableEq

/-- Where a thread is in `timer_schedule` or `timer_get_time`. The ticks it was given are an
`unsigned long`. -/
inductive Pc (K : Type) where
  | idle
  | scheduleLock (k : K) (ticks : UInt32)
  | scheduleInsert (k : K) (ticks : UInt32)
  | schedulePublish
  | getTimeLock (k : K)
  | getTimeRead (k : K)
  | unlock

/-- Where the timer thread is in `timer_run` and `timer_process_list`. `now` is the local variable, and
`asof` the count of ticks when it was read; `c` is the number of the call whose timer `k` was taken. -/
inductive TimerPc (K : Type) where
  | check
  | lock (now asof : ℕ)
  | loop (now asof : ℕ)
  | unlock (now asof : ℕ) (k : K) (c : ℕ)
  | process (now asof : ℕ) (k : K) (c : ℕ)
  | callback (now asof : ℕ) (k : K) (c : ℕ) (pc : Pc K)
  | finish
  | finishUnlock

namespace TimerPc
variable {K : Type}

/-- Where the callback is in a call of its own. -/
def inner : TimerPc K → Pc K
  | callback _ _ _ _ pc => pc
  | _ => .idle

def setInner (pc : Pc K) : TimerPc K → TimerPc K
  | callback now asof k c _ => callback now asof k c pc
  | tpc => tpc

end TimerPc

/-- `running` tells whether the state of the timer thread is `THREAD_STATE_RUNNING`. The last five
members are not in the code: the count of ticks, the number of calls that have linked a timer, for each
timer the last of them, for each call the ticks it was given, and the calls whose callback has started. -/
structure State (K T : Type) extends Data K where
  mutex : Option (Actor T)
  running : Bool
  pc : TimerPc K
  thread : T → Pc K
  elapsed : ℕ
  issued : ℕ
  call : K → ℕ
  due : ℕ → ℕ
  started : List ℕ

section
variable {K T : Type} [DecidableEq K]

/-- `timer_report_tick`, in the interrupt handler of the clock -/
def timerReportTick (s : State K T) : State K T :=
  let s := { s with timerTicks := (s.timerTicks + 1) % 2 ^ 32, elapsed := s.elapsed + 1 }
  if timerWorkPending s.toData then { s with running := true } else s

/-- The call of `timer_schedule` takes its number. -/
def State.issue (s : State K T) (k : K) (ticks : ℕ) : State K T :=
  { s with
    issued := s.issued + 1
    call := Function.update s.call k s.issued
    due := Function.update s.due s.issued ticks }

/-- A step in one of the two functions. -/
def callStep (fuel : ℕ) (a : Actor T) (s : State K T) : Pc K → Option (State K T × Pc K)
  | .idle => none
  | .scheduleLock k ticks =>
    match s.mutex with
    | none => some ({ s with mutex := some a },.scheduleInsert k ticks)
    | some _ => none
  | .scheduleInsert k ticks =>
    (timerInsert fuel s.toData k ticks.toNat).map fun d =>
      ({ s with toData := d }.issue k ticks.toNat,.schedulePublish)
  | .schedulePublish => (timerPublish s.toData).map fun d => ({ s with toData := d },.unlock)
  | .getTimeLock k =>
    match s.mutex with
    | none => some ({ s with mutex := some a },.getTimeRead k)
    | some _ => none
  | .getTimeRead _ => some (s,.unlock)
  | .unlock => some ({ s with mutex := none },.idle)

/-- A step of the timer thread. With interrupts off it reads the clock and goes to sleep when there is
no work. -/
def timerRun (fuel : ℕ) (s : State K T) : Option (State K T) :=
  match s.pc with
  | .check =>
    if timerWorkPending s.toData then some { s with pc := .lock s.timerTicks s.elapsed }
    else some { s with running := false }
  | .lock now asof =>
    match s.mutex with
    | none => some { s with mutex := some .timer, pc := .loop now asof }
    | some _ => none
  | .loop now asof =>
    if Lib.listEmpty s.links Node.head then some { s with pc := .finish }
    else
      match listFirst s.links Node.head with
      | .timer k =>
        if timerOccurred s.toData k now then
          some { s with links := listRemove s.links (.timer k), pc := .unlock now asof k (s.call k) }
        else some { s with pc := .finish }
      | .head => none
  | .unlock now asof k c => some { s with mutex := none, pc := .process now asof k c }
  | .process now asof k c =>
    some { s with pc := .callback now asof k c .idle, started := c :: s.started }
  | .callback now asof _ _ .idle => some { s with pc := .lock now asof }
  | .callback now asof k c pc =>
    (callStep fuel .timer s pc).map fun r => { r.1 with pc := .callback now asof k c r.2 }
  | .finish => (timerFinish s.toData).map fun d => { s with toData := d, pc := .finishUnlock }
  | .finishUnlock => some { s with mutex := none, pc := .check }

end

section
variable {K T : Type} [DecidableEq K] [DecidableEq T]

/-- The calls that can begin in a thread's own code. -/
inductive Begins : Pc K → Prop where
  | schedule (k : K) (ticks : UInt32) : Begins (.scheduleLock k ticks)
  | getTime (k : K) : Begins (.getTimeLock k)

/-- The places at which the timer thread can go to sleep: waiting for the mutex, and in a callback. -/
def TimerPc.Blocks : TimerPc K → Prop
  | .lock _ _ => True
  | .callback _ _ _ _ .idle => True
  | .callback _ _ _ _ (.scheduleLock _ _) => True
  | .callback _ _ _ _ (.getTimeLock _) => True
  | _ => False

def State.setThread (s : State K T) (t : T) (pc : Pc K) : State K T :=
  { s with thread := Function.update s.thread t pc }

inductive Step : State K T → State K T → Prop where
  | tick {s : State K T} : Step s (timerReportTick s)
  | timer {s s' : State K T} (fuel : ℕ) : s.running = true → timerRun fuel s = some s' → Step s s'
  | timerBegin {s : State K T} {now asof : ℕ} {k : K} {c : ℕ} {pc : Pc K} : s.running = true →
      s.pc = .callback now asof k c .idle → Begins pc → Step s { s with pc := .callback now asof k c pc }
  | timerBlock {s : State K T} : s.pc.Blocks → Step s { s with running := false }
  | timerWakeup {s : State K T} : Step s { s with running := true }
  | thread {s s' : State K T} {t : T} {pc : Pc K} (fuel : ℕ) :
      callStep fuel (.thread t) s (s.thread t) = some (s',pc) → Step s (s'.setThread t pc)
  | threadBegin {s : State K T} {t : T} {pc : Pc K} : s.thread t = .idle → Begins pc →
      Step s (s.setThread t pc)

/-- The state after `timer_setup`. -/
structure Initial (s : State K T) : Prop where
  data : s.timerTicks = 0 ∧ s.listEmpty = true
  links : ∃ links, s.links = listInit links .head
  mutex : s.mutex = none
  pc : s.pc = .check
  thread : ∀ t, s.thread t = .idle
  ghost : s.elapsed = 0 ∧ s.issued = 0 ∧ s.started = []

end

end X1.Timer
