import Mathlib.Data.List.Basic
import X1.Base.Word
import X1.Lib.List

/-! # Threads, the run queue and the scheduler of thread.c

Threads are numbered, and a number stands for one `struct thread` for the whole run.
The run queue lists are rings of links whose nodes are the list heads and the
threads. Each thread has a stack of frames, one for each call in progress, and a
frame holds the instructions it has still to execute, so that an interrupt can be
taken between any two of them. What the code does with interrupts off and the
scheduler locked cannot be interleaved with anything, and is one instruction.

A failed assertion and the dequeue of a list head taken for a thread are faults.
-/
namespace X1.Sched
open X1.Lib

/-- The address of a `struct thread`. -/
abbrev Tid := ℕ

def THREAD_NR_PRIORITIES : ℕ := 20
def THREAD_IDLE_PRIORITY : ℕ := 0

/-- `enum thread_state` -/
inductive ThreadState where
  | running | sleeping | dead
  deriving DecidableEq

structure Thread where
  state : ThreadState
  yield : Bool
  preemptLevel : ℕ
  priority : ℕ
  joiner : Option Tid

/-- A `struct list` of the scheduler: the head of the list of a priority, or the node of a thread. -/
inductive Node where
  | head (priority : ℕ)
  | thread (t : Tid)
  deriving DecidableEq

/-- The functions a frame can belong to. `main` is `thread_main` and the code of the thread below it,
`intr` is `cpu_intr_main` after its handler has run. -/
inductive Fn where
  | preemptEnable
  | yield
  | sleep
  | wakeup (thread : Option Tid)
  | create (priority : ℕ)
  | exit
  | join (thread : Tid)
  | main
  | intr
  deriving DecidableEq

inductive Instr where
  | preemptDisable
  | preemptEnableNoYield
  | yieldIfNeeded
  | yieldTest
  | yieldSwitch
  | sleepSwitch
  | assertRunning
  | wakeupTest (thread : Option Tid)
  | wakeupLocked (thread : Option Tid)
  | createLocked (priority : ℕ)
  | exitTest
  | exitSwitch
  | deadWalking
  | joinSet (thread : Tid)
  | joinLoop (thread : Tid)
  | destroy (thread : Tid)
  | mainTest
  | intrSave
  | intrRestore
  | intrEnable
  | intrDisable
  | iret
  | call (fn : Fn)
  deriving DecidableEq

/-- The body of each function, cut where an interrupt can come in between. -/
def Fn.code : Fn → List Instr
  | preemptEnable => [.preemptEnableNoYield,.yieldIfNeeded]
  | yield => [.yieldTest,.preemptDisable,.intrSave,.yieldSwitch,.intrRestore,.preemptEnableNoYield]
  | sleep => [.intrSave,.sleepSwitch,.assertRunning,.intrRestore]
  | wakeup t => [.wakeupTest t,.preemptDisable,.intrSave,.wakeupLocked t,.intrRestore,.call .preemptEnable]
  | create p => [.preemptDisable,.intrSave,.createLocked p,.intrRestore,.call .preemptEnable]
  | exit => [.exitTest,.preemptDisable,.intrSave,.exitSwitch,.deadWalking]
  | join t => [.preemptDisable,.intrSave,.joinSet t,.joinLoop t,.intrRestore,.call .preemptEnable,.destroy t]
  | main => [.mainTest,.intrEnable,.call .preemptEnable]
  | intr => [.call .preemptEnable,.iret]

/-- A call in progress: its local `eflags`, the state of the interrupt flag when it was called (for
`intr`, in the flags the processor pushed), and the instructions left. -/
structure Frame where
  fn : Fn
  callIntr : Bool
  eflags : Bool
  code : List Instr

/-- `created` are the threads in order of creation, last first, and `next` is the address the next
thread structure gets. `intr` is the interrupt flag. -/
structure State where
  thread : Tid → Thread
  created : List Tid
  next : Tid
  current : Tid
  nrThreads : ℕ
  links : Links Node
  idle : Tid
  intr : Bool
  stack : Tid → List Frame

inductive Fault where
  | assertion
  | wild
  | switch

def assert (b : Bool) : Except Fault Unit := if b then .ok () else .error .assertion

namespace State

def modify (s : State) (t : Tid) (f : Thread → Thread) : State :=
  { s with thread := Function.update s.thread t (f (s.thread t)) }

/-- `thread_self` -/
def self (s : State) : Thread := s.thread s.current

def setStack (s : State) (fs : List Frame) : State :=
  { s with stack := Function.update s.stack s.current fs }

def push (s : State) (fn : Fn) : State :=
  s.setStack (⟨fn,s.intr,false,fn.code⟩ :: s.stack s.current)

/-- Change the running frame. -/
def top (s : State) (f : Frame → Frame) : State :=
  match s.stack s.current with
  | [] => s
  | g :: fs => s.setStack (f g :: fs)

def eflags (s : State) : Bool :=
  match s.stack s.current with
  | [] => false
  | f :: _ => f.eflags

end State

def threadIsRunning (t : Thread) : Bool := t.state = .running

def threadIsDead (t : Thread) : Bool := t.state = .dead

def threadPreemptEnabled (s : State) : Bool := s.self.preemptLevel = 0

def threadSchedulerLocked (s : State) : Bool := !s.intr && !threadPreemptEnabled s

def threadSetYield (s : State) (t : Tid) : State := s.modify t fun th => { th with yield := true }

def threadClearYield (s : State) (t : Tid) : State := s.modify t fun th => { th with yield := false }

def threadSetState (s : State) (t : Tid) (state : ThreadState) : State :=
  s.modify t fun th => { th with state := state }

def threadSetLevel (s : State) (level : ℕ) : State :=
  s.modify s.current fun th => { th with preemptLevel := level }

/-- `thread_preempt_disable` -/
def threadPreemptDisable (s : State) : Except Fault State := do
  let level := (s.self.preemptLevel + 1) % 2 ^ 32
  assert (level ≠ 0)
  return threadSetLevel s level

/-- `thread_preempt_enable_no_yield` -/
def threadPreemptEnableNoYield (s : State) : Except Fault State := do
  assert (s.self.preemptLevel ≠ 0)
  return threadSetLevel s (s.self.preemptLevel - 1)

def threadListEnqueue (links : Links Node) (list : Node) (t : Tid) : Links Node :=
  listInsertTail links list (.thread t)

/-- The first entry of an empty list is its own head, which is not a thread. -/
def threadListDequeue (links : Links Node) (list : Node) : Except Fault (Tid × Links Node) :=
  match listFirst links list with
  | .thread t => .ok (t,listRemove links (.thread t))
  | .head _ => .error .wild

def threadRunqGetList (priority : ℕ) : Except Fault Node := do
  assert (priority < THREAD_NR_PRIORITIES)
  return .head priority

/-- `thread_runq_put_prev` -/
def threadRunqPutPrev (s : State) (t : Tid) : Except Fault State := do
  if t = s.idle then return s
  let list ← threadRunqGetList (s.thread t).priority
  return { s with links := threadListEnqueue s.links list t }

/-- The list at which the downward scan stops. Past index 0 the unsigned index wraps around, the
loop ends, and the list is the last one looked at. -/
def threadRunqScan (links : Links Node) : ℕ → Node
  | 0 => .head 0
  | i + 1 => if listEmpty links (.head (i + 1)) then threadRunqScan links i else .head (i + 1)

/-- `thread_runq_get_next` -/
def threadRunqGetNext (s : State) : Except Fault State :=
  if s.nrThreads = 0 then return { s with current := s.idle }
  else do
    let (t,links) ← threadListDequeue s.links (threadRunqScan s.links (THREAD_NR_PRIORITIES - 1))
    return { s with links := links, current := t }

/-- `thread_runq_add` -/
def threadRunqAdd (s : State) (t : Tid) : Except Fault State := do
  assert (threadSchedulerLocked s)
  assert (threadIsRunning (s.thread t))
  let list ← threadRunqGetList (s.thread t).priority
  let nr := (s.nrThreads + 1) % 2 ^ 32
  assert (nr ≠ 0)
  let s := { s with links := threadListEnqueue s.links list t, nrThreads := nr }
  if (s.thread t).priority > s.self.priority then return threadSetYield s s.current
  return s

/-- `thread_runq_remove` -/
def threadRunqRemove (s : State) (t : Tid) : Except Fault State := do
  assert (s.nrThreads ≠ 0)
  assert (!threadIsRunning (s.thread t))
  return { s with nrThreads := s.nrThreads - 1, links := listRemove s.links (.thread t) }

/-- `thread_runq_schedule`. The context switch is the change of `current`: each thread goes on with its
own stack, and the interrupt flag it saved is off. -/
def threadRunqSchedule (s : State) : Except Fault State := do
  let prev := s.current
  assert (threadSchedulerLocked s)
  assert (s.self.preemptLevel = 1)
  let s ← threadRunqPutPrev s prev
  let s ← if !threadIsRunning (s.thread prev) then threadRunqRemove s prev else pure s
  threadRunqGetNext s

/-- What `thread_wakeup` does with the scheduler locked. -/
def threadWakeupLocked (s : State) (thread : Option Tid) : Except Fault State :=
  match thread with
  | none => return s
  | some t =>
    if threadIsRunning (s.thread t) then return s
    else do
      assert (!threadIsDead (s.thread t))
      threadRunqAdd (threadSetState s t .running) t

/-- `thread_preempt_enable` where the caller still holds the preemption level: `thread_yield` then
returns at once. With the level at 0 it would switch. -/
def threadPreemptEnableLocked (s : State) : Except Fault State := do
  let s ← threadPreemptEnableNoYield s
  if s.self.yield && threadPreemptEnabled s then .error .switch else return s

/-- `thread_wakeup` called with interrupts off and preemption disabled, from an interrupt handler or
from `thread_exit`. -/
def threadWakeup (s : State) (thread : Option Tid) : Except Fault State :=
  if thread = none ∨ thread = some s.current then return s
  else do
    let s ← threadPreemptDisable s
    let eflags := s.intr
    let s := { s with intr := false }
    let s ← threadWakeupLocked s thread
    let s := { s with intr := eflags }
    threadPreemptEnableLocked s

/-- `thread_init` -/
def threadInit (priority : ℕ) : Thread := ⟨.running,false,1,priority,none⟩

/-- A new thread structure, initialised, with the stack forged for `thread_main`. -/
def State.alloc (s : State) (priority : ℕ) : State :=
  { s with
    thread := Function.update s.thread s.next (threadInit priority)
    created := s.next :: s.created
    next := s.next + 1
    stack := Function.update s.stack s.next [⟨.main,false,false,Fn.code .main⟩] }

/-- What `thread_create` does with the scheduler locked. The structure of the new thread is reachable
by nobody else before, so its initialisation is counted here. -/
def threadCreateLocked (s : State) (priority : ℕ) : Except Fault State :=
  threadRunqAdd (s.alloc priority) s.next

/-- `thread_create` before the scheduler is enabled, when interrupts are off and the dummy thread has
preemption disabled. -/
def threadCreate (s : State) (priority : ℕ) : Except Fault State := do
  let s ← threadPreemptDisable s
  let eflags := s.intr
  let s := { s with intr := false }
  let s ← threadCreateLocked s priority
  let s := { s with intr := eflags }
  threadPreemptEnableLocked s

/-- One instruction of the current thread, already taken from its frame. -/
def exec (s : State) : Instr → Except Fault State
  | .preemptDisable => threadPreemptDisable s
  | .preemptEnableNoYield => threadPreemptEnableNoYield s
  | .yieldIfNeeded => return if s.self.yield then s.push .yield else s
  | .yieldTest => return if threadPreemptEnabled s then s else s.top fun f => { f with code := [] }
  | .yieldSwitch => threadRunqSchedule (threadClearYield s s.current)
  | .sleepSwitch => do
    assert (threadIsRunning s.self)
    threadRunqSchedule (threadSetState s s.current .sleeping)
  | .assertRunning => do
    assert (threadIsRunning s.self)
    return s
  | .wakeupTest t =>
    return if t = none ∨ t = some s.current then s.top fun f => { f with code := [] } else s
  | .wakeupLocked t => threadWakeupLocked s t
  | .createLocked priority => threadCreateLocked s priority
  | .exitTest => do
    assert (threadPreemptEnabled s)
    return s
  | .exitSwitch => do
    assert (threadIsRunning s.self)
    let s := threadSetState s s.current .dead
    let s ← threadWakeup s s.self.joiner
    threadRunqSchedule s
  | .deadWalking => .error .assertion
  | .joinSet t => return s.modify t fun th => { th with joiner := some s.current }
  | .joinLoop t =>
    return if threadIsDead (s.thread t) then s
      else s.top fun f => { f with code := .call .sleep :: .joinLoop t :: f.code }
  | .destroy t => do
    assert (threadIsDead (s.thread t))
    return s
  | .mainTest => do
    assert (threadSchedulerLocked s)
    assert (s.self.preemptLevel = 1)
    return s
  | .intrSave => return { s.top (fun f => { f with eflags := s.intr }) with intr := false }
  | .intrRestore => return { s with intr := s.eflags }
  | .intrEnable => return { s with intr := true }
  | .intrDisable => return { s with intr := false }
  | .iret => return { s.setStack (s.stack s.current).tail with intr := true }
  | .call fn => return s.push fn

/-- What an interrupt handler does to threads: report a clock tick, wake a thread. -/
inductive Act where
  | tick
  | wake (t : Tid)

def Act.run (s : State) : Act → Except Fault State
  | .tick => return threadSetYield s s.current
  | .wake t => threadWakeup s (some t)

/-- An interrupt: the processor clears the flag, `cpu_intr_main` disables preemption and runs the
handler, all of it with interrupts off; its end is left on the stack of the current thread. -/
def cpuIntrMain (s : State) (acts : List Act) : Except Fault State := do
  let s ← threadPreemptDisable { s with intr := false }
  let s ← acts.foldlM Act.run s
  return s.setStack (⟨.intr,true,false,Fn.code .intr⟩ :: s.stack s.current)

/-- The dummy thread that stands for the boot code. -/
def threadDummy : Tid := 0

def threadIdle : Tid := 1

/-- The state after `thread_bootstrap` and `thread_setup`: the dummy thread is current, the lists are
empty, the idle thread exists. -/
def threadSetup (links : Links Node) : State where
  thread := fun t => threadInit (if t = threadIdle then THREAD_IDLE_PRIORITY else 0)
  created := [threadIdle]
  next := threadIdle + 1
  current := threadDummy
  nrThreads := 0
  links := (List.range THREAD_NR_PRIORITIES).foldl (fun l p => listInit l (.head p)) links
  idle := threadIdle
  intr := false
  stack := fun _ => [⟨.main,false,false,Fn.code .main⟩]

/-- `thread_enable_scheduler` -/
def threadEnableScheduler (s : State) : Except Fault State := do
  let s ← threadRunqGetNext s
  assert (s.self.preemptLevel = 1)
  return { s with intr := false }

/-- The instructions the code of a thread can begin at a point of its own choice. -/
def Instr.Api (s : State) : Instr → Prop
  | .preemptDisable | .preemptEnableNoYield | .yieldIfNeeded | .intrEnable | .intrDisable => True
  | .call .preemptEnable | .call .yield | .call .sleep | .call .exit | .call (.create _) => True
  | .call (.wakeup t) => ∀ u ∈ t, u ∈ s.created
  | .call (.join t) => t ∈ s.created
  | _ => False

/-- The current thread executes an instruction, returns from a call, or begins a new one. -/
inductive ThreadStep : State → State → Prop where
  | instr {s s' : State} {f : Frame} {fs : List Frame} {i : Instr} {k : List Instr} :
      s.stack s.current = f :: fs → f.code = i :: k →
      exec (s.setStack ({ f with code := k } :: fs)) i = .ok s' → ThreadStep s s'
  | ret {s : State} {f : Frame} {fs : List Frame} : s.stack s.current = f :: fs → f.code = [] →
      f.fn ≠ .main → ThreadStep s (s.setStack fs)
  | invoke {s : State} {f : Frame} (i : Instr) : s.stack s.current = [f] → f.fn = .main → f.code = [] →
      s.current ≠ s.idle → i.Api s → ThreadStep s (s.setStack [{ f with code := [i] }])

inductive Step : State → State → Prop where
  | thread {s s' : State} : ThreadStep s s' → Step s s'
  | interrupt {s s' : State} (acts : List Act) : s.intr = true →
      (∀ t, Act.wake t ∈ acts → t ∈ s.created) → cpuIntrMain s acts = .ok s' → Step s s'

/-- The boot code: any threads are created before the scheduler is enabled. -/
inductive Booting : State → Prop where
  | setup (links : Links Node) : Booting (threadSetup links)
  | create {s s' : State} {priority : ℕ} : Booting s → threadCreate s priority = .ok s' → Booting s'

inductive Reachable : State → Prop where
  | enable {s s' : State} : Booting s → threadEnableScheduler s = .ok s' → Reachable s'
  | step {s s' : State} : Reachable s → Step s s' → Reachable s'

end X1.Sched
