import X1.Base.Flow
import X1.Base.Word

/-! # The preemption level and the interrupt flag of the kernel

All functions that touch the preemption level of a thread or the interrupt flag of the
processor, with the calls they make of each other. What they find in the rest of their
data (mutexes, lists, timers, the buffer of the serial port, yield flags, the run queue)
is left open: a test of it is a choice, a loop on it runs any number of times, a wake-up
goes to any thread, and any runnable thread can be next. Each thread has a stack of
frames, and an interrupt can come in between any two steps while the flag is set.
-/
namespace X1.Kernel
open X1.Flow

/-- The functions a frame can belong to. `timerFn` is the function of a timer, `boot` the code that runs
before the scheduler is enabled; like the code behind `threadMain`, they are not fixed here. -/
inductive Fn where
  | threadYield | threadSleep | threadWakeup | threadCreate | threadExit | threadJoin | threadMain
  | mutexLock | mutexTrylock | mutexUnlock
  | condvarSignal | condvarBroadcast | condvarWait
  | memAlloc | memFree
  | uartRead | vprintf
  | timerNow | timerGetTime | timerSchedule | timerSetup | timerProcessList | timerRun | timerFn
  | cpuIntrMain
  | boot
  deriving DecidableEq

inductive Act where
  | preemptDisable
  | preemptEnableNoYield
  | intrSave
  | intrRestore
  | intrEnable
  | intrDisable
  /-- `assert(!cpu_intr_enabled())` -/
  | assertIntrDisabled
  /-- `assert(thread_preempt_enabled())` -/
  | assertPreemptEnabled
  /-- the assertions of `thread_main` -/
  | assertMain
  | assertRunning
  | assertDead
  | setSleeping
  | setDead
  | setRunning
  | runqAdd
  | runqSchedule
  /-- `thread_init`, with the stack forged -/
  | threadInit
  /-- the end of `thread_destroy` -/
  | destroy
  | enableScheduler
  | panic
  deriving DecidableEq

inductive Test where
  /-- `thread_preempt_enabled` -/
  | preemptEnabled
  /-- the scheduler has not been enabled -/
  | booting
  deriving DecidableEq

abbrev Code := Prog Act Test Fn

/-! ## The functions -/

def threadYieldIfNeeded : Code := .choice (.call .threadYield) .skip

def threadPreemptEnable : Code := block [.act .preemptEnableNoYield,threadYieldIfNeeded]

def threadLockScheduler : Code := block [.act .preemptDisable,.act .intrSave]

def threadUnlockScheduler (yield : Bool) : Code :=
  block [.act .intrRestore,if yield then threadPreemptEnable else .act .preemptEnableNoYield]

def threadDestroy : Code := block [.act .assertDead,.call .memFree,.call .memFree,.act .destroy]

/-- `timer_work_pending`: the result is left open. -/
def timerWorkPending : Code := .act .assertIntrDisabled

def timerReportTick : Code := block [timerWorkPending,.choice (.call .threadWakeup) .skip]

/-- `i8254_irq_handler` -/
def threadReportTick : Code := timerReportTick

def uartIrqHandler : Code := .choice (.call .vprintf) (.call .threadWakeup)

/-- `do { thread_sleep(); } while (...)` -/
def sleepLoop : Code := block [.call .threadSleep,.loop (.call .threadSleep)]

def Fn.body : Fn → List Code
  | threadYield =>
    [.ite .preemptEnabled (block [threadLockScheduler,.act .runqSchedule,threadUnlockScheduler false]) .skip]
  | threadSleep =>
    [.act .intrSave,.act .assertRunning,.act .setSleeping,.act .runqSchedule,.act .assertRunning,
      .act .intrRestore]
  | threadWakeup =>
    [.choice .skip (block [threadLockScheduler,.choice .skip (block [.act .setRunning,.act .runqAdd]),
      threadUnlockScheduler true])]
  | threadCreate =>
    [.call .memAlloc,.choice .skip (block [.call .memAlloc,.choice (.call .memFree)
      (block [.act .threadInit,threadLockScheduler,.act .runqAdd,threadUnlockScheduler true])])]
  | threadExit =>
    [.act .assertPreemptEnabled,threadLockScheduler,.act .assertRunning,.act .setDead,.call .threadWakeup,
      .act .runqSchedule,.act .panic]
  | threadJoin => [threadLockScheduler,.loop (.call .threadSleep),threadUnlockScheduler true,threadDestroy]
  | threadMain => [.act .assertMain,.act .intrEnable,threadPreemptEnable]
  -- while there is no other thread, the mutex is free
  | mutexLock => [.act .preemptDisable,.ite .booting .skip (.choice .skip sleepLoop),threadPreemptEnable]
  | mutexTrylock => [.act .preemptDisable,threadPreemptEnable]
  | mutexUnlock => [.act .preemptDisable,.choice .skip (.call .threadWakeup),threadPreemptEnable]
  | condvarSignal => [.act .preemptDisable,.loop (.choice .skip (.call .threadWakeup)),threadPreemptEnable]
  | condvarBroadcast => [.act .preemptDisable,.loop (.choice .skip (.call .threadWakeup)),threadPreemptEnable]
  | condvarWait => [.act .preemptDisable,.call .mutexUnlock,sleepLoop,threadPreemptEnable,.call .mutexLock]
  | memAlloc => [.choice .skip (block [.call .mutexLock,.call .mutexUnlock])]
  | memFree => [.choice .skip (block [.call .mutexLock,.call .mutexUnlock])]
  | uartRead =>
    [.act .preemptDisable,.act .intrSave,.choice .skip (.loop (.call .threadSleep)),.act .intrRestore,
      threadPreemptEnable]
  | vprintf => [.act .preemptDisable,.act .intrSave,.act .intrRestore,threadPreemptEnable]
  | timerNow => [.act .intrSave,.act .intrRestore]
  | timerGetTime => [.call .mutexLock,.call .mutexUnlock]
  | timerSchedule => [.call .mutexLock,.act .intrSave,.act .intrRestore,.call .mutexUnlock]
  | timerSetup => [.call .threadCreate,.choice (.act .panic) .skip]
  | timerProcessList =>
    [.call .mutexLock,.loop (block [.call .mutexUnlock,.call .timerFn,.call .mutexLock]),.act .intrSave,
      .act .intrRestore,.call .mutexUnlock]
  | timerRun =>
    [.forever (block [.act .preemptDisable,.act .intrSave,timerWorkPending,
      .loop (block [.call .threadSleep,timerWorkPending]),.act .intrRestore,threadPreemptEnable,
      .call .timerProcessList])]
  | cpuIntrMain =>
    [.act .assertIntrDisabled,.act .preemptDisable,
      -- an exception, or the end of interrupt is signalled and the handler runs, if there is one
      .choice .skip (block [.act .assertIntrDisabled,
        .choice (.call .vprintf) (.choice threadReportTick uartIrqHandler)]),
      threadPreemptEnable]
  | timerFn => []
  | boot => []

/-! ## What a frame sees -/

/-- The preemption level, the interrupt flag and the local `eflags` of the running frame. `cap` tells
whether interrupts can be on in it at all. -/
structure Local where
  level : ℕ
  intr : Bool
  eflags : Bool
  cap : Bool
  boot : Bool

/-- What an action does to the frame that executes it; `none` is a failed assertion or a panic. -/
def Act.effect (l : Local) : Act → Option Local
  | preemptDisable => if (l.level + 1) % 2 ^ 32 = 0 then none else some { l with level := (l.level + 1) % 2 ^ 32 }
  | preemptEnableNoYield => if l.level = 0 then none else some { l with level := l.level - 1 }
  | intrSave => some { l with eflags := l.intr, intr := false }
  | intrRestore => some { l with intr := l.eflags }
  | intrEnable => some { l with intr := true }
  | intrDisable => some { l with intr := false }
  | assertIntrDisabled => if l.intr then none else some l
  | assertPreemptEnabled => if l.level = 0 then some l else none
  | enableScheduler | panic => none
  | _ => some l

/-- What the assertions on the scheduler ask. Interrupts are enabled only where they may be. -/
def Act.Safe (l : Local) : Act → Prop
  | runqAdd => l.intr = false ∧ l.level ≠ 0
  | runqSchedule => l.intr = false ∧ l.level = 1 ∧ l.boot = false
  | assertMain => l.intr = false ∧ l.level = 1
  | enableScheduler => l.boot = true
  | intrEnable => l.cap = true
  | _ => True

def Test.holds (l : Local) : Test → Bool
  | preemptEnabled => l.level = 0
  | booting => l.boot

/-- The level at which a function is called: 0 for those that may sleep, but for the mutexes before the
scheduler is enabled. Three are never called. -/
def Fn.Asks (l : Local) : Fn → Prop
  | threadSleep => l.level = 1 ∧ l.boot = false
  | threadJoin | condvarWait | uartRead | timerProcessList | timerRun => l.level = 0
  | mutexLock | memAlloc | memFree | threadCreate | timerGetTime | timerSchedule | timerSetup =>
    l.level = 0 ∨ l.boot = true
  | timerFn => l.boot = false
  | threadMain | cpuIntrMain | boot => False
  | _ => True

def spec : Spec Act Test Fn Local where
  Safe a l := a.Safe l
  Post a l l' := a.effect l = some l'
  holds c l := c.holds l
  Pre f l := l.level < 2 ^ 32 ∧ (l.boot = true → l.level ≠ 0) ∧ f.Asks l

/-! ## The machine -/

/-- `enum thread_state` -/
inductive ThreadState where
  | running | sleeping | dead
  deriving DecidableEq

/-- A call in progress: the level and the interrupt flag when it was made, its local `eflags`, and what is
left to do. For `cpuIntrMain` the flag is the one the processor has pushed. -/
structure Frame where
  fn : Fn
  callLevel : ℕ
  callIntr : Bool
  eflags : Bool
  code : List Code

/-- `saved` is the interrupt flag in the EFLAGS on the stack, when the thread does not run. -/
structure Thread where
  level : ℕ
  saved : Bool
  state : ThreadState
  stack : List Frame

/-- `live` are the threads that have been created and not destroyed, `intr` is the interrupt flag. -/
structure State (T : Type) where
  thread : T → Thread
  live : T → Bool
  current : T
  intr : Bool
  booting : Bool

/-- The assertions that the scheduler is locked or a level is 1, and all others. -/
inductive Fault where
  | scheduler | other
  deriving DecidableEq

def assert (fault : Fault) (b : Bool) : Except Fault Unit := if b then .ok () else .error fault

def Frame.cap (f : Frame) : Bool :=
  match f.fn with
  | .threadMain => true
  | .cpuIntrMain | .boot => false
  | _ => f.callIntr

variable {T : Type} [DecidableEq T]

namespace State

/-- `thread_self` -/
def self (s : State T) : Thread := s.thread s.current

def modify (s : State T) (t : T) (f : Thread → Thread) : State T :=
  { s with thread := Function.update s.thread t (f (s.thread t)) }

def setStack (s : State T) (fs : List Frame) : State T := s.modify s.current fun th => { th with stack := fs }

def setLevel (s : State T) (level : ℕ) : State T := s.modify s.current fun th => { th with level := level }

def setState (s : State T) (t : T) (state : ThreadState) : State T :=
  s.modify t fun th => { th with state := state }

/-- What the frame `f` sees, when it runs. -/
def view (s : State T) (f : Frame) : Local := ⟨s.self.level,s.intr,f.eflags,f.cap,s.booting⟩

/-- A call of `fn`. -/
def push (s : State T) (fn : Fn) : State T :=
  s.setStack (⟨fn,s.self.level,s.intr,false,fn.body⟩ :: s.self.stack)

def eflags (s : State T) : Bool :=
  match s.self.stack with
  | [] => false
  | f :: _ => f.eflags

/-- Change the running frame. -/
def setEflags (s : State T) (eflags : Bool) : State T :=
  match s.self.stack with
  | [] => s
  | f :: fs => s.setStack ({ f with eflags := eflags } :: fs)

end State

def threadSchedulerLocked (s : State T) : Bool := !s.intr && s.self.level ≠ 0

/-- `thread_switch_context`: the flags are pushed on one stack and popped from the other. -/
def threadSwitchContext (s : State T) (next : T) : State T :=
  let s := s.modify s.current fun th => { th with saved := s.intr }
  { s with current := next, intr := (s.thread next).saved }

/-- The stack forged for a new thread makes it begin in `thread_main` with interrupts off. -/
def forged : Thread := ⟨1,false,.running,[⟨.threadMain,1,false,false,Fn.body .threadMain⟩]⟩

/-- An action of the current thread, already taken from its frame; `t` is the thread that the data of the
kernel leads to, where there is one. -/
def exec (s : State T) (t : T) : Act → Except Fault (State T)
  | .preemptDisable => do
    assert .other ((s.self.level + 1) % 2 ^ 32 ≠ 0)
    return s.setLevel ((s.self.level + 1) % 2 ^ 32)
  | .preemptEnableNoYield => do
    assert .other (s.self.level ≠ 0)
    return s.setLevel (s.self.level - 1)
  | .intrSave => return { s.setEflags s.intr with intr := false }
  | .intrRestore => return { s with intr := s.eflags }
  | .intrEnable => return { s with intr := true }
  | .intrDisable => return { s with intr := false }
  | .assertIntrDisabled => do
    assert .other !s.intr
    return s
  | .assertPreemptEnabled => do
    assert .other (s.self.level = 0)
    return s
  | .assertMain => do
    assert .scheduler (threadSchedulerLocked s)
    assert .scheduler (s.self.level = 1)
    return s
  | .assertRunning => do
    assert .other (s.self.state = .running)
    return s
  | .assertDead => do
    assert .other ((s.thread t).state = .dead)
    return s
  | .setSleeping => return s.setState s.current .sleeping
  | .setDead => return s.setState s.current .dead
  | .setRunning => do
    assert .other ((s.thread t).state ≠ .dead)
    return s.setState t .running
  | .runqAdd => do
    assert .scheduler (threadSchedulerLocked s)
    return s
  | .runqSchedule => do
    assert .scheduler (threadSchedulerLocked s)
    assert .scheduler (s.self.level = 1)
    return if t = s.current then s else threadSwitchContext s t
  | .threadInit =>
    return { s with thread := Function.update s.thread t forged, live := Function.update s.live t true }
  | .destroy => return { s with live := Function.update s.live t false }
  | .enableScheduler => do
    assert .scheduler ((s.thread t).level = 1)
    return { s with current := t, intr := (s.thread t).saved, booting := false }
  | .panic => .error .other

/-- The threads an action can be about: the next one is runnable, a new one did not exist. -/
def Act.Picks (s : State T) (t : T) : Act → Prop
  | runqSchedule | enableScheduler => s.live t = true ∧ (s.thread t).state = .running
  | threadInit => s.live t = false ∧ t ≠ s.current
  | _ => s.live t = true ∨ t = s.current

/-- The frames of code that is not part of the kernel. -/
def Fn.isUser : Fn → Bool
  | threadMain | timerFn | boot => true
  | _ => false

/-- The functions that code can call. -/
def Fn.isApi : Fn → Bool
  | threadMain | timerFn | boot | cpuIntrMain | timerProcessList => false
  | _ => true

/-- What code outside of the kernel can do next: call a function, or change its own level and its interrupt
flag. The code of the boot calls functions and enables the scheduler. -/
inductive UserCode (l : Local) : Fn → Code → Prop where
  | call {fn f : Fn} : f.isApi = true → f.Asks l → UserCode l fn (.call f)
  | disable {fn : Fn} : fn ≠ .boot → UserCode l fn (.act .preemptDisable)
  | enable {fn : Fn} : fn ≠ .boot → UserCode l fn threadPreemptEnable
  | intrDisable {fn : Fn} : fn ≠ .boot → UserCode l fn (.act .intrDisable)
  | intrEnable {fn : Fn} : fn ≠ .boot → l.cap = true → UserCode l fn (.act .intrEnable)
  | enableScheduler : UserCode l .boot (.act .enableScheduler)

/-- The current thread unfolds a statement, executes an action, makes a call or returns from one, or begins
something new in its own code; or an interrupt is delivered. The function of a timer returns with the level
and the flag it was called with, and the return from an interrupt restores the flag. -/
inductive Step : State T → State T → Prop where
  | unfold {s : State T} {f : Frame} {fs : List Frame} {k : List Code} : s.self.stack = f :: fs →
      Unfolds spec (s.view f) f.code k → Step s (s.setStack ({ f with code := k } :: fs))
  | act {s s' : State T} {f : Frame} {fs : List Frame} {a : Act} {k : List Code} (t : T) :
      s.self.stack = f :: fs → f.code = .act a :: k → a.Picks s t →
      exec (s.setStack ({ f with code := k } :: fs)) t a = .ok s' → Step s s'
  | call {s : State T} {f : Frame} {fs : List Frame} {g : Fn} {k : List Code} : s.self.stack = f :: fs →
      f.code = .call g :: k → Step s ((s.setStack ({ f with code := k } :: fs)).push g)
  | ret {s : State T} {f : Frame} {fs : List Frame} : s.self.stack = f :: fs → f.code = [] →
      f.fn ≠ .threadMain → f.fn ≠ .boot → (f.fn = .timerFn → s.self.level = f.callLevel ∧ s.intr = f.callIntr) →
      Step s { s.setStack fs with intr := if f.fn = .cpuIntrMain then f.callIntr else s.intr }
  | user {s : State T} {f : Frame} {fs : List Frame} (p : Code) : s.self.stack = f :: fs → f.code = [] →
      f.fn.isUser = true → UserCode (s.view f) f.fn p → Step s (s.setStack ({ f with code := [p] } :: fs))
  | interrupt {s : State T} : s.intr = true → Step s { s.push .cpuIntrMain with intr := false }

/-- The state after `thread_setup`: the boot code runs as the dummy thread, and the idle thread exists. -/
structure Initial (s : State T) : Prop where
  dummy : s.self.level = 1 ∧ s.self.stack = [⟨.boot,1,false,false,[]⟩] ∧ s.live s.current = false
  intr : s.intr = false
  booting : s.booting = true
  idle : ∃ idle, ∀ t, s.live t = true ↔ t = idle
  forged : ∀ t, s.live t = true → s.thread t = forged

inductive Reachable : State T → Prop where
  | init {s : State T} : Initial s → Reachable s
  | step {s s' : State T} : Reachable s → Step s s' → Reachable s'

end X1.Kernel
