import Mathlib.Data.List.Basic
import X1.Lib.Cbuf

/-! # The serial port of uart.c

The input side: the interrupt handler puts the bytes it reads from the port into a
circular buffer, and threads take them out with `uart_read`, where one of them can
sleep until a byte comes. As for the mutexes, a thread runs until it sleeps or, at
preemption level 0, until it is preempted, and any runnable thread can be next. A
context switch saves and restores the interrupt flag, so that each thread has its
own, and the handler can run whenever the flag of the current thread is set.
-/
namespace X1.Uart
open X1.Lib

def UART_BUFFER_SIZE : ℕ := 16

/-- `enum thread_state`. A thread that has exited does nothing here and is never next. -/
inductive ThreadState where
  | running | sleeping
  deriving DecidableEq

/-- What `uart_read` returns: `ERROR_BUSY`, or 0 and a byte. -/
inductive Result where
  | busy
  | byte (b : UInt8)
  deriving DecidableEq

/-- Where a thread is: in its own code, or in front of a statement of `uart_read`. -/
inductive Pc where
  | own
  /-- `thread_preempt_disable` -/
  | readEnter
  /-- `eflags = cpu_intr_save()` -/
  | readSave
  /-- `if (uart_waiter)` -/
  | readTest
  /-- `cbuf_popb`, and the test of its error -/
  | readPop
  /-- `uart_waiter = thread_self()` -/
  | readSetWaiter
  /-- `thread_sleep` -/
  | readSleep
  /-- `uart_waiter = NULL` -/
  | readClearWaiter
  /-- `cpu_intr_restore(eflags)` -/
  | readRestore (result : Result)
  /-- `thread_preempt_enable` -/
  | readLeave (result : Result)
  | readReturn (result : Result)
  deriving DecidableEq

/-- `intr` is the interrupt flag while the thread runs, `eflags` the local variable of `uart_read`. -/
structure Thread where
  state : ThreadState
  preemptLevel : ℕ
  intr : Bool
  eflags : Bool
  pc : Pc

/-- The last four members record the run: the bytes the handler has put into the buffer and those it has
dropped, the bytes taken out and the results returned, each with its thread. -/
structure State (T : Type) where
  thread : T → Thread
  current : T
  cbuf : Cbuf
  waiter : Option T
  accepted : List UInt8
  dropped : List UInt8
  popped : List (T × UInt8)
  returned : List (T × Result)

inductive Fault where
  | assertion
  deriving DecidableEq

def assert (b : Bool) : Except Fault Unit := if b then .ok () else .error .assertion

variable {T : Type} [DecidableEq T]

namespace State

def self (s : State T) : Thread := s.thread s.current

def modify (s : State T) (t : T) (f : Thread → Thread) : State T :=
  { s with thread := Function.update s.thread t (f (s.thread t)) }

def goto (s : State T) (pc : Pc) : State T := s.modify s.current fun th => { th with pc := pc }

end State

def threadPreemptDisable (s : State T) : Except Fault (State T) := do
  let level := (s.self.preemptLevel + 1) % 2 ^ 32
  assert (level ≠ 0)
  return s.modify s.current fun th => { th with preemptLevel := level }

/-- `thread_preempt_enable`, but for the switch: at level 0 the thread can be preempted at any time. -/
def threadPreemptEnable (s : State T) : Except Fault (State T) := do
  assert (s.self.preemptLevel ≠ 0)
  return s.modify s.current fun th => { th with preemptLevel := th.preemptLevel - 1 }

/-- `thread_sleep`, when the scheduler picks `next`. -/
def threadSleep (s : State T) (next : T) : Except Fault (State T) := do
  assert (s.self.state = .running)
  assert (s.self.preemptLevel = 1)
  return { s.modify s.current fun th => { th with state := .sleeping } with current := next }

/-- `thread_wakeup` from the handler, with preemption disabled: no switch follows. -/
def threadWakeup (s : State T) : Option T → State T
  | none => s
  | some t => if t = s.current then s else s.modify t fun th => { th with state := .running }

def cpuIntrSave (s : State T) : State T := s.modify s.current fun th => { th with eflags := th.intr, intr := false }

def cpuIntrRestore (s : State T) : State T := s.modify s.current fun th => { th with intr := th.eflags }

/-- The byte read from the port is dropped when the buffer is full. -/
def uartIrqHandler (s : State T) (byte : UInt8) : State T :=
  match cbufPushb s.cbuf byte false with
  | .error _ => { s with dropped := s.dropped ++ [byte] }
  | .ok cbuf => threadWakeup { s with cbuf := cbuf, accepted := s.accepted ++ [byte] } s.waiter

/-- One statement of `uart_read`; `next` is the thread that runs after it, should it sleep. -/
def exec (s : State T) (next : T) : Except Fault (State T) :=
  match s.self.pc with
  | .own => return s
  | .readEnter => return (← threadPreemptDisable s).goto .readSave
  | .readSave => return (cpuIntrSave s).goto .readTest
  | .readTest => return s.goto (if s.waiter.isSome then .readRestore .busy else .readPop)
  | .readPop =>
    match cbufPopb s.cbuf with
    | .ok (byte,cbuf) =>
      return ({ s with cbuf := cbuf, popped := s.popped ++ [(s.current,byte)] } : State T).goto
        (.readRestore (.byte byte))
    | .error _ => return s.goto .readSetWaiter
  | .readSetWaiter => return ({ s with waiter := some s.current } : State T).goto .readSleep
  | .readSleep => threadSleep (s.goto .readClearWaiter) next
  | .readClearWaiter => return ({ s with waiter := none } : State T).goto .readPop
  | .readRestore result => return (cpuIntrRestore s).goto (.readLeave result)
  | .readLeave result => return (← threadPreemptEnable s).goto (.readReturn result)
  | .readReturn result =>
    return ({ s with returned := s.returned ++ [(s.current,result)] } : State T).goto .own

/-- A statement of the current thread, a call with preemption enabled, something else its own code does,
a preemption, a wake-up from anywhere, or a byte that comes in. -/
inductive Step : State T → State T → Prop where
  | exec {s s' : State T} (next : T) : s.self.pc ≠ .own → exec s next = .ok s' →
      s'.self.state = .running → Step s s'
  -- Only calls at preemption level 0 are steps: at a higher one the assertion of the scheduler fails in `thread_sleep`.
  | call {s : State T} : s.self.pc = .own → s.self.preemptLevel = 0 → Step s (s.goto .readEnter)
  | disable {s s' : State T} : s.self.pc = .own → threadPreemptDisable s = .ok s' → Step s s'
  | enable {s s' : State T} : s.self.pc = .own → threadPreemptEnable s = .ok s' → Step s s'
  | intr {s : State T} (b : Bool) : s.self.pc = .own →
      Step s (s.modify s.current fun th => { th with intr := b })
  | sleep {s s' : State T} (next : T) : s.self.pc = .own → threadSleep s next = .ok s' →
      s'.self.state = .running → Step s s'
  | preempt {s : State T} (next : T) : s.self.preemptLevel = 0 → (s.thread next).state = .running →
      Step s { s with current := next }
  | wakeup {s : State T} (t : T) : Step s (s.modify t fun th => { th with state := .running })
  | irq {s : State T} (byte : UInt8) : s.self.intr = true → Step s (uartIrqHandler s byte)

structure Initial (s : State T) : Prop where
  own : ∀ t, (s.thread t).pc = .own
  running : s.self.state = .running
  cbuf : ∃ buf, s.cbuf = cbufInit buf UART_BUFFER_SIZE
  waiter : s.waiter = none
  record : s.accepted = [] ∧ s.dropped = [] ∧ s.popped = [] ∧ s.returned = []

inductive Reachable : State T → Prop where
  | init {s : State T} : Initial s → Reachable s
  | step {s s' : State T} : Reachable s → Step s s' → Reachable s'

end X1.Uart
