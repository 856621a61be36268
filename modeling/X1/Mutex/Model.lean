import Mathlib.Data.List.Basic
import X1.Base.Word
import X1.Lib.List

/-! # The mutexes of mutex.c

A mutex and the threads that use it, over the part of the scheduler that mutex.c
relies on: a thread runs until it sleeps or, at preemption level 0, until it is
preempted, and any runnable thread can be next. Each thread has a program counter in
the code of its call. What a thread does outside of mutex.c may disable and enable
preemption and sleep, and any blocked thread may be woken at any moment.
-/
namespace X1.Mutex
open X1.Lib

/-- `enum thread_state`. A thread that has exited does nothing here and is never next. -/
inductive ThreadState where
  | running | sleeping
  deriving DecidableEq

/-- Where a thread is: in its own code, or in front of a statement of one of the functions. -/
inductive Pc where
  | own
  /-- `mutex_lock`, in front of `thread_preempt_disable` -/
  | lockEnter
  /-- `if (mutex->locked)` -/
  | lockTest
  /-- `mutex_waiter_init`, `list_insert_tail` -/
  | lockQueue
  /-- `thread_sleep` -/
  | lockSleep
  /-- `while (mutex->locked)` -/
  | lockRetest
  /-- `list_remove` -/
  | lockDequeue
  /-- `mutex_set_owner` -/
  | lockSetOwner
  /-- `thread_preempt_enable` -/
  | lockLeave
  | lockReturn
  | tryEnter
  | tryTest
  | trySetOwner
  | tryLeave (busy : Bool)
  | tryReturn (busy : Bool)
  | unlockEnter
  /-- `mutex_clear_owner` -/
  | unlockClear
  /-- `mutex_waiter_wakeup` of the first waiter -/
  | unlockWakeup
  | unlockLeave
  deriving DecidableEq

/-- `holding` is set from the return of `mutex_lock`, or of a successful `mutex_trylock`, to the call of
`mutex_unlock`. -/
structure Thread where
  state : ThreadState
  preemptLevel : ℕ
  pc : Pc
  holding : Bool

/-- A `struct list`: the head of the waiters, or the node of the `struct mutex_waiter` on the stack of a
thread. -/
inductive Node (T : Type) where
  | waiters
  | waiter (t : T)
  deriving DecidableEq

/-- The failed assertions: those of `mutex_set_owner` and `mutex_clear_owner`, and those of thread.c.
`wild` is a list head taken for a waiter. -/
inductive Fault where
  | owner
  | preempt
  | wild
  deriving DecidableEq

/-- `waiterThread` is the member `thread` of the waiter on the stack of a thread. -/
structure State (T : Type) where
  thread : T → Thread
  current : T
  waiterThread : T → T
  links : Links (Node T)
  locked : Bool
  owner : Option T

def assert (fault : Fault) (b : Bool) : Except Fault Unit := if b then .ok () else .error fault

variable {T : Type} [DecidableEq T]

namespace State

def self (s : State T) : Thread := s.thread s.current

def modify (s : State T) (t : T) (f : Thread → Thread) : State T :=
  { s with thread := Function.update s.thread t (f (s.thread t)) }

def goto (s : State T) (pc : Pc) : State T := s.modify s.current fun th => { th with pc := pc }

def setLevel (s : State T) (level : ℕ) : State T :=
  s.modify s.current fun th => { th with preemptLevel := level }

end State

def threadPreemptDisable (s : State T) : Except Fault (State T) := do
  let level := (s.self.preemptLevel + 1) % 2 ^ 32
  assert .preempt (level ≠ 0)
  return s.setLevel level

/-- `thread_preempt_enable`, but for the switch: at level 0 the thread can be preempted at any time. -/
def threadPreemptEnable (s : State T) : Except Fault (State T) := do
  assert .preempt (s.self.preemptLevel ≠ 0)
  return s.setLevel (s.self.preemptLevel - 1)

/-- `thread_sleep`, when the scheduler picks `next`. -/
def threadSleep (s : State T) (next : T) : Except Fault (State T) := do
  assert .preempt (s.self.state = .running)
  assert .preempt (s.self.preemptLevel = 1)
  return { s.modify s.current fun th => { th with state := .sleeping } with current := next }

/-- `thread_wakeup` with preemption disabled: no switch follows. -/
def threadWakeup (s : State T) (t : T) : State T :=
  if t = s.current then s else s.modify t fun th => { th with state := .running }

def mutexInit (s : State T) : State T := { s with links := listInit s.links .waiters, locked := false }

def mutexSetOwner (s : State T) (t : T) : Except Fault (State T) := do
  assert .owner s.owner.isNone
  assert .owner !s.locked
  return { s with owner := some t, locked := true }

def mutexClearOwner (s : State T) : Except Fault (State T) := do
  assert .owner (s.owner = some s.current)
  assert .owner s.locked
  return { s with owner := none, locked := false }

/-- `mutex_waiter_init` and `list_insert_tail` -/
def mutexWaiterInsert (s : State T) : State T :=
  { s with
    waiterThread := Function.update s.waiterThread s.current s.current
    links := listInsertTail s.links .waiters (.waiter s.current) }

def mutexWaiterRemove (s : State T) : State T := { s with links := listRemove s.links (.waiter s.current) }

/-- What `mutex_unlock` does with the list of waiters. -/
def mutexWakeupFirst (s : State T) : Except Fault (State T) :=
  if listEmpty s.links .waiters then return s
  else
    match listFirst s.links .waiters with
    | .waiter w => return threadWakeup s (s.waiterThread w)
    | .waiters => .error .wild

/-- One statement of the function the current thread is in; `next` is the thread that runs after it,
should it sleep. -/
def exec (s : State T) (next : T) : Except Fault (State T) :=
  match s.self.pc with
  | .own => return s
  | .lockEnter => return (← threadPreemptDisable s).goto .lockTest
  | .lockTest => return s.goto (if s.locked then .lockQueue else .lockSetOwner)
  | .lockQueue => return (mutexWaiterInsert s).goto .lockSleep
  | .lockSleep => threadSleep (s.goto .lockRetest) next
  | .lockRetest => return s.goto (if s.locked then .lockSleep else .lockDequeue)
  | .lockDequeue => return (mutexWaiterRemove s).goto .lockSetOwner
  | .lockSetOwner => return (← mutexSetOwner s s.current).goto .lockLeave
  | .lockLeave => return (← threadPreemptEnable s).goto .lockReturn
  | .lockReturn => return s.modify s.current fun th => { th with pc := .own, holding := true }
  | .tryEnter => return (← threadPreemptDisable s).goto .tryTest
  | .tryTest => return s.goto (if s.locked then .tryLeave true else .trySetOwner)
  | .trySetOwner => return (← mutexSetOwner s s.current).goto (.tryLeave false)
  | .tryLeave busy => return (← threadPreemptEnable s).goto (.tryReturn busy)
  | .tryReturn busy =>
    return s.modify s.current fun th => { th with pc := .own, holding := th.holding || !busy }
  | .unlockEnter => return (← threadPreemptDisable s).goto .unlockClear
  | .unlockClear => return (← mutexClearOwner s).goto .unlockWakeup
  | .unlockWakeup => return (← mutexWakeupFirst s).goto .unlockLeave
  | .unlockLeave => return (← threadPreemptEnable s).goto .own

/-- The calls of the three functions from a thread's own code: `mutex_lock` with preemption enabled and
not by the holder, `mutex_unlock` by the holder. -/
inductive Call : Thread → Thread → Prop where
  | lock {th : Thread} : th.preemptLevel = 0 → th.holding = false → Call th { th with pc := .lockEnter }
  | trylock {th : Thread} : Call th { th with pc := .tryEnter }
  | unlock {th : Thread} : th.holding = true → Call th { th with pc := .unlockEnter, holding := false }

/-- A statement of the current thread, a call, something else its own code does, a preemption, or a
wake-up from anywhere. -/
inductive Step : State T → State T → Prop where
  | exec {s s' : State T} (next : T) : s.self.pc ≠ .own → exec s next = .ok s' →
      s'.self.state = .running → Step s s'
  | call {s : State T} {th : Thread} : s.self.pc = .own → Call s.self th →
      Step s (s.modify s.current fun _ => th)
  | disable {s s' : State T} : s.self.pc = .own → threadPreemptDisable s = .ok s' → Step s s'
  | enable {s s' : State T} : s.self.pc = .own → threadPreemptEnable s = .ok s' → Step s s'
  | sleep {s s' : State T} (next : T) : s.self.pc = .own → threadSleep s next = .ok s' →
      s'.self.state = .running → Step s s'
  | preempt {s : State T} (next : T) : s.self.preemptLevel = 0 → (s.thread next).state = .running →
      Step s { s with current := next }
  | wakeup {s : State T} (t : T) : Step s (s.modify t fun th => { th with state := .running })

/-- A mutex in zeroed storage has been initialised, and no thread has called a function yet. -/
structure Initial (s : State T) : Prop where
  own : ∀ t, (s.thread t).pc = .own ∧ (s.thread t).holding = false
  running : s.self.state = .running
  zeroed : ∃ s₀ : State T, s₀.owner = none ∧ s = mutexInit s₀

inductive Reachable : State T → Prop where
  | init {s : State T} : Initial s → Reachable s
  | step {s s' : State T} : Reachable s → Step s s' → Reachable s'

end X1.Mutex
