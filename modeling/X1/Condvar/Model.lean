import X1.Condvar.History
import X1.Mutex.Model

/-! # The condition variables of condvar.c

A condition variable, the mutex associated with it and the threads that use both, over
the machine of the mutex: a thread has a place in the code of condvar.c besides the one
in mutex.c, which `condvar_wait` calls twice. The history of the queue is recorded.
-/
namespace X1.Condvar
open X1.Lib X1.Mutex

/-- A `struct list`: the head of the waiters, or the node of the `struct condvar_waiter` on the stack of a
thread. -/
inductive Node (T : Type) where
  | waiters
  | waiter (t : T)
  deriving DecidableEq

/-- Where a thread is: outside of condvar.c, or in front of a statement of one of the functions. -/
inductive Pc (T : Type) where
  | own
  /-- `condvar_waiter_init` -/
  | waitInit
  /-- `thread_preempt_disable` -/
  | waitEnter
  /-- the call of `mutex_unlock` -/
  | waitUnlock
  /-- in `mutex_unlock` -/
  | waitUnlocking
  /-- `list_insert_tail` -/
  | waitQueue
  /-- `thread_sleep` -/
  | waitSleep
  /-- `while (!condvar_waiter_awaken(&waiter))` -/
  | waitRetest
  /-- `list_remove` -/
  | waitDequeue
  /-- `thread_preempt_enable` -/
  | waitLeave
  /-- the call of `mutex_lock` -/
  | waitLock
  /-- in `mutex_lock` -/
  | waitLocking
  | signalEnter
  /-- `entry = list_first_entry(...)` -/
  | signalFirst
  /-- the test of the loop and its body -/
  | signalVisit (entry : Node T)
  | signalLeave
  | broadcastEnter
  | broadcastFirst
  | broadcastVisit (entry : Node T)
  | broadcastLeave
  deriving DecidableEq

/-- `waiterThread` and `awaken` are members of the waiter on the stack of a thread. -/
structure State (T : Type) where
  mutex : Mutex.State T
  pc : T → Pc T
  waiterThread : T → T
  awaken : T → Bool
  links : Links (Node T)
  log : List (Event T)

variable {T : Type} [DecidableEq T]

namespace State

def current (s : State T) : T := s.mutex.current

def goto (s : State T) (pc : Pc T) : State T := { s with pc := Function.update s.pc s.current pc }

def record (s : State T) (e : Event T) : State T := { s with log := s.log ++ [e] }

def Outside (s : State T) : Prop := s.pc s.current = .own ∧ s.mutex.self.pc = .own

instance (s : State T) : Decidable s.Outside := inferInstanceAs (Decidable (_ ∧ _))

end State

def condvarWaiterInit (s : State T) (waiter : T) (thread : T) : State T :=
  { s with
    waiterThread := Function.update s.waiterThread waiter thread
    awaken := Function.update s.awaken waiter false }

def condvarWaiterAwaken (s : State T) (waiter : T) : Bool := s.awaken waiter

def condvarWaiterWakeup (s : State T) (waiter : T) : State T × Bool :=
  if condvarWaiterAwaken s waiter then (s,false)
  else ({ s with
    mutex := threadWakeup s.mutex (s.waiterThread waiter)
    awaken := Function.update s.awaken waiter true },true)

/-- `list_insert_tail` -/
def condvarWaiterInsert (s : State T) : State T :=
  { s with links := listInsertTail s.links .waiters (.waiter s.current) }

def condvarWaiterRemove (s : State T) : State T := { s with links := listRemove s.links (.waiter s.current) }

def condvarInit (s : State T) : State T := { s with links := listInit s.links .waiters }

/-- The body of the loop of `condvar_signal`, which ends at the first waiter it wakes. -/
def signalBody (s : State T) : Node T → State T
  | .waiters => (s.record (.signal none)).goto .signalLeave
  | .waiter w =>
    let (s',awaken) := condvarWaiterWakeup s w
    if awaken then (s'.record (.signal (some w))).goto .signalLeave
    else s'.goto (.signalVisit (listNext s'.links (.waiter w)))

def broadcastBody (s : State T) : Node T → State T
  | .waiters => s.goto .broadcastLeave
  | .waiter w =>
    let (s',awaken) := condvarWaiterWakeup s w
    let s' := if awaken then s'.record (.broadcast w) else s'
    s'.goto (.broadcastVisit (listNext s'.links (.waiter w)))

def enterMutex (s : State T) (pc : Mutex.Pc) : State T :=
  { s with mutex := s.mutex.modify s.current fun th => { th with pc := pc, holding := false } }

/-- One statement of the function the current thread is in; `next` is the thread that runs after it,
should it sleep. -/
def exec (s : State T) (next : T) : Except Fault (State T) :=
  match s.pc s.current with
  | .own => return { s with mutex := ← Mutex.exec s.mutex next }
  | .waitInit => return (condvarWaiterInit s s.current s.current).goto .waitEnter
  | .waitEnter => return ({ s with mutex := ← threadPreemptDisable s.mutex } : State T).goto .waitUnlock
  | .waitUnlock => return (enterMutex s .unlockEnter).goto .waitUnlocking
  | .waitUnlocking =>
    if s.mutex.self.pc = .own then return s.goto .waitQueue
    else return { s with mutex := ← Mutex.exec s.mutex next }
  | .waitQueue => return ((condvarWaiterInsert s).record (.queued s.current)).goto .waitSleep
  | .waitSleep => return { s.goto .waitRetest with mutex := ← threadSleep s.mutex next }
  | .waitRetest => return s.goto (if condvarWaiterAwaken s s.current then .waitDequeue else .waitSleep)
  | .waitDequeue => return ((condvarWaiterRemove s).record (.left s.current)).goto .waitLeave
  | .waitLeave => return ({ s with mutex := ← threadPreemptEnable s.mutex } : State T).goto .waitLock
  | .waitLock => return (enterMutex s .lockEnter).goto .waitLocking
  | .waitLocking =>
    if s.mutex.self.pc = .own then return s.goto .own
    else return { s with mutex := ← Mutex.exec s.mutex next }
  | .signalEnter => return ({ s with mutex := ← threadPreemptDisable s.mutex } : State T).goto .signalFirst
  | .signalFirst => return s.goto (.signalVisit (listFirst s.links .waiters))
  | .signalVisit entry => return signalBody s entry
  | .signalLeave => return ({ s with mutex := ← threadPreemptEnable s.mutex } : State T).goto .own
  | .broadcastEnter => return ({ s with mutex := ← threadPreemptDisable s.mutex } : State T).goto .broadcastFirst
  | .broadcastFirst => return s.goto (.broadcastVisit (listFirst s.links .waiters))
  | .broadcastVisit entry => return broadcastBody s entry
  | .broadcastLeave => return ({ s with mutex := ← threadPreemptEnable s.mutex } : State T).goto .own

inductive Func where
  | lock | trylock | unlock | wait | signal | broadcast
  deriving DecidableEq

/-- A call from a thread's own code: the functions that sleep with preemption enabled, `mutex_lock` not by
the holder, and `mutex_unlock` and `condvar_wait` by the holder. -/
inductive Call : Func → State T → State T → Prop where
  | lock {s : State T} : s.mutex.self.preemptLevel = 0 → s.mutex.self.holding = false →
      Call .lock s (enterMutex s .lockEnter)
  | trylock {s : State T} : Call .trylock s { s with mutex := s.mutex.goto .tryEnter }
  | unlock {s : State T} : s.mutex.self.holding = true → Call .unlock s (enterMutex s .unlockEnter)
  | wait {s : State T} : s.mutex.self.preemptLevel = 0 → s.mutex.self.holding = true → Call .wait s (s.goto .waitInit)
  | signal {s : State T} : Call .signal s (s.goto .signalEnter)
  | broadcast {s : State T} : Call .broadcast s (s.goto .broadcastEnter)

/-- A statement of the current thread, a call, something else its own code does, a preemption, or a wake-up
from anywhere. The label tells the calls. -/
inductive Step : Option Func → State T → State T → Prop where
  | exec {s s' : State T} (next : T) : ¬s.Outside → exec s next = .ok s' → s'.mutex.self.state = .running →
      Step none s s'
  | call {s s' : State T} {f : Func} : s.Outside → Call f s s' → Step (some f) s s'
  | disable {s : State T} {m : Mutex.State T} : s.Outside → threadPreemptDisable s.mutex = .ok m →
      Step none s { s with mutex := m }
  | enable {s : State T} {m : Mutex.State T} : s.Outside → threadPreemptEnable s.mutex = .ok m →
      Step none s { s with mutex := m }
  | sleep {s : State T} {m : Mutex.State T} (next : T) : s.Outside → threadSleep s.mutex next = .ok m →
      m.self.state = .running → Step none s { s with mutex := m }
  | preempt {s : State T} (next : T) : s.mutex.self.preemptLevel = 0 → (s.mutex.thread next).state = .running →
      Step none s { s with mutex := { s.mutex with current := next } }
  | wakeup {s : State T} (t : T) :
      Step none s { s with mutex := s.mutex.modify t fun th => { th with state := .running } }

/-- The mutex and the condition variable have been initialised, and no thread has called a function yet. -/
structure Initial (s : State T) : Prop where
  mutex : Mutex.Initial s.mutex
  own : ∀ t, s.pc t = .own
  init : ∃ s₀ : State T, s = condvarInit s₀
  log : s.log = []

inductive Reachable : State T → Prop where
  | init {s : State T} : Initial s → Reachable s
  | step {f : Option Func} {s s' : State T} : Reachable s → Step f s s' → Reachable s'

end X1.Condvar
