import X1.Mem.History
import X1.Mutex.Model
import X1.Sched.Model

/-! # A call of thread_create

The run queue of thread.c, the heap of mem.c and `mem_mutex` together, and `thread_create`
with the calls it makes of the allocator, executed by the current thread from beginning to
end. Where the code would let another thread run, the result is the fault `switch`. What
`thread_init` writes to the two new blocks is in the state of the scheduler; `arg` and
`name` go nowhere else.
-/
namespace X1.Create
open X1.Lib X1.Sched

/-- `sizeof(struct thread)`: `sp`, `state`, `yield`, `node`, `preempt_level`, `priority`, `joiner`, `name`
and `stack`. -/
def THREAD_SIZE : ℕ := 4 + 4 + 4 + 8 + 4 + 4 + 4 + 16 + 4

def ERROR_NOMEM : ℕ := 3

/-- `mem_mutex`, and the member `thread` of the waiters on the stacks of the threads. -/
structure MemMutex where
  waiters : Links (Mutex.Node Tid)
  waiterThread : Tid → Tid
  locked : Bool
  owner : Option Tid

structure System where
  sched : Sched.State
  mutex : MemMutex
  heap : Mem.Heap

/-! ## thread.c -/

/-- `thread_yield`. The thread goes on when it is itself the next one. -/
def threadYield (s : Sched.State) : Except Fault Sched.State :=
  if !threadPreemptEnabled s then return s
  else do
    let thread := s.current
    let s ← threadPreemptDisable s
    let eflags := s.intr
    let s ← threadRunqSchedule (threadClearYield { s with intr := false } thread)
    if s.current = thread then threadPreemptEnableNoYield { s with intr := eflags } else .error .switch

def threadPreemptEnable (s : Sched.State) : Except Fault Sched.State := do
  let s ← threadPreemptEnableNoYield s
  if s.self.yield then threadYield s else return s

/-! ## mutex.c -/

def mutexSetOwner (m : MemMutex) (t : Tid) : Except Fault MemMutex := do
  assert m.owner.isNone
  assert !m.locked
  return { m with owner := some t, locked := true }

def mutexClearOwner (m : MemMutex) (t : Tid) : Except Fault MemMutex := do
  assert (m.owner = some t)
  assert m.locked
  return { m with owner := none, locked := false }

/-- `mutex_lock`. When the mutex is locked the thread sleeps, and another one runs. -/
def mutexLock (s : System) : Except Fault System := do
  let sched ← threadPreemptDisable s.sched
  if s.mutex.locked then .error .switch
  else do
    let mutex ← mutexSetOwner s.mutex sched.current
    let sched ← threadPreemptEnable sched
    return { s with sched := sched, mutex := mutex }

/-- What `mutex_unlock` does with the list of waiters. -/
def mutexWakeupFirst (m : MemMutex) (s : Sched.State) : Except Fault Sched.State :=
  if listEmpty m.waiters Mutex.Node.waiters then return s
  else
    match listFirst m.waiters Mutex.Node.waiters with
    | .waiter w => threadWakeup s (some (m.waiterThread w))
    | .waiters => .error .wild

def mutexUnlock (s : System) : Except Fault System := do
  let sched ← threadPreemptDisable s.sched
  let mutex ← mutexClearOwner s.mutex sched.current
  let sched ← mutexWakeupFirst mutex sched
  let sched ← threadPreemptEnable sched
  return { s with sched := sched, mutex := mutex }

/-! ## mem.c -/

/-- `mem_alloc`, which is `malloc`: the address, 0 for `NULL`, and the system. -/
def memAlloc (L : Mem.Layout) (s : System) (size : ℕ) : Except Fault (ℕ × System) :=
  if size = 0 then return (0,s)
  else do
    let s ← mutexLock s
    match Mem.memAlloc L s.heap.mem size with
    | none => .error .assertion
    | some (ptr,mem) => do
      let s ← mutexUnlock { s with heap := ⟨mem,if ptr = 0 then s.heap.live else ptr :: s.heap.live⟩ }
      return (ptr,s)

/-- `mem_free`, which is `free` -/
def memFree (L : Mem.Layout) (s : System) (ptr : ℕ) : Except Fault System :=
  if ptr = 0 then return s
  else do
    let s ← mutexLock s
    match Mem.memFree L s.heap.mem ptr with
    | none => .error .assertion
    | some mem => mutexUnlock { s with heap := ⟨mem,s.heap.live.erase ptr⟩ }

/-! ## thread_create -/

/-- What a call leaves behind: the system, `*threadp` (`none` when `threadp` is `NULL`), and the value
returned. -/
structure Result where
  system : System
  threadp : Option ℕ
  error : ℕ

/-- The eight words that `thread_stack_forge` pushes have to fit. -/
def STACK_FORGE_SIZE : ℕ := 8 * 4

def threadCreate (L : Mem.Layout) (s : System) (threadp : Option ℕ) (fn stackSize priority : UInt32) :
    Except Fault Result := do
  assert (fn ≠ 0)
  let (thread,s) ← memAlloc L s THREAD_SIZE
  if thread = 0 then return ⟨s,threadp,ERROR_NOMEM⟩
  else do
    let (stack,s) ← memAlloc L s stackSize.toNat
    if stack = 0 then do
      let s ← memFree L s thread
      return ⟨s,threadp,ERROR_NOMEM⟩
    else do
      assert (STACK_FORGE_SIZE ≤ stackSize.toNat)
      let sched ← threadPreemptDisable s.sched
      let eflags := sched.intr
      let sched ← threadCreateLocked { sched with intr := false } priority.toNat
      let sched ← threadPreemptEnable { sched with intr := eflags }
      return ⟨{ s with sched := sched },threadp.map fun _ => thread,0⟩

/-! ## The states a call can be made in -/

/-- The heap and the run queue are in states they can be in, and so is `mem_mutex`, in a run of the same
threads in which the current one is not in mutex.c. -/
structure Possible (L : Mem.Layout) (s : System) : Prop where
  heap : Mem.Reachable L s.heap
  sched : Booting s.sched ∨ Sched.Reachable s.sched
  mutex : ∃ m : Mutex.State Tid, Mutex.Reachable m ∧ m.current = s.sched.current ∧ m.self.pc = .own ∧
    s.mutex = ⟨m.links,m.waiterThread,m.locked,m.owner⟩ ∧
    ∀ t, (m.thread t).state = .running ↔ (s.sched.thread t).state = .running

end X1.Create
