import Mathlib.Logic.Relation
import X1.Cpu.Switch

/-! # Threads on one processor

Any number of threads, each with a stack and a structure whose first member is the saved
stack pointer. The thread that runs computes on its own stack, calls
`thread_switch_context`, is interrupted and returns from interrupts, in any order, and new
threads are created meanwhile. Interrupts are disabled in the sequences of instructions of
the kernel, so each is one step. What a thread is promised to get back is recorded beside the
machine: the context of its last call, and the registers at each interrupt
it has not returned from.
-/
namespace X1.Cpu
open X1 Relation

variable {T : Type} [DecidableEq T]

/-- The structures and the stacks in memory. Only the word `sp` of a structure is used here. -/
structure Layout (T : Type) where
  thread : T → ℕ
  stack : T → ℕ
  size : T → ℕ
  thread_lt : ∀ t, thread t < 2 ^ 32
  thread_aligned : ∀ t, thread t % 4 = 0
  thread_injective : Function.Injective thread
  stack_aligned : ∀ t, stack t % 4 = 0
  size_aligned : ∀ t, size t % 4 = 0
  size_min : ∀ t, 32 ≤ size t
  fits : ∀ t, stack t + size t ≤ 2 ^ 32
  disjoint : ∀ t u, t ≠ u → stack t + size t ≤ stack u ∨ stack u + size u ≤ stack t
  apart : ∀ t u, thread t + 4 ≤ stack u ∨ stack u + size u ≤ thread t

def Layout.top (L : Layout T) (t : T) : ℕ := L.stack t + L.size t

/-- Below this address the stack of a thread is its own; above it there are the frames of the interrupts
it has to return from. -/
def limit (L : Layout T) (t : T) : List Machine → ℕ
  | [] => L.top t
  | m :: _ => m.reg .esp - 48

/-- `current` is `none` until the scheduler is enabled. The last three members are not in the machine: the
context of every thread that does not run, the machine at each interrupt that a thread has not returned
from, the latest first, and `fn` and `arg` of the threads that have not run. -/
structure State (T : Type) where
  machine : Machine
  current : Option T
  saved : T → Option Context
  pending : T → List Machine
  born : T → Option (ℕ × ℕ)

/-- The thread runs, or it has a context to be resumed in. -/
def Created (s : State T) (t : T) : Prop := (s.saved t).isSome = true ∨ s.current = some t

/-- A word that the code that runs may write: none of another thread's stack, no `sp`, and on its own stack
none of the frames it has to return to. -/
def Writable (L : Layout T) (s : State T) (a : ℕ) : Prop :=
  ∀ t, Created s t → a ≠ L.thread t ∧
    (L.stack t ≤ a → a < L.top t → s.current = some t ∧ a < limit L t (s.pending t))

/-- `thread_create`: the stack of the new thread is forged and its address stored. -/
def State.create (L : Layout T) (I : Image) (s : State T) (t : T) (fn arg sp : ℕ) (mem : ℕ → ℕ) : State T :=
  { s with
    machine := { s.machine with mem := Function.update mem (L.thread t) sp }
    saved := Function.update s.saved t (some (.forged I (L.top t)))
    born := Function.update s.born t (some (fn,arg)) }

/-- The thread `t` is about to call `thread_switch_context(t, u)`: the arguments are on its stack, and
there is room for what is pushed. -/
structure Calls (L : Layout T) (s : State T) (t u : T) : Prop where
  current : s.current = some t
  ne : u ≠ t
  aligned : s.machine.reg .esp % 4 = 0
  room : L.stack t + 24 ≤ s.machine.reg .esp
  below : s.machine.reg .esp + 8 ≤ limit L t (s.pending t)
  prev : s.machine.mem (s.machine.reg .esp) = L.thread t
  next : s.machine.mem (s.machine.reg .esp + 4) = L.thread u

/-- The call, up to its return in the other thread. -/
def State.switch (s : State T) (t u : T) (back : ℕ) : State T :=
  { s with
    machine := s.machine.switchContext back
    current := some u
    saved := Function.update (Function.update s.saved t (some (.of s.machine back))) u none
    born := Function.update s.born u none }

/-- The thread `t` runs, with room on its stack for an interrupt. -/
structure Interruptible (L : Layout T) (s : State T) (t : T) : Prop where
  current : s.current = some t
  aligned : s.machine.reg .esp % 4 = 0
  room : L.stack t + 56 ≤ s.machine.reg .esp
  below : s.machine.reg .esp ≤ limit L t (s.pending t)
  lt : s.machine.reg .esp < 2 ^ 32

def State.interrupt (I : Image) (s : State T) (t : T) (stub : Stub) (handler : ℕ) : State T :=
  { s with
    machine := s.machine.enterIntr I stub handler
    pending := Function.update s.pending t (s.machine :: s.pending t) }

inductive Step (L : Layout T) (I : Image) : State T → State T → Prop where
  | compute {s : State T} {m : Machine} : (∀ a, m.mem a ≠ s.machine.mem a → Writable L s a) →
      Step L I s { s with machine := m }
  | create {s : State T} {t : T} {fn arg sp : ℕ} {mem : ℕ → ℕ} : ¬Created s t →
      threadStackForge I s.machine.mem (L.stack t) (L.size t) fn arg = some (mem,sp) →
      Step L I s (s.create L I t fn arg sp mem)
  | load {s : State T} {t : T} : s.current = none → (s.saved t).isSome = true →
      s.machine.mem (Word.add s.machine.esp 4) = L.thread t →
      Step L I s { s with
        machine := run threadLoadContext s.machine
        current := some t
        saved := Function.update s.saved t none
        born := Function.update s.born t none }
  | switch {s : State T} {t u : T} (back : ℕ) : Calls L s t u → (s.saved u).isSome = true →
      Step L I s (s.switch t u back)
  | interrupt {s : State T} {t : T} (stub : Stub) (handler : ℕ) : Interruptible L s t →
      Step L I s (s.interrupt I t stub handler)
  | iret {s : State T} {t : T} {m : Machine} {ms : List Machine} (flags flags' : ℕ) :
      s.current = some t → s.pending t = m :: ms → s.machine.reg .esp = m.reg .esp - 52 →
      Step L I s { s with
        machine := s.machine.leaveIntr flags flags'
        pending := Function.update s.pending t ms }

/-- No thread has been created. -/
structure Initial (s : State T) : Prop where
  current : s.current = none
  saved : ∀ t, s.saved t = none
  pending : ∀ t, s.pending t = []
  born : ∀ t, s.born t = none

inductive Reachable (L : Layout T) (I : Image) : State T → Prop where
  | init {s : State T} : Initial s → Reachable L I s
  | step {s s' : State T} : Reachable L I s → Step L I s s' → Reachable L I s'

end X1.Cpu
