import X1.Cpu.Machine

/-! # The assembly code of x1

The entry and exit of interrupts in cpu_asm.S, the context switch in thread_asm.S, and the
frame that thread.c forges on the stack of a new thread. Addresses of code are given by the
linker. Jumps lead from one sequence to the next, and their instructions are joined here.
-/
namespace X1.Cpu
open X1

def CPU_GDT_SEL_CODE : ℕ := 0x08

/-- Addresses of code: functions, and the instructions behind the two calls. -/
structure Image where
  intrMain : ℕ
  afterIntrMain : ℕ
  threadStart : ℕ
  threadMain : ℕ
  afterThreadMain : ℕ

/-! ## cpu_asm.S -/

def CPU_INTR_STORE_REGISTERS : List Instr :=
  [.push .edi,.push .esi,.push .ebp,.push .edx,.push .ecx,.push .ebx,.push .eax]

def CPU_INTR_LOAD_REGISTERS : List Instr :=
  [.pop .eax,.pop .ebx,.pop .ecx,.pop .edx,.pop .ebp,.pop .esi,.pop .edi]

/-- The entry stubs: `CPU_INTR`, and `CPU_INTR_ERROR` for exceptions with an error code. -/
inductive Stub where
  | intr (vector : ℕ)
  | intrError (vector code : ℕ)

namespace Stub

def vector : Stub → ℕ
  | intr vector => vector
  | intrError vector _ => vector

/-- The error code that the processor pushes. -/
def pushed : Stub → Option ℕ
  | intr _ => none
  | intrError _ code => some code

def code : Stub → List Instr
  | intr vector => [.pushl 0,.pushl vector]
  | intrError vector _ => [.pushl vector]

end Stub

/-- `cpu_intr_common`, up to the first instruction of `cpu_intr_main` -/
def cpuIntrCommonEnter (I : Image) : List Instr :=
  CPU_INTR_STORE_REGISTERS ++ [.push .esp,.call I.intrMain I.afterIntrMain]

/-- `cpu_intr_common`, from the return of `cpu_intr_main` on -/
def cpuIntrCommonLeave (flags flags' : ℕ) : List Instr :=
  [.addEsp 4 flags] ++ CPU_INTR_LOAD_REGISTERS ++ [.addEsp 8 flags',.iret]

/-- From the interrupted instruction to the first instruction of `cpu_intr_main`. -/
def Machine.enterIntr (I : Image) (stub : Stub) (handler : ℕ) (m : Machine) : Machine :=
  run (stub.code ++ cpuIntrCommonEnter I) (m.interrupt CPU_GDT_SEL_CODE handler stub.pushed)

/-- From the return of `cpu_intr_main` on. -/
def Machine.leaveIntr (flags flags' : ℕ) (m : Machine) : Machine := run (cpuIntrCommonLeave flags flags') m

/-! ## thread_asm.S -/

def threadRestoreContext : List Instr := [.popf,.pop .esi,.pop .edi,.pop .ebx,.pop .ebp,.ret]

def threadLoadContext : List Instr := [.load 4 .esp .eax,.load 0 .eax .esp] ++ threadRestoreContext

def threadStart (I : Image) : List Instr := [.call I.threadMain I.afterThreadMain]

/-- `thread_switch_context`, up to the switch of stacks -/
def threadSaveContext : List Instr :=
  [.load 4 .esp .eax,.load 8 .esp .ecx,.push .ebp,.push .ebx,.push .edi,.push .esi,.pushf,
    .store .esp .eax]

def threadSwitchContext : List Instr := threadSaveContext ++ [.load 0 .ecx .esp] ++ threadRestoreContext

/-! ## The stack of a new thread -/

/-- `thread_stack_push`, on the memory, the stack pointer and the size that is left -/
def threadStackPush (s : (ℕ → ℕ) × ℕ × ℕ) (word : ℕ) : Option ((ℕ → ℕ) × ℕ × ℕ) := do
  let (mem,stack,stackSize) := s
  guard (stackSize ≥ 4)
  let stack := Word.sub stack 4
  return (Function.update mem stack word,stack,stackSize - 4)

/-- `thread_stack_forge`: the memory and the stack pointer of the new thread. -/
def threadStackForge (I : Image) (mem : ℕ → ℕ) (stackAddr stackSize fn arg : ℕ) : Option ((ℕ → ℕ) × ℕ) := do
  let (mem,stack,_) ← [arg,fn,I.threadStart,0,0,0,0,CPU_EFL_ONE].foldlM threadStackPush
    (mem,Word.add stackAddr stackSize,stackSize)
  return (mem,stack)

end X1.Cpu
