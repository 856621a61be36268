import X1.Cpu.Model

/-! # The interrupt frame

`cpu_intr_common` pushes the general registers one after the other and gives
`cpu_intr_main` the address of the last one as a `struct cpu_intr_frame`. The structure lists
them in the order of the pushes, though the stack grows down, so its general registers are
found the other way round. The part that the stubs and the processor push is in place.
-/
namespace X1.Cpu
open X1

/-- `struct cpu_intr_frame` -/
@[ext] structure IntrFrame where
  edi : ℕ
  esi : ℕ
  ebp : ℕ
  edx : ℕ
  ecx : ℕ
  ebx : ℕ
  eax : ℕ
  vector : ℕ
  error : ℕ
  eip : ℕ
  cs : ℕ
  eflags : ℕ
  deriving DecidableEq

/-- The members of the structure at an address. -/
def IntrFrame.at (mem : ℕ → ℕ) (frame : ℕ) : IntrFrame where
  edi := mem frame
  esi := mem (Word.add frame 4)
  ebp := mem (Word.add frame 8)
  edx := mem (Word.add frame 12)
  ecx := mem (Word.add frame 16)
  ebx := mem (Word.add frame 20)
  eax := mem (Word.add frame 24)
  vector := mem (Word.add frame 28)
  error := mem (Word.add frame 32)
  eip := mem (Word.add frame 36)
  cs := mem (Word.add frame 40)
  eflags := mem (Word.add frame 44)

/-- The frame that `cpu_intr_main` is given: its argument is above the return address. -/
def Machine.intrFrame (m : Machine) : IntrFrame := .at m.mem (m.mem (Word.add m.esp 4))

/-- What the names of the members say. -/
def IntrFrame.of (m : Machine) (stub : Stub) : IntrFrame where
  edi := m.reg .edi
  esi := m.reg .esi
  ebp := m.reg .ebp
  edx := m.reg .edx
  ecx := m.reg .ecx
  ebx := m.reg .ebx
  eax := m.reg .eax
  vector := stub.vector
  error := stub.pushed.getD 0
  eip := m.eip
  cs := m.cs
  eflags := m.eflags

/-! ## The words on the stack -/

/-- What is on the stack when `cpu_intr_main` is entered, from the highest address down. -/
def intrWords (I : Image) (stub : Stub) (m : Machine) : List ℕ :=
  [m.eflags,m.cs,m.eip,stub.pushed.getD 0,stub.vector,m.reg .edi,m.reg .esi,m.reg .ebp,m.reg .edx,
    m.reg .ecx,m.reg .ebx,m.reg .eax,Word.sub (m.reg .esp) 48,I.afterIntrMain]

section
variable (I : Image) (stub : Stub) (handler : ℕ) (m : Machine)

theorem enterIntr_mem : (m.enterIntr I stub handler).mem = (m.pushAll (intrWords I stub m)).mem := by
  funext a
  cases stub with
  | intr vector =>
    simp [Machine.enterIntr,run,cpuIntrCommonEnter,CPU_INTR_STORE_REGISTERS,Instr.exec,Stub.code,
      Machine.interrupt,Stub.pushed,Machine.pushAll,intrWords,Stub.vector]
  | intrError vector code =>
    simp [Machine.enterIntr,run,cpuIntrCommonEnter,CPU_INTR_STORE_REGISTERS,Instr.exec,Stub.code,
      Machine.interrupt,Stub.pushed,Machine.pushAll,intrWords,Stub.vector]

theorem enterIntr_esp : (m.enterIntr I stub handler).reg .esp = Word.sub (m.reg .esp) 56 := by
  cases stub with
  | intr vector =>
    simp [Machine.enterIntr,run,cpuIntrCommonEnter,CPU_INTR_STORE_REGISTERS,Instr.exec,Stub.code,
      Machine.interrupt,Stub.pushed]
  | intrError vector code =>
    simp [Machine.enterIntr,run,cpuIntrCommonEnter,CPU_INTR_STORE_REGISTERS,Instr.exec,Stub.code,
      Machine.interrupt,Stub.pushed]

theorem enterIntr_word {i w : ℕ} (h : (intrWords I stub m)[i]? = some w) :
    (m.enterIntr I stub handler).mem (Word.sub (m.reg .esp) (4 * (i + 1))) = w := by
  obtain ⟨hi,hw⟩ := List.getElem?_eq_some_iff.mp h
  have hlen : (intrWords I stub m).length = 14 := rfl
  rw [enterIntr_mem,Machine.pushAll_mem (by rw [hlen]; norm_num) hi]
  exact hw

theorem intrFrame_enterIntr : (m.enterIntr I stub handler).intrFrame = { IntrFrame.of m stub with
    edi := m.reg .eax, esi := m.reg .ebx, ebp := m.reg .ecx,
    ecx := m.reg .ebp, ebx := m.reg .esi, eax := m.reg .edi } := by
  have hword := fun {i w : ℕ} (h : (intrWords I stub m)[i]? = some w) =>
    enterIntr_word I stub handler m h
  have harg : (m.enterIntr I stub handler).mem (Word.add (m.enterIntr I stub handler).esp 4) =
      Word.sub (m.reg .esp) 48 := by
    rw [Machine.esp,enterIntr_esp,add_sub_word (by norm_num)]
    exact hword (i := 12) rfl
  rw [Machine.intrFrame,harg]
  ext
  · exact hword (i := 11) rfl
  all_goals
    simp only [IntrFrame.at,IntrFrame.of]
    rw [add_sub_word (by norm_num)]
  · exact hword (i := 10) rfl
  · exact hword (i := 9) rfl
  · exact hword (i := 8) rfl
  · exact hword (i := 7) rfl
  · exact hword (i := 6) rfl
  · exact hword (i := 5) rfl
  · exact hword (i := 4) rfl
  · exact hword (i := 3) rfl
  · exact hword (i := 2) rfl
  · exact hword (i := 1) rfl
  · exact hword (i := 0) rfl

/-- The frame is faithful if and only if the registers that change places are equal. -/
theorem intrFrame_faithful_iff : (m.enterIntr I stub handler).intrFrame = IntrFrame.of m stub ↔
    m.reg .eax = m.reg .edi ∧ m.reg .ebx = m.reg .esi ∧ m.reg .ecx = m.reg .ebp := by
  rw [intrFrame_enterIntr,IntrFrame.ext_iff]
  simp only [IntrFrame.of,and_true,true_and]
  constructor
  · rintro ⟨h₁,h₂,h₃,-⟩
    exact ⟨h₁,h₂,h₃⟩
  · rintro ⟨h₁,h₂,h₃⟩
    exact ⟨h₁,h₂,h₃,h₃.symm,h₂.symm,h₁.symm⟩

end

/-- EAX holds 1, the stack is below 32 KiB, and the other general registers hold 0. -/
def sampleMachine : Machine where
  reg := fun r => if r = .eax then 1 else if r = .esp then 0x8000 else 0
  eip := 0x100000
  cs := 8
  eflags := 0x202
  mem := fun _ => 0

/-- At the timer interrupt the handler finds the 1 under the name of EDI. -/
theorem intrFrame_swapped :
    (sampleMachine.enterIntr ⟨0x101000,0x102000,0,0,0⟩ (.intr 32) 0x103000).intrFrame.eax = 0 ∧
    (sampleMachine.enterIntr ⟨0x101000,0x102000,0,0,0⟩ (.intr 32) 0x103000).intrFrame.edi = 1 ∧
    (sampleMachine.enterIntr ⟨0x101000,0x102000,0,0,0⟩ (.intr 32) 0x103000).intrFrame ≠
      IntrFrame.of sampleMachine (.intr 32) := by
  decide

end X1.Cpu
