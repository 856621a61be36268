import Mathlib.Logic.Function.Basic
import X1.Base.Word

/-! # An i386 with word memory

The registers, a memory of words, and the instructions that save and restore registers.
A sequence of instructions that is left only at its end is a list. Addresses are words, and the
stack grows down. Nothing here depends on the code that is run.
-/
namespace X1.Cpu
open X1

inductive Reg where
  | eax | ecx | edx | ebx | esp | ebp | esi | edi
  deriving DecidableEq

@[ext] structure Machine where
  reg : Reg → ℕ
  eip : ℕ
  cs : ℕ
  eflags : ℕ
  mem : ℕ → ℕ

/-- `flags` is what the addition leaves in EFLAGS, whatever it is. `call` is given the address of the
instruction behind it. -/
inductive Instr where
  | push (r : Reg)
  | pushl (word : ℕ)
  | pushf
  | pop (r : Reg)
  | popf
  | load (off : ℕ) (base dst : Reg)
  | store (src base : Reg)
  | addEsp (n flags : ℕ)
  | call (target back : ℕ)
  | ret
  | iret

namespace Machine

def esp (m : Machine) : ℕ := m.reg .esp

def setReg (m : Machine) (r : Reg) (word : ℕ) : Machine := { m with reg := Function.update m.reg r word }

def store (m : Machine) (addr word : ℕ) : Machine := { m with mem := Function.update m.mem addr word }

def pushWord (m : Machine) (word : ℕ) : Machine :=
  (m.setReg .esp (Word.sub m.esp 4)).store (Word.sub m.esp 4) word

/-- The stack pointer is moved before the register is set. -/
def popReg (m : Machine) (r : Reg) : Machine := (m.setReg .esp (Word.add m.esp 4)).setReg r (m.mem m.esp)

end Machine

def Instr.exec (m : Machine) : Instr → Machine
  | push r => m.pushWord (m.reg r)
  | pushl word => m.pushWord word
  | pushf => m.pushWord m.eflags
  | pop r => m.popReg r
  | popf => { m.setReg .esp (Word.add m.esp 4) with eflags := m.mem m.esp }
  | load off base dst => m.setReg dst (m.mem (Word.add (m.reg base) off))
  | store src base => m.store (m.reg base) (m.reg src)
  | addEsp n flags => { m.setReg .esp (Word.add m.esp n) with eflags := flags }
  | call target back => { m.pushWord back with eip := target }
  | ret => { m.setReg .esp (Word.add m.esp 4) with eip := m.mem m.esp }
  | iret =>
    { m.setReg .esp (Word.add m.esp 12) with
      eip := m.mem m.esp
      cs := m.mem (Word.add m.esp 4)
      eflags := m.mem (Word.add m.esp 8) }

def run (code : List Instr) (m : Machine) : Machine := code.foldl Instr.exec m

def CPU_EFL_ONE : ℕ := 0x002
def CPU_EFL_IF : ℕ := 0x200

/-- What the processor does at an interrupt through an interrupt gate: it pushes EFLAGS, CS and EIP, and
for some exceptions an error code, and goes on in the handler with interrupts disabled. -/
def Machine.interrupt (m : Machine) (selector handler : ℕ) (error : Option ℕ) : Machine :=
  let m' := ((m.pushWord m.eflags).pushWord m.cs).pushWord m.eip
  let m' := match error with
    | some code => m'.pushWord code
    | none => m'
  { m' with eip := handler, cs := selector, eflags := m.eflags - (m.eflags &&& CPU_EFL_IF) }

/-! ## Addresses on the stack -/

section
variable {a b c : ℕ}

@[simp] theorem sub_sub_word (a b c : ℕ) : Word.sub (Word.sub a b) c = Word.sub a (b + c) := by
  unfold Word.sub
  omega

theorem add_sub_word (h : c ≤ b) : Word.add (Word.sub a b) c = Word.sub a (b - c) := by
  unfold Word.sub Word.add
  omega

theorem sub_eq_sub_iff (hb : b < 2 ^ 32) (hc : c < 2 ^ 32) : Word.sub a b = Word.sub a c ↔ b = c := by
  unfold Word.sub
  omega

end

namespace Machine
variable (m : Machine) (word : ℕ)

@[simp] theorem setReg_reg (r r' : Reg) : (m.setReg r word).reg r' = if r' = r then word else m.reg r' :=
  Function.update_apply m.reg r word r'

@[simp] theorem setReg_mem (r : Reg) : (m.setReg r word).mem = m.mem := rfl

@[simp] theorem setReg_eflags (r : Reg) : (m.setReg r word).eflags = m.eflags := rfl

@[simp] theorem setReg_eip (r : Reg) : (m.setReg r word).eip = m.eip := rfl

@[simp] theorem setReg_cs (r : Reg) : (m.setReg r word).cs = m.cs := rfl

@[simp] theorem store_reg (addr : ℕ) : (m.store addr word).reg = m.reg := rfl

@[simp] theorem store_mem (addr a : ℕ) :
    (m.store addr word).mem a = if a = addr then word else m.mem a :=
  Function.update_apply m.mem addr word a

@[simp] theorem store_eflags (addr : ℕ) : (m.store addr word).eflags = m.eflags := rfl

@[simp] theorem store_eip (addr : ℕ) : (m.store addr word).eip = m.eip := rfl

@[simp] theorem store_cs (addr : ℕ) : (m.store addr word).cs = m.cs := rfl

@[simp] theorem pushWord_reg (r : Reg) :
    (m.pushWord word).reg r = if r = .esp then Word.sub (m.reg .esp) 4 else m.reg r := by
  rw [pushWord,store_reg,setReg_reg,esp]

@[simp] theorem pushWord_mem (a : ℕ) :
    (m.pushWord word).mem a = if a = Word.sub (m.reg .esp) 4 then word else m.mem a := by
  rw [pushWord,store_mem,setReg_mem,esp]

@[simp] theorem pushWord_eflags : (m.pushWord word).eflags = m.eflags := rfl

@[simp] theorem pushWord_eip : (m.pushWord word).eip = m.eip := rfl

@[simp] theorem pushWord_cs : (m.pushWord word).cs = m.cs := rfl

/-- The words are pushed one after the other. -/
def pushAll (ws : List ℕ) (m : Machine) : Machine := ws.foldl pushWord m

variable {m} {ws : List ℕ} {a i : ℕ} {r : Reg}

theorem pushAll_esp (hne : ws ≠ []) :
    (pushAll ws m).reg .esp = Word.sub (m.reg .esp) (4 * ws.length) := by
  induction ws generalizing m with
  | nil => exact absurd rfl hne
  | cons w ws ih =>
    change (pushAll ws (m.pushWord w)).reg .esp = _
    by_cases hws : ws = []
    · subst hws
      change (m.pushWord w).reg .esp = _
      rw [pushWord_reg,if_pos rfl,List.length_singleton]
    · rw [ih hws,pushWord_reg,if_pos rfl,sub_sub_word,List.length_cons]
      congr 1
      omega

theorem pushAll_mem_of_ne (ha : ∀ i < ws.length, a ≠ Word.sub (m.reg .esp) (4 * (i + 1))) :
    (pushAll ws m).mem a = m.mem a := by
  induction ws generalizing m with
  | nil => rfl
  | cons w ws ih =>
    change (pushAll ws (m.pushWord w)).mem a = _
    rw [ih,pushWord_mem,if_neg]
    · exact ha 0 (by simp)
    · intro i hi
      rw [pushWord_reg,if_pos rfl,sub_sub_word,show 4 + 4 * (i + 1) = 4 * (i + 1 + 1) by omega]
      exact ha (i + 1) (by simpa using hi)

theorem pushAll_mem (hlen : 4 * ws.length < 2 ^ 32) (hi : i < ws.length) :
    (pushAll ws m).mem (Word.sub (m.reg .esp) (4 * (i + 1))) = ws[i] := by
  induction ws generalizing m i with
  | nil => exact absurd hi (Nat.not_lt_zero _)
  | cons w ws ih =>
    rw [List.length_cons] at hlen hi
    change (pushAll ws (m.pushWord w)).mem _ = _
    cases i with
    | zero =>
      rw [pushAll_mem_of_ne,pushWord_mem,if_pos rfl]
      · rfl
      · intro j hj
        rw [pushWord_reg,if_pos rfl,sub_sub_word,ne_eq,sub_eq_sub_iff (by omega) (by omega)]
        omega
    | succ j =>
      have hj := ih (m := m.pushWord w) (i := j) (by omega) (by omega)
      rw [pushWord_reg,if_pos rfl,sub_sub_word] at hj
      rw [show 4 * (j + 1 + 1) = 4 + 4 * (j + 1) by omega]
      exact hj

/-- On a stack that does not wrap around, though it may end with the address space. -/
theorem pushAll_get {e w : ℕ} (hreg : m.reg .esp % 2 ^ 32 = e % 2 ^ 32) (hlen : 4 * ws.length ≤ e)
    (he : e ≤ 2 ^ 32) (hlt : 4 * ws.length < 2 ^ 32) (h : ws[i]? = some w) :
    (pushAll ws m).mem (e - 4 * (i + 1)) = w := by
  obtain ⟨hi,hw⟩ := List.getElem?_eq_some_iff.mp h
  have haddr : e - 4 * (i + 1) = Word.sub (m.reg .esp) (4 * (i + 1)) := by
    unfold Word.sub
    omega
  rw [haddr,pushAll_mem hlt hi]
  exact hw

theorem pushAll_keeps {e : ℕ} (hreg : m.reg .esp % 2 ^ 32 = e % 2 ^ 32) (hlen : 4 * ws.length ≤ e)
    (he : e ≤ 2 ^ 32) (ha : a < e - 4 * ws.length ∨ e ≤ a) : (pushAll ws m).mem a = m.mem a := by
  refine pushAll_mem_of_ne fun i hi => ?_
  unfold Word.sub
  omega

end Machine

end X1.Cpu
