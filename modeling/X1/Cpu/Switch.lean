import X1.Cpu.Frame

/-! # What the sequences of instructions do

Saving a context, restoring one, forging one and leaving an interrupt, as effects on the
registers and on the words of the stack. The stacks do not wrap around, so addresses
on them are natural numbers.
-/
namespace X1.Cpu
open X1

/-- What a thread has when it calls `thread_switch_context` and gets back when it is resumed. `eip` is
where the call returns to. -/
@[ext] structure Context where
  esp : ℕ
  ebp : ℕ
  ebx : ℕ
  edi : ℕ
  esi : ℕ
  eflags : ℕ
  eip : ℕ

/-- The caller's context, at a call that returns to `back`. -/
def Context.of (m : Machine) (back : ℕ) : Context where
  esp := m.reg .esp
  ebp := m.reg .ebp
  ebx := m.reg .ebx
  edi := m.reg .edi
  esi := m.reg .esi
  eflags := m.eflags
  eip := back

/-- The call of `thread_switch_context`, up to its return. -/
def Machine.switchContext (back : ℕ) (m : Machine) : Machine := run threadSwitchContext (m.pushWord back)

/-- The context is stored at `sp`, as `thread_restore_context` reads it. -/
structure Stored (mem : ℕ → ℕ) (sp : ℕ) (c : Context) : Prop where
  esp : c.esp = sp + 24
  esp_lt : sp + 24 < 2 ^ 32
  eflags : mem sp = c.eflags
  esi : mem (sp + 4) = c.esi
  edi : mem (sp + 8) = c.edi
  ebx : mem (sp + 12) = c.ebx
  ebp : mem (sp + 16) = c.ebp
  eip : mem (sp + 20) = c.eip

theorem Stored.congr {mem mem' : ℕ → ℕ} {sp : ℕ} {c : Context} (h : Stored mem sp c)
    (hmem : ∀ a, sp ≤ a → a < sp + 24 → mem' a = mem a) : Stored mem' sp c := by
  refine ⟨h.esp,h.esp_lt,?_,?_,?_,?_,?_,?_⟩
  · rw [hmem sp (by omega) (by omega)]
    exact h.eflags
  · rw [hmem (sp + 4) (by omega) (by omega)]
    exact h.esi
  · rw [hmem (sp + 8) (by omega) (by omega)]
    exact h.edi
  · rw [hmem (sp + 12) (by omega) (by omega)]
    exact h.ebx
  · rw [hmem (sp + 16) (by omega) (by omega)]
    exact h.ebp
  · rw [hmem (sp + 20) (by omega) (by omega)]
    exact h.eip

theorem run_append (code code' : List Instr) (m : Machine) :
    run (code ++ code') m = run code' (run code m) :=
  List.foldl_append

theorem run_cons (i : Instr) (code : List Instr) (m : Machine) : run (i :: code) m = run code (i.exec m) := rfl

theorem exec_load (off : ℕ) (base dst : Reg) (m : Machine) :
    Instr.exec m (.load off base dst) = m.setReg dst (m.mem (Word.add (m.reg base) off)) := rfl

@[simp] theorem add_add_word (a b c : ℕ) : Word.add (Word.add a b) c = Word.add a (b + c) := by
  unfold Word.add
  omega

/-! ## Restoring -/

theorem restore_reads (m : Machine) : Context.of (run threadRestoreContext m) (run threadRestoreContext m).eip =
    { esp := Word.add (m.reg .esp) 24
      ebp := m.mem (Word.add (m.reg .esp) 16)
      ebx := m.mem (Word.add (m.reg .esp) 12)
      edi := m.mem (Word.add (m.reg .esp) 8)
      esi := m.mem (Word.add (m.reg .esp) 4)
      eflags := m.mem (m.reg .esp)
      eip := m.mem (Word.add (m.reg .esp) 20) } := by
  ext <;> simp [Context.of,run,threadRestoreContext,Instr.exec,Machine.popReg,Machine.esp]

theorem restore_mem (m : Machine) : (run threadRestoreContext m).mem = m.mem := by
  simp [run,threadRestoreContext,Instr.exec,Machine.popReg]

/-- `thread_restore_context` with the stack pointer at a stored context. -/
theorem restore_spec {m : Machine} {c : Context} (h : Stored m.mem (m.reg .esp) c) :
    Context.of (run threadRestoreContext m) (run threadRestoreContext m).eip = c := by
  have hadd : ∀ k, k ≤ 24 → Word.add (m.reg .esp) k = m.reg .esp + k := by
    intro k hk
    have := h.esp_lt
    exact Word.add_of_lt (by omega)
  rw [restore_reads,hadd 24 (by norm_num),hadd 16 (by norm_num),hadd 12 (by norm_num),
    hadd 8 (by norm_num),
    hadd 4 (by norm_num),hadd 20 (by norm_num),h.ebp,h.ebx,h.edi,h.esi,h.eflags,h.eip,← h.esp]

/-! ## Saving -/

/-- What `thread_switch_context` pushes, after the return address. -/
def switchWords (back : ℕ) (m : Machine) : List ℕ :=
  [back,m.reg .ebp,m.reg .ebx,m.reg .edi,m.reg .esi,m.eflags]

/-- `thread_switch_context` up to the switch of stacks: the context is on the stack of the caller, and its
address in the structure that the first argument points to. -/
theorem save_spec {m : Machine} {e prev next : ℕ} (he : m.reg .esp = e) (hlo : 24 ≤ e)
    (hhi : e + 8 ≤ 2 ^ 32) (back : ℕ) (hprev : m.mem e = prev) (hnext : m.mem (e + 4) = next) :
    (run threadSaveContext (m.pushWord back)).reg .ecx = next ∧
    (run threadSaveContext (m.pushWord back)).mem =
      Function.update (m.pushAll (switchWords back m)).mem prev (e - 24) := by
  have h₁ : Word.add (Word.sub e 4) 4 = e := by unfold Word.sub Word.add; omega
  have h₂ : Word.add (Word.sub e 4) 8 = e + 4 := by unfold Word.sub Word.add; omega
  have h₃ : e ≠ Word.sub e 4 := by unfold Word.sub; omega
  have h₄ : e + 4 ≠ Word.sub e 4 := by unfold Word.sub; omega
  have h₅ : Word.sub e 24 = e - 24 := Word.sub_of_le hlo (by omega)
  refine ⟨?_,?_⟩
  · simp [run,threadSaveContext,Instr.exec,he,h₂,h₄,hnext]
  · funext a
    simp [run,threadSaveContext,Instr.exec,he,h₁,h₃,h₅,hprev,Machine.pushAll,switchWords,
      Function.update_apply]

/-- The whole of `thread_switch_context`: it returns in the context stored for the next thread. -/
theorem switchContext_spec {m : Machine} {e prev next sp : ℕ} {c : Context} (he : m.reg .esp = e)
    (hlo : 24 ≤ e) (hhi : e + 8 ≤ 2 ^ 32) (back : ℕ) (hprev : m.mem e = prev)
    (hnext : m.mem (e + 4) = next) (hlt : next < 2 ^ 32)
    (hsp : Function.update (m.pushAll (switchWords back m)).mem prev (e - 24) next = sp)
    (hc : Stored (Function.update (m.pushAll (switchWords back m)).mem prev (e - 24)) sp c) :
    Context.of (m.switchContext back) (m.switchContext back).eip = c ∧
    (m.switchContext back).mem = Function.update (m.pushAll (switchWords back m)).mem prev
    (e - 24) := by
  obtain ⟨hecx,hmem⟩ := save_spec he hlo hhi back hprev hnext
  have hswitch : m.switchContext back = run threadRestoreContext
      ((run threadSaveContext (m.pushWord back)).setReg .esp sp) := by
    rw [Machine.switchContext,threadSwitchContext,run_append,run_append,run_cons,exec_load,hecx,
      show Word.add next 0 = next from Word.add_of_lt (by omega),hmem,hsp]
    rfl
  rw [hswitch]
  refine ⟨restore_spec ?_,?_⟩
  · rw [Machine.setReg_mem,hmem,Machine.setReg_reg,if_pos rfl]
    exact hc
  · rw [restore_mem,Machine.setReg_mem,hmem]

theorem stored_pushAll {m : Machine} {e : ℕ} (he : m.reg .esp = e) (hlo : 24 ≤ e) (hlt : e < 2 ^ 32)
    (back : ℕ) : Stored (m.pushAll (switchWords back m)).mem (e - 24) (.of m back) := by
  have hlen : 4 * (switchWords back m).length = 24 := rfl
  have hget : ∀ {i w : ℕ}, (switchWords back m)[i]? = some w →
      (m.pushAll (switchWords back m)).mem (e - 4 * (i + 1)) = w := by
    intro i w h
    exact Machine.pushAll_get (by rw [he]) (by omega) hlt.le (by omega) h
  refine ⟨?_,by omega,hget (i := 5) rfl,?_,?_,?_,?_,?_⟩
  · change m.reg .esp = e - 24 + 24
    omega
  · rw [show e - 24 + 4 = e - 4 * (4 + 1) by omega]
    exact hget (i := 4) rfl
  · rw [show e - 24 + 8 = e - 4 * (3 + 1) by omega]
    exact hget (i := 3) rfl
  · rw [show e - 24 + 12 = e - 4 * (2 + 1) by omega]
    exact hget (i := 2) rfl
  · rw [show e - 24 + 16 = e - 4 * (1 + 1) by omega]
    exact hget (i := 1) rfl
  · rw [show e - 24 + 20 = e - 4 * (0 + 1) by omega]
    exact hget (i := 0) rfl

/-- `thread_load_context` returns in the context stored for the thread. -/
theorem loadContext_spec {m : Machine} {thread sp : ℕ} {c : Context}
    (hthread : m.mem (Word.add m.esp 4) = thread) (hlt : thread < 2 ^ 32) (hsp : m.mem thread = sp)
    (hc : Stored m.mem sp c) :
    Context.of (run threadLoadContext m) (run threadLoadContext m).eip = c ∧
    (run threadLoadContext m).mem = m.mem := by
  have hload : run threadLoadContext m = run threadRestoreContext
      ((m.setReg .eax thread).setReg .esp sp) := by
    rw [Machine.esp] at hthread
    rw [threadLoadContext,run_append,run_cons,exec_load,hthread,run_cons,exec_load,
      Machine.setReg_reg,if_pos rfl,
      Machine.setReg_mem,show Word.add thread 0 = thread from Word.add_of_lt (by omega),hsp]
    rfl
  rw [hload]
  refine ⟨restore_spec ?_,restore_mem _⟩
  rw [Machine.setReg_reg,if_pos rfl]
  exact hc

/-! ## The stack of a new thread -/

theorem threadStackPush_foldlM {ws : List ℕ} {m : Machine} {size : ℕ} (hlen : 4 * ws.length ≤ size) :
    ws.foldlM threadStackPush (m.mem,m.reg .esp,size) =
      some ((m.pushAll ws).mem,(m.pushAll ws).reg .esp,size - 4 * ws.length) := by
  induction ws generalizing m size with
  | nil => rfl
  | cons w ws ih =>
    rw [List.length_cons] at hlen
    have hpush : threadStackPush (m.mem,m.reg .esp,size) w =
        some ((m.pushWord w).mem,(m.pushWord w).reg .esp,size - 4) := by
      have hsize : 4 ≤ size := by omega
      rw [Machine.pushWord_reg,if_pos rfl]
      simp [threadStackPush,hsize,Machine.pushWord,Machine.store,Machine.setReg,Machine.esp]
    rw [List.foldlM_cons,hpush]
    change ws.foldlM threadStackPush ((m.pushWord w).mem,(m.pushWord w).reg .esp,size - 4) = _
    rw [ih (by omega),List.length_cons]
    congr 3
    omega

/-- The context of a thread that has not run. -/
def Context.forged (I : Image) (top : ℕ) : Context where
  esp := top - 8
  ebp := 0
  ebx := 0
  edi := 0
  esi := 0
  eflags := CPU_EFL_ONE
  eip := I.threadStart

/-- `thread_stack_forge` stores a context below the two arguments of `thread_main`. -/
theorem forge_spec (I : Image) (mem : ℕ → ℕ) {stack size top : ℕ} (fn arg : ℕ) (hsize : 32 ≤ size)
    (htop : stack + size = top) (hfits : top ≤ 2 ^ 32) :
    ∃ mem', threadStackForge I mem stack size fn arg = some (mem',top - 32) ∧
      Stored mem' (top - 32) (.forged I top) ∧ mem' (top - 8) = fn ∧ mem' (top - 4) = arg ∧
      ∀ a, a < top - 32 ∨ top ≤ a → mem' a = mem a := by
  let m : Machine := ⟨fun _ => Word.add stack size,0,0,0,mem⟩
  let ws := [arg,fn,I.threadStart,0,0,0,0,CPU_EFL_ONE]
  have hreg : m.reg .esp % 2 ^ 32 = top % 2 ^ 32 := by
    change Word.add stack size % 2 ^ 32 = _
    unfold Word.add
    omega
  have hget : ∀ {i w : ℕ}, ws[i]? = some w → (m.pushAll ws).mem (top - 4 * (i + 1)) = w := by
    intro i w h
    have hlen : 4 * ws.length = 32 := rfl
    exact Machine.pushAll_get hreg (by omega) hfits (by omega) h
  have hsp : (m.pushAll ws).reg .esp = top - 32 := by
    rw [Machine.pushAll_esp (by simp [ws])]
    change Word.sub (Word.add stack size) 32 = _
    unfold Word.sub Word.add
    omega
  refine ⟨(m.pushAll ws).mem,?_,⟨?_,?_,hget (i := 7) rfl,?_,?_,?_,?_,?_⟩,hget (i := 1) rfl,
    hget (i := 0) rfl,?_⟩
  · have hfold : ws.foldlM threadStackPush (mem,Word.add stack size,size) = _ :=
      threadStackPush_foldlM (m := m) (show 4 * ws.length ≤ size from hsize)
    rw [threadStackForge,hfold,← hsp]
    rfl
  · change top - 8 = top - 32 + 24
    omega
  · omega
  · rw [show top - 32 + 4 = top - 4 * (6 + 1) by omega]
    exact hget (i := 6) rfl
  · rw [show top - 32 + 8 = top - 4 * (5 + 1) by omega]
    exact hget (i := 5) rfl
  · rw [show top - 32 + 12 = top - 4 * (4 + 1) by omega]
    exact hget (i := 4) rfl
  · rw [show top - 32 + 16 = top - 4 * (3 + 1) by omega]
    exact hget (i := 3) rfl
  · rw [show top - 32 + 20 = top - 4 * (2 + 1) by omega]
    exact hget (i := 2) rfl
  · intro a ha
    have hlen : 4 * ws.length = 32 := rfl
    exact Machine.pushAll_keeps hreg (by omega) hfits (by omega)

/-! ## Interrupts -/

/-- The registers of the interrupted machine are on the stack below its stack pointer. -/
structure Framed (mem : ℕ → ℕ) (m : Machine) : Prop where
  eflags : mem (m.reg .esp - 4) = m.eflags
  cs : mem (m.reg .esp - 8) = m.cs
  eip : mem (m.reg .esp - 12) = m.eip
  edi : mem (m.reg .esp - 24) = m.reg .edi
  esi : mem (m.reg .esp - 28) = m.reg .esi
  ebp : mem (m.reg .esp - 32) = m.reg .ebp
  edx : mem (m.reg .esp - 36) = m.reg .edx
  ecx : mem (m.reg .esp - 40) = m.reg .ecx
  ebx : mem (m.reg .esp - 44) = m.reg .ebx
  eax : mem (m.reg .esp - 48) = m.reg .eax

theorem Framed.congr {mem mem' : ℕ → ℕ} {m : Machine} (h : Framed mem m) (hlo : 48 ≤ m.reg .esp)
    (hmem : ∀ a, m.reg .esp - 48 ≤ a → a < m.reg .esp → mem' a = mem a) : Framed mem' m := by
  have hkeep : ∀ k, 4 ≤ k → k ≤ 48 → mem' (m.reg .esp - k) = mem (m.reg .esp - k) := by
    intro k h₁ h₂
    exact hmem _ (by omega) (by omega)
  refine ⟨?_,?_,?_,?_,?_,?_,?_,?_,?_,?_⟩
  all_goals rw [hkeep _ (by norm_num) (by norm_num)]
  · exact h.eflags
  · exact h.cs
  · exact h.eip
  · exact h.edi
  · exact h.esi
  · exact h.ebp
  · exact h.edx
  · exact h.ecx
  · exact h.ebx
  · exact h.eax

/-- The entry of an interrupt leaves the registers on the stack, and what is not below it. -/
theorem enterIntr_spec (I : Image) (stub : Stub) (handler : ℕ) {m : Machine} (hlo : 56 ≤ m.reg .esp)
    (hlt : m.reg .esp < 2 ^ 32) : Framed (m.enterIntr I stub handler).mem m ∧
      ∀ a, a < m.reg .esp - 56 ∨ m.reg .esp ≤ a → (m.enterIntr I stub handler).mem a = m.mem a := by
  have hlen : 4 * (intrWords I stub m).length = 56 := rfl
  have hget : ∀ {i w : ℕ}, (intrWords I stub m)[i]? = some w →
      (m.enterIntr I stub handler).mem (m.reg .esp - 4 * (i + 1)) = w := by
    intro i w h
    rw [enterIntr_mem]
    exact Machine.pushAll_get rfl (by omega) hlt.le (by omega) h
  refine ⟨⟨hget (i := 0) rfl,hget (i := 1) rfl,hget (i := 2) rfl,hget (i := 5) rfl,
    hget (i := 6) rfl,hget (i := 7) rfl,
    hget (i := 8) rfl,hget (i := 9) rfl,hget (i := 10) rfl,hget (i := 11) rfl⟩,fun a ha => ?_⟩
  rw [enterIntr_mem]
  exact Machine.pushAll_keeps rfl (by omega) hlt.le (by omega)

theorem leaveIntr_reads (flags flags' : ℕ) (m : Machine) : m.leaveIntr flags flags' =
    { reg := fun
        | .eax => m.mem (Word.add (m.reg .esp) 4)
        | .ebx => m.mem (Word.add (m.reg .esp) 8)
        | .ecx => m.mem (Word.add (m.reg .esp) 12)
        | .edx => m.mem (Word.add (m.reg .esp) 16)
        | .ebp => m.mem (Word.add (m.reg .esp) 20)
        | .esi => m.mem (Word.add (m.reg .esp) 24)
        | .edi => m.mem (Word.add (m.reg .esp) 28)
        | .esp => Word.add (m.reg .esp) 52
      eip := m.mem (Word.add (m.reg .esp) 40)
      cs := m.mem (Word.add (m.reg .esp) 44)
      eflags := m.mem (Word.add (m.reg .esp) 48)
      mem := m.mem } := by
  ext r
  · cases r <;>
      simp [Machine.leaveIntr,run,cpuIntrCommonLeave,CPU_INTR_LOAD_REGISTERS,Instr.exec,
        Machine.popReg,Machine.esp]
  all_goals
    simp [Machine.leaveIntr,run,cpuIntrCommonLeave,CPU_INTR_LOAD_REGISTERS,Instr.exec,
      Machine.popReg,Machine.esp]

/-- The exit of an interrupt, when `cpu_intr_main` has returned with the stack pointer it was called with,
brings the interrupted registers back. -/
theorem leaveIntr_spec {m m₀ : Machine} (flags flags' : ℕ) (hlo : 52 ≤ m₀.reg .esp)
    (hlt : m₀.reg .esp < 2 ^ 32) (hesp : m.reg .esp = m₀.reg .esp - 52) (h : Framed m.mem m₀) :
    m.leaveIntr flags flags' = { m₀ with mem := m.mem } := by
  have hadd : ∀ k, k ≤ 52 → Word.add (m.reg .esp) k = m₀.reg .esp - (52 - k) := by
    intro k hk
    rw [hesp]
    unfold Word.add
    omega
  rw [leaveIntr_reads]
  simp only [hadd 4 (by norm_num),hadd 8 (by norm_num),hadd 12 (by norm_num),hadd 16 (by norm_num),
    hadd 20 (by norm_num),hadd 24 (by norm_num),hadd 28 (by norm_num),hadd 52 (by norm_num),
      hadd 40 (by norm_num),
    hadd 44 (by norm_num),hadd 48 (by norm_num)]
  ext r
  · cases r with
    | eax => exact h.eax
    | ecx => exact h.ecx
    | edx => exact h.edx
    | ebx => exact h.ebx
    | esp => rfl
    | ebp => exact h.ebp
    | esi => exact h.esi
    | edi => exact h.edi
  · exact h.eip
  · exact h.cs
  · exact h.eflags
  · rfl

end X1.Cpu
