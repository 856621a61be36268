import X1.Kernel.Model

/-! # The functions keep the level and the flag

For each function, from the state its callers must give it: the assertions on the
scheduler hold where they stand, the functions it calls get the level they ask for,
and it ends with the level and the interrupt flag with which it began.
-/
namespace X1.Kernel
open X1.Flow

variable {Q : Local → Prop} {l : Local} {n : ℕ}

/-! ## Brackets -/

theorem wp_act {a : Act} (hs : a.Safe l) (h : ∀ l', a.effect l = some l' → Q l') :
    wp spec (.act a) Q l :=
  ⟨hs,h⟩

theorem wp_same {a : Act} (hs : a.Safe l) (he : a.effect l = some l) (h : Q l) :
    wp spec (.act a) Q l := by
  refine wp_act hs fun l' hl' => ?_
  rw [← Option.some.inj (he.symm.trans hl')]
  exact h

theorem wp_panic : wp spec (.act .panic) Q l := wp_act trivial fun _ hl' => absurd hl' (by simp [Act.effect])

theorem wp_preemptDisable (hlt : l.level < 2 ^ 32)
    (h : l.level + 1 < 2 ^ 32 → Q { l with level := l.level + 1 }) :
    wp spec (.act .preemptDisable) Q l := by
  refine wp_act trivial fun l' hl' => ?_
  simp only [Act.effect,Option.ite_none_left_eq_some,Option.some.injEq] at hl'
  obtain ⟨hne,rfl⟩ := hl'
  have hfit : l.level + 1 < 2 ^ 32 := by omega
  rw [Nat.mod_eq_of_lt hfit]
  exact h hfit

theorem wp_preemptEnableNoYield (hn : l.level = n + 1) (h : Q { l with level := n }) :
    wp spec (.act .preemptEnableNoYield) Q l := by
  refine wp_act trivial fun l' hl' => ?_
  simp only [Act.effect,hn,Nat.add_one_ne_zero,if_false,Nat.add_sub_cancel,Option.some.injEq] at hl'
  rw [← hl']
  exact h

theorem wp_intrSave (h : Q { l with eflags := l.intr, intr := false }) :
    wp spec (.act .intrSave) Q l := by
  refine wp_act trivial fun l' hl' => ?_
  rw [← Option.some.inj hl']
  exact h

theorem wp_intrRestore (h : Q { l with intr := l.eflags }) : wp spec (.act .intrRestore) Q l := by
  refine wp_act trivial fun l' hl' => ?_
  rw [← Option.some.inj hl']
  exact h

theorem wp_call {f : Fn} (hlt : l.level < 2 ^ 32) (hboot : l.boot = true → l.level ≠ 0) (hasks : f.Asks l)
    (h : Q l) : wp spec (.call f) Q l := ⟨⟨hlt,hboot,hasks⟩,h⟩

theorem wp_choice {p q : Code} (hp : wp spec p Q l) (hq : wp spec q Q l) : wp spec (.choice p q) Q l := ⟨hp,hq⟩

/-- `thread_preempt_enable`, from one level above. -/
theorem wp_threadPreemptEnable (hn : l.level = n + 1) (hlt : l.level < 2 ^ 32)
    (hboot : l.boot = true → n ≠ 0) (h : Q { l with level := n }) :
    wp spec threadPreemptEnable Q l := by
  refine wp_preemptEnableNoYield hn ?_
  exact wp_choice (wp_call (show n < 2 ^ 32 by omega) hboot trivial h) h

theorem wp_threadLockScheduler (hlt : l.level < 2 ^ 32)
    (h : l.level + 1 < 2 ^ 32 → Q ⟨l.level + 1,false,l.intr,l.cap,l.boot⟩) :
    wp spec threadLockScheduler Q l :=
  wp_preemptDisable hlt fun hfit => wp_intrSave (h hfit)

theorem wp_threadUnlockScheduler {yield : Bool} (hn : l.level = n + 1) (hlt : l.level < 2 ^ 32)
    (hboot : l.boot = true → n ≠ 0) (h : Q { l with level := n, intr := l.eflags }) :
    wp spec (threadUnlockScheduler yield) Q l := by
  refine wp_intrRestore ?_
  cases yield with
  | true => exact wp_threadPreemptEnable hn hlt hboot h
  | false => exact wp_preemptEnableNoYield hn h

/-! ## Functions -/

/-- The level and the flag are as they were in `l`. -/
def Keeps (l l' : Local) : Prop := l'.level = l.level ∧ l'.intr = l.intr

theorem Keeps.refl : Keeps l l := ⟨rfl,rfl⟩

/-- A function that may sleep is not called while booting. -/
theorem not_booting {f : Fn} (h : spec.Pre f l) (hzero : l.level = 0) : l.boot = false := by
  cases hb : l.boot with
  | false => rfl
  | true => exact absurd hzero (h.2.1 hb)

theorem threadYield_keeps (h : spec.Pre .threadYield l) :
    wps spec (Fn.body .threadYield) (Keeps l) l := by
  refine ⟨fun hzero => ?_,fun _ => .refl⟩
  have hlevel : l.level = 0 := of_decide_eq_true hzero
  have hnot := not_booting h hlevel
  refine wp_threadLockScheduler h.1 fun hfit => ?_
  refine wp_same ⟨rfl,by simp [hlevel],hnot⟩ rfl ?_
  exact wp_threadUnlockScheduler rfl hfit (by simp [hnot]) .refl

theorem threadSleep_keeps (h : spec.Pre .threadSleep l) :
    wps spec (Fn.body .threadSleep) (Keeps l) l := by
  obtain ⟨-,-,hone,hnot⟩ := h
  refine wp_intrSave ?_
  refine wp_same trivial rfl (wp_same trivial rfl ?_)
  refine wp_same ⟨rfl,hone,hnot⟩ rfl ?_
  exact wp_same trivial rfl (wp_intrRestore .refl)

theorem threadWakeup_keeps (h : spec.Pre .threadWakeup l) :
    wps spec (Fn.body .threadWakeup) (Keeps l) l := by
  refine wp_choice .refl (wp_threadLockScheduler h.1 fun hfit => ?_)
  have hunlock : wp spec (threadUnlockScheduler true) (Keeps l)
      ⟨l.level + 1,false,l.intr,l.cap,l.boot⟩ :=
    wp_threadUnlockScheduler rfl hfit h.2.1 .refl
  refine wp_choice hunlock ?_
  exact wp_same trivial rfl (wp_same ⟨rfl,Nat.succ_ne_zero _⟩ rfl hunlock)

theorem threadCreate_keeps (h : spec.Pre .threadCreate l) :
    wps spec (Fn.body .threadCreate) (Keeps l) l := by
  obtain ⟨hlt,hboot,hasks⟩ := h
  refine wp_call hlt hboot hasks (wp_choice .refl ?_)
  refine wp_call hlt hboot hasks (wp_choice (wp_call hlt hboot hasks .refl) ?_)
  refine wp_same trivial rfl (wp_threadLockScheduler hlt fun hfit => ?_)
  refine wp_same ⟨rfl,Nat.succ_ne_zero _⟩ rfl ?_
  exact wp_threadUnlockScheduler rfl hfit hboot .refl

theorem threadExit_keeps (h : spec.Pre .threadExit l) : wps spec (Fn.body .threadExit) (Keeps l) l := by
  refine wp_act trivial fun l' hl' => ?_
  simp only [Act.effect,Option.ite_none_right_eq_some,Option.some.injEq] at hl'
  obtain ⟨hlevel,rfl⟩ := hl'
  have hnot := not_booting h hlevel
  refine wp_threadLockScheduler h.1 fun hfit => ?_
  refine wp_same trivial rfl (wp_same trivial rfl ?_)
  refine wp_call hfit (by simp [hnot]) trivial ?_
  exact wp_same ⟨rfl,by simp [hlevel],hnot⟩ rfl wp_panic

theorem threadJoin_keeps (h : spec.Pre .threadJoin l) : wps spec (Fn.body .threadJoin) (Keeps l) l := by
  have hlevel : l.level = 0 := h.2.2
  have hnot := not_booting h hlevel
  refine wp_threadLockScheduler h.1 fun hfit => ?_
  refine wp_loop_same (wp_call hfit (by simp [hnot]) ⟨by simp [hlevel],hnot⟩ rfl) ?_
  refine wp_threadUnlockScheduler rfl hfit (by simp [hnot]) ?_
  refine wp_same trivial rfl ?_
  exact wp_call h.1 h.2.1 (.inl hlevel) (wp_call h.1 h.2.1 (.inl hlevel) (wp_same trivial rfl .refl))

/-- `thread_main` begins with the level and the flag of a thread that is switched to. -/
theorem threadMain_runs {eflags : Bool} :
    wps spec (Fn.body .threadMain) (·.boot = false) ⟨1,false,eflags,true,false⟩ := by
  refine wp_same ⟨rfl,rfl⟩ rfl ?_
  refine wp_act rfl fun l' hl' => ?_
  rw [← Option.some.inj hl']
  exact wp_threadPreemptEnable rfl (by norm_num) (by simp) rfl

theorem wp_sleepLoop (hlt : l.level < 2 ^ 32) (hone : l.level = 1) (hnot : l.boot = false) (h : Q l) :
    wp spec sleepLoop Q l := by
  have hboot : l.boot = true → l.level ≠ 0 := by simp [hnot]
  refine wp_call hlt hboot ⟨hone,hnot⟩ ?_
  exact wp_loop_same (wp_call hlt hboot ⟨hone,hnot⟩ rfl) h

/-! ## Mutexes and condition variables -/

theorem mutexLock_keeps (h : spec.Pre .mutexLock l) : wps spec (Fn.body .mutexLock) (Keeps l) l := by
  refine wp_preemptDisable h.1 fun hfit => ?_
  have henable : wp spec threadPreemptEnable (Keeps l) { l with level := l.level + 1 } :=
    wp_threadPreemptEnable rfl hfit h.2.1 .refl
  refine ⟨fun _ => henable,fun hnot => ?_⟩
  have hnot : l.boot = false := hnot
  have hlevel : l.level = 0 := h.2.2.resolve_right (by simp [hnot])
  exact wp_choice henable (wp_sleepLoop hfit (by simp [hlevel]) hnot henable)

theorem mutexTrylock_keeps (h : spec.Pre .mutexTrylock l) :
    wps spec (Fn.body .mutexTrylock) (Keeps l) l :=
  wp_preemptDisable h.1 fun hfit => wp_threadPreemptEnable rfl hfit h.2.1 .refl

theorem mutexUnlock_keeps (h : spec.Pre .mutexUnlock l) :
    wps spec (Fn.body .mutexUnlock) (Keeps l) l := by
  refine wp_preemptDisable h.1 fun hfit => ?_
  have henable : wp spec threadPreemptEnable (Keeps l) { l with level := l.level + 1 } :=
    wp_threadPreemptEnable rfl hfit h.2.1 .refl
  exact wp_choice henable (wp_call hfit (fun _ => Nat.succ_ne_zero _) trivial henable)

/-- `condvar_signal` and `condvar_broadcast`: wake-ups with preemption disabled. -/
theorem wakeups_keep (hlt : l.level < 2 ^ 32) (hboot : l.boot = true → l.level ≠ 0) :
    wps spec [.act .preemptDisable,.loop (.choice .skip (.call .threadWakeup)),threadPreemptEnable]
      (Keeps l) l := by
  refine wp_preemptDisable hlt fun hfit => ?_
  refine wp_loop_same ?_ (wp_threadPreemptEnable rfl hfit hboot .refl)
  exact wp_choice rfl (wp_call hfit (fun _ => Nat.succ_ne_zero _) trivial rfl)

theorem condvarWait_keeps (h : spec.Pre .condvarWait l) :
    wps spec (Fn.body .condvarWait) (Keeps l) l := by
  have hlevel : l.level = 0 := h.2.2
  have hnot := not_booting h hlevel
  refine wp_preemptDisable h.1 fun hfit => ?_
  refine wp_call hfit (fun _ => Nat.succ_ne_zero _) trivial ?_
  refine wp_sleepLoop hfit (by simp [hlevel]) hnot ?_
  refine wp_threadPreemptEnable rfl hfit (by simp [hnot]) ?_
  exact wp_call h.1 h.2.1 (.inl hlevel) .refl

/-! ## Memory, the serial port and timers -/

/-- `mem_alloc` and `mem_free`: a critical section, if there is something to do. -/
theorem critical_keeps (hlt : l.level < 2 ^ 32) (hboot : l.boot = true → l.level ≠ 0)
    (hasks : Fn.Asks l .mutexLock) :
    wps spec [.choice .skip (block [.call .mutexLock,.call .mutexUnlock])] (Keeps l) l :=
  wp_choice .refl (wp_call hlt hboot hasks (wp_call hlt hboot trivial .refl))

theorem uartRead_keeps (h : spec.Pre .uartRead l) : wps spec (Fn.body .uartRead) (Keeps l) l := by
  have hlevel : l.level = 0 := h.2.2
  have hnot := not_booting h hlevel
  refine wp_preemptDisable h.1 fun hfit => wp_intrSave ?_
  have hend : wps spec [.act .intrRestore,threadPreemptEnable] (Keeps l)
      ⟨l.level + 1,false,l.intr,l.cap,l.boot⟩ :=
    wp_intrRestore (wp_threadPreemptEnable rfl hfit (by simp [hnot]) .refl)
  refine wp_choice hend (wp_loop_same ?_ hend)
  exact wp_call hfit (by simp [hnot]) ⟨by simp [hlevel],hnot⟩ rfl

theorem vprintf_keeps (h : spec.Pre .vprintf l) : wps spec (Fn.body .vprintf) (Keeps l) l := by
  refine wp_preemptDisable h.1 fun hfit => wp_intrSave ?_
  exact wp_intrRestore (wp_threadPreemptEnable rfl hfit h.2.1 .refl)

theorem timerNow_keeps : wps spec (Fn.body .timerNow) (Keeps l) l := wp_intrSave (wp_intrRestore .refl)

theorem timerGetTime_keeps (h : spec.Pre .timerGetTime l) :
    wps spec (Fn.body .timerGetTime) (Keeps l) l :=
  wp_call h.1 h.2.1 h.2.2 (wp_call h.1 h.2.1 trivial .refl)

theorem timerSchedule_keeps (h : spec.Pre .timerSchedule l) :
    wps spec (Fn.body .timerSchedule) (Keeps l) l := by
  refine wp_call h.1 h.2.1 h.2.2 ?_
  refine wp_intrSave (wp_intrRestore ?_)
  exact wp_call h.1 h.2.1 trivial .refl

theorem timerSetup_keeps (h : spec.Pre .timerSetup l) : wps spec (Fn.body .timerSetup) (Keeps l) l :=
  wp_call h.1 h.2.1 h.2.2 (wp_choice wp_panic .refl)

theorem timerProcessList_keeps (h : spec.Pre .timerProcessList l) :
    wps spec (Fn.body .timerProcessList) (Keeps l) l := by
  have hlevel : l.level = 0 := h.2.2
  refine wp_call h.1 h.2.1 (.inl hlevel) (wp_loop_same ?_ ?_)
  · refine wp_call h.1 h.2.1 trivial (wp_call h.1 h.2.1 (not_booting h hlevel) ?_)
    exact wp_call h.1 h.2.1 (.inl hlevel) rfl
  · refine wp_intrSave (wp_intrRestore ?_)
    exact wp_call h.1 h.2.1 trivial .refl

/-- Between two rounds of `timer_run` the level and the flag are as in the first; `eflags` is not. -/
theorem timerRun_runs (h : spec.Pre .timerRun l) : wps spec (Fn.body .timerRun) Q l := by
  have hlevel : l.level = 0 := h.2.2
  have hnot := not_booting h hlevel
  refine ⟨fun l' => l'.level = 0 ∧ l'.boot = false,⟨hlevel,hnot⟩,?_⟩
  rintro l' ⟨hlevel',hnot'⟩
  have hlt : l'.level < 2 ^ 32 := by simp [hlevel']
  refine wp_preemptDisable hlt fun hfit => wp_intrSave ?_
  refine wp_same trivial rfl (wp_loop_same ?_ ?_)
  · refine wp_call hfit (by simp [hnot']) ⟨by simp [hlevel'],hnot'⟩ ?_
    exact wp_same trivial rfl rfl
  · refine wp_intrRestore (wp_threadPreemptEnable rfl hfit (by simp [hnot']) ?_)
    exact wp_call hlt (by simp [hnot']) hlevel' ⟨hlevel',hnot'⟩

/-! ## Interrupts -/

/-- `cpu_intr_main` with interrupts off, on the stack of any thread. -/
theorem cpuIntrMain_keeps (hlt : l.level < 2 ^ 32) (hnot : l.boot = false) (hoff : l.intr = false) :
    wps spec (Fn.body .cpuIntrMain) (Keeps l) l := by
  have heffect : Act.effect l .assertIntrDisabled = some l := by simp [Act.effect,hoff]
  refine wp_same trivial heffect (wp_preemptDisable hlt fun hfit => ?_)
  have henable : wp spec threadPreemptEnable (Keeps l) { l with level := l.level + 1 } :=
    wp_threadPreemptEnable rfl hfit (by simp [hnot]) .refl
  -- what the handlers do is call functions that can be called from anywhere
  have hcall (f : Fn) (hf : f.Asks { l with level := l.level + 1 }) :
      wp spec (.call f) (wps spec [threadPreemptEnable] (Keeps l)) { l with level := l.level + 1 } :=
    wp_call hfit (by simp [hnot]) hf henable
  have hassert : Act.effect { l with level := l.level + 1 } .assertIntrDisabled =
      some { l with level := l.level + 1 } := by simp [Act.effect,hoff]
  refine wp_choice henable (wp_same trivial hassert ?_)
  refine wp_choice (hcall .vprintf trivial) (wp_choice ?_ ?_)
  · exact wp_same trivial hassert (wp_choice (hcall .threadWakeup trivial) henable)
  · exact wp_choice (hcall .vprintf trivial) (hcall .threadWakeup trivial)

/-! ## All functions -/

/-- Every function gives its caller back the level and the flag it has found. -/
theorem body_keeps {f : Fn} (h : spec.Pre f l) : wps spec f.body (Keeps l) l := by
  cases f with
  | threadYield => exact threadYield_keeps h
  | threadSleep => exact threadSleep_keeps h
  | threadWakeup => exact threadWakeup_keeps h
  | threadCreate => exact threadCreate_keeps h
  | threadExit => exact threadExit_keeps h
  | threadJoin => exact threadJoin_keeps h
  | threadMain => exact h.2.2.elim
  | mutexLock => exact mutexLock_keeps h
  | mutexTrylock => exact mutexTrylock_keeps h
  | mutexUnlock => exact mutexUnlock_keeps h
  | condvarSignal => exact wakeups_keep h.1 h.2.1
  | condvarBroadcast => exact wakeups_keep h.1 h.2.1
  | condvarWait => exact condvarWait_keeps h
  | memAlloc => exact critical_keeps h.1 h.2.1 h.2.2
  | memFree => exact critical_keeps h.1 h.2.1 h.2.2
  | uartRead => exact uartRead_keeps h
  | vprintf => exact vprintf_keeps h
  | timerNow => exact timerNow_keeps
  | timerGetTime => exact timerGetTime_keeps h
  | timerSchedule => exact timerSchedule_keeps h
  | timerSetup => exact timerSetup_keeps h
  | timerProcessList => exact timerProcessList_keeps h
  | timerRun => exact timerRun_runs h
  | timerFn => exact .refl
  | cpuIntrMain => exact h.2.2.elim
  | boot => exact .refl

end X1.Kernel
