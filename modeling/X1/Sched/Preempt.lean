import X1.Sched.Shape

/-! # Preemption by interrupts

`thread_yield` gives up the scheduler lock with `thread_unlock_scheduler(eflags, false)`:
interrupts are restored first, the preemption level is lowered after, and the yield flag
is not looked at again. A wake-up by an interrupt that comes in between waits for a later
preemption point. In a run without such a wake-up, a call of `thread_yield` or
`thread_preempt_enable` never returns to a preemptible thread while a more urgent one waits.
-/
namespace X1.Sched
open X1.Lib X1.Ring X1.Checked

/-- The current thread is in `thread_yield`, between restoring interrupts and lowering the preemption
level. -/
def Window (s : State) : Prop :=
  ∃ f fs, s.stack s.current = f :: fs ∧ f.fn = .yield ∧ f.code = [.preemptEnableNoYield]

/-- With preemption disabled and interrupts on, only the window asks that no more urgent thread waits:
every other call of the two comes to a test of the yield flag. -/
theorem Shaped.interrupted {h h' : Prop} {fs : List Frame} {on : Bool} {l : ℕ} (hs : Shaped h fs on l)
    (hon : on = true) (hl : l ≠ 0)
    (hwin : ∀ f ∈ fs.head?, f.fn = .yield → f.code ≠ [.preemptEnableNoYield]) : Shaped h' fs on l := by
  induction hs generalizing h' with
  | calm hc => exact .calm hc
  | @call _ f fs on below l hover hbelow _ hfs ih =>
    have hafter : Falls f.code l → after f.code l ≠ 0 := by
      cases hover with
      | intr _ _ => cases hon
      | enabling _ hk =>
        rcases suffix_preemptEnable.mp hk with hk | hk | hk <;> simp [hk,Falls,after,hl]
      | yielding hfn hk hm =>
        have hne := hwin f rfl hfn
        rcases suffix_yield.mp hk with hk | hk | hk | hk | hk | hk | hk <;>
          simp_all [Falls,after,Frame.Masked]
      | masked _ _ => cases hon
    have hfn : f.fn ≠ .intr := by
      cases hover with
      | intr _ _ => cases hon
      | enabling hfn _ => simp [hfn]
      | yielding hfn _ _ => simp [hfn]
      | masked hfn _ => simp [hfn]
    have hnext : below = true := by
      cases hover with
      | intr _ _ => rfl
      | enabling _ _ => exact hon
      | yielding _ _ _ => exact hon
      | masked _ _ => cases hon
    refine .call hover hbelow (fun _ _ => hafter) ?_
    by_cases hf : Falls f.code l
    · exact ih hnext (hafter hf) fun g hg hy => absurd (hbelow g hg hy) hfn
    · exact hfs.mono fun hw => absurd hw.2 hf

/-- An interrupt that wakes no thread of `W` makes no thread outside it wait. -/
theorem Wakes.higherWaiting {s s' : State} {W : Tid → Prop} (h : Wakes s s' W)
    (hW : ∀ t, W t → (s.thread t).priority ≤ s.self.priority) (hw : HigherWaiting s') :
    HigherWaiting s := by
  obtain ⟨t,htc,hti,htcur,hrun,hlt⟩ := hw
  rw [h.created] at htc
  rw [h.idle] at hti
  rw [h.current] at htcur
  rw [State.self,h.current,h.priority,h.priority] at hlt
  have hnot : ¬W t := fun ht => absurd hlt (Nat.not_lt.mpr (hW t ht))
  exact ⟨t,htc,hti,htcur,(h.state t (.inl hnot)).symm.trans hrun,hlt⟩

theorem quiet_interrupted (s : State) : Quiet s s.interrupted :=
  ⟨rfl,rfl,rfl,rfl,rfl,rfl,(quiet_setLevel { s with intr := false } _).state,
    (quiet_setLevel { s with intr := false } _).priority⟩

/-- An interrupt outside the window, or one that wakes nobody more urgent, keeps every promise. -/
theorem Prompt.interrupt {s s' : State} (h : Prompt s) (hs : Sound s) (hintr : s.intr = true)
    {acts : List Act} (hact : ∀ t, Act.wake t ∈ acts → t ∈ s.created)
    (hcare : Window s → ∀ t, Act.wake t ∈ acts → (s.thread t).priority ≤ s.self.priority)
    (hmain : cpuIntrMain s acts = .ok s') : Prompt s' := by
  obtain ⟨s₁,hs₁,hw,-,rfl⟩ := (interrupt_spec (W := fun t => Act.wake t ∈ acts) hs acts
    fun t ht => ⟨hact t ht,ht⟩).of_ok hmain
  have hcur : s₁.current = s.current := hw.current
  have hoff : s₁.intr = false := hw.intr
  have hlevel : s₁.self.preemptLevel = s.self.preemptLevel + 1 := by
    rw [State.self,hw.level,hcur,State.interrupted,setLevel_thread]
    simp
  have hstack : s₁.stack = s.stack := hw.stack
  have hshape := h.current
  rw [hintr] at hshape
  refine h.of_stack (⟨.intr,true,false,Fn.code .intr⟩ :: s.stack s.current) hcur ?_ (fun t ht => ?_) ?_
  · simp [State.setStack,hcur,hstack]
  · change (s₁.thread t).preemptLevel = _
    rw [hw.level,State.interrupted,setLevel_thread]
    simp [ht]
  · change Shaped (HigherWaiting s₁) _ s₁.intr s₁.self.preemptLevel
    rw [hoff,hlevel]
    refine .call (.intr rfl (.inl rfl)) (fun _ _ _ => rfl) (by simp [Frame.Owes]) ?_
    by_cases hwin : Window s
    · refine hshape.mono fun hh => (quiet_interrupted s).higherWaiting.mp
        (hw.higherWaiting (fun t ht => ?_) hh.1)
      rw [State.self,(quiet_interrupted s).priority,(quiet_interrupted s).priority]
      exact hcare hwin t ht
    by_cases hl : s.self.preemptLevel = 0
    · refine hshape.mono fun hh => ?_
      simp [Fn.code,Falls,hl] at hh
    · refine hshape.interrupted rfl hl fun f hf hy hk => hwin ?_
      obtain ⟨fs,hfs⟩ := List.head?_eq_some_iff.mp hf
      exact ⟨f,fs,hfs,hy,hk⟩

/-- Runs in which no interrupt in the window wakes a thread more urgent than the current one. -/
inductive Careful : State → Prop where
  | enable {s s' : State} : Booting s → threadEnableScheduler s = .ok s' → Careful s'
  | thread {s s' : State} : Careful s → ThreadStep s s' → Careful s'
  | interrupt {s s' : State} (acts : List Act) : Careful s → s.intr = true →
      (∀ t, Act.wake t ∈ acts → t ∈ s.created) →
      (Window s → ∀ t, Act.wake t ∈ acts → (s.thread t).priority ≤ s.self.priority) →
      cpuIntrMain s acts = .ok s' → Careful s'

theorem Careful.reachable {s : State} (h : Careful s) : Reachable s := by
  induction h with
  | enable hb he => exact .enable hb he
  | thread _ hstep ih => exact .step ih (.thread hstep)
  | interrupt acts _ hintr hact _ hmain ih => exact .step ih (.interrupt acts hintr hact hmain)

theorem Boots.prompt {s s' : State} (h : Boots s) (he : threadEnableScheduler s = .ok s') :
    Prompt s' := by
  obtain ⟨-,-,-,hstack,-⟩ := h.enable.of_ok he
  have hcalm : ∀ t, ∀ g ∈ s'.stack t, g.Calm := fun t => by
    rw [hstack]
    simp [Frame.Calm]
  exact ⟨.calm (hcalm _),fun t _ => .calm (hcalm t)⟩

theorem Careful.prompt {s : State} (h : Careful s) : Prompt s := by
  induction h with
  | enable hb he => exact hb.boots.prompt he
  | thread hr hstep ih =>
    obtain ⟨hs,hl⟩ := hr.reachable.sound
    exact hstep.prompt hs hl ih
  | interrupt acts hr hintr hact hcare hmain ih =>
    exact ih.interrupt hr.reachable.sound.1 hintr hact hcare hmain

/-- A call of `thread_yield` or `thread_preempt_enable`, made with interrupts on, is about to return to
the thread's code with interrupts on and preemption enabled. -/
def Returning (s : State) : Prop :=
  ∃ f fs, s.stack s.current = f :: fs ∧ (f.fn = .yield ∨ f.fn = .preemptEnable) ∧ f.callIntr = true ∧
    f.code = [] ∧ s.self.preemptLevel = 0 ∧ s.intr = true

/-- No thread linked in the run queue is more urgent than the current one. -/
def NoneHigher (s : State) : Prop :=
  ∃ queue, RunqInvariant s queue ∧ ∀ p t, t ∈ queue p → (s.thread t).priority ≤ s.self.priority

theorem noneHigher_of_not_waiting {s : State} (hs : Sound s) (h : ¬HigherWaiting s) : NoneHigher s := by
  obtain ⟨queue,hq⟩ := hs.runqInvariant
  refine ⟨queue,hq,fun p t ht => ?_⟩
  obtain ⟨-,-,htc,hrun,hti,htcur⟩ := hq.linked p t ht
  exact Nat.le_of_not_lt fun hlt => h ⟨t,htc,hti,htcur,hrun,hlt⟩

/-- In a careful run, no more urgent thread waits when one of the two calls returns. -/
theorem preempted_at_return (s : State) (h : Careful s) (hret : Returning s) : NoneHigher s := by
  obtain ⟨f,fs,hstack,hfn,-,hcode,hlevel,-⟩ := hret
  refine noneHigher_of_not_waiting h.reachable.sound.1 fun hw => ?_
  have hshape := h.prompt.current
  rw [hstack] at hshape
  cases hshape with
  | calm hcalm =>
    obtain ⟨hy,he,-⟩ := hcalm f (by simp)
    exact hfn.elim hy he
  | call _ _ howes _ =>
    refine howes hw hfn ?_ ?_
    · rw [hcode]
      trivial
    · rw [hcode]
      exact hlevel

/-- A linked thread more urgent than the current one has set its yield flag. -/
theorem pending_preemption_kept (s : State) (h : Reachable s) (_ : threadSchedulerLocked s = false) (t : Tid)
    (hlinked : Linked s t) (hhigher : s.self.priority < (s.thread t).priority) : s.self.yield = true := by
  obtain ⟨hs,-⟩ := h.sound
  obtain ⟨queue,hq⟩ := hs.queued
  obtain ⟨hcreated,hidle,hrun,hcur,-⟩ := (hq.mem_iff _ t).mp ((hq.linked_iff t).mp hlinked)
  exact hs.waiting ⟨t,hcreated,hidle,by simpa using hcur,hrun,hhigher⟩

/-! ## Schedules written out -/

/-- A move of a schedule that is written out: a step of the current thread, the beginning of something
by its own code, or an interrupt. -/
inductive Move where
  | step
  | begin (i : Instr)
  | interrupt (acts : List Act)

def Act.known (s : State) : Act → Bool
  | .tick => true
  | .wake t => t ∈ s.created

def Move.run (s : State) : Move → Option State
  | .step =>
    match s.stack s.current with
    | [] => none
    | f :: fs =>
      match f.code with
      | i :: k => (exec (s.setStack ({ f with code := k } :: fs)) i).toOption
      | [] => if f.fn = .main then none else some (s.setStack fs)
  | .begin i =>
    match s.stack s.current with
    | [f] =>
      if f.fn = .main ∧ f.code = [] ∧ s.current ≠ s.idle then
        some (s.setStack [{ f with code := [i] }])
      else none
    | _ => none
  | .interrupt acts => if s.intr ∧ acts.all (Act.known s) then (cpuIntrMain s acts).toOption else none

theorem ok_of_toOption {α : Type} {r : Except Fault α} {a : α} (h : r.toOption = some a) :
    r = .ok a := by
  cases r with
  | ok b => simpa [Except.toOption] using h
  | error e => simp [Except.toOption] at h

theorem Move.threadStep_run {s s' : State} {m : Move} (hm : ∀ acts, m ≠ .interrupt acts)
    (hapi : ∀ i, m = .begin i → i.Api s) (h : m.run s = some s') : ThreadStep s s' := by
  cases m with
  | step =>
    simp only [Move.run] at h
    split at h
    · cases h
    · next f fs hstack =>
      split at h
      · next i k hcode => exact .instr hstack hcode (ok_of_toOption h)
      · next hcode =>
        split at h
        · cases h
        · next hmain =>
          cases h
          exact .ret hstack hcode hmain
  | begin i =>
    simp only [Move.run] at h
    split at h
    · next f hstack =>
      split at h
      · next hc =>
        cases h
        exact .invoke i hstack hc.1 hc.2.1 hc.2.2 (hapi i rfl)
      · cases h
    · cases h
  | interrupt acts => exact absurd rfl (hm acts)

theorem Move.step_run {s s' : State} {m : Move} (hapi : ∀ i, m = .begin i → i.Api s)
    (h : m.run s = some s') : Step s s' := by
  cases m with
  | interrupt acts =>
    simp only [Move.run] at h
    split at h
    · next hc =>
      refine .interrupt acts hc.1 (fun t ht => ?_) (ok_of_toOption h)
      simpa [Act.known] using List.all_eq_true.mp hc.2 _ ht
    · cases h
  | step => exact .thread (Move.threadStep_run (by simp) hapi h)
  | begin i => exact .thread (Move.threadStep_run (by simp) hapi h)

/-- The instructions whose `Api` depends on no state. -/
def Move.Free : Move → Prop
  | .begin i => ∀ s, i.Api s
  | _ => True

theorem Move.Free.api {m : Move} (h : m.Free) (s : State) : ∀ i, m = .begin i → i.Api s := by
  rintro i rfl
  exact h s

/-- The boot code creates a thread of priority 5 and one of priority 7. -/
def sampleBoot : Except Fault State := do
  let s ← threadCreate (threadSetup ⟨id,id⟩) 5
  let s ← threadCreate s 7
  threadEnableScheduler s

theorem careful_sampleBoot {s : State} (h : sampleBoot = .ok s) : Careful s := by
  unfold sampleBoot at h
  cases h₁ : threadCreate (threadSetup ⟨id,id⟩) 5 with
  | error e => rw [h₁] at h; cases h
  | ok s₁ =>
    rw [h₁] at h
    change (threadCreate s₁ 7 >>= threadEnableScheduler) = _ at h
    cases h₂ : threadCreate s₁ 7 with
    | error e => rw [h₂] at h; cases h
    | ok s₂ =>
      rw [h₂] at h
      exact .enable (.create (.create (.setup _) h₁) h₂) h

/-- What is read off at the end of a schedule. `fn`, `callIntr` and `code` are of the running frame, and
`other` is thread 3. -/
structure View where
  fn : Option Fn
  callIntr : Option Bool
  code : Option (List Instr)
  level : ℕ
  intr : Bool
  current : Tid
  idle : Tid
  created : List Tid
  priority : ℕ
  otherState : ThreadState
  otherPriority : ℕ
  deriving DecidableEq

def State.view (s : State) : View :=
  let f := (s.stack s.current).head?
  ⟨f.map (·.fn),f.map (·.callIntr),f.map (·.code),s.self.preemptLevel,s.intr,s.current,s.idle,s.created,
    s.self.priority,(s.thread 3).state,(s.thread 3).priority⟩

/-- Thread 3 goes to sleep, and thread 2 comes to its own code. -/
def sleepMoves : List Move :=
  List.replicate 6 Move.step ++ [Move.begin .preemptDisable,Move.step,Move.begin (.call .sleep)] ++
    List.replicate 9 Move.step

/-- Thread 2 calls `thread_yield`, and an interrupt in the window wakes 3. -/
def windowMoves : List Move :=
  sleepMoves ++ [Move.begin (.call .yield)] ++ List.replicate 6 Move.step ++ [Move.interrupt [.wake 3]] ++
    List.replicate 8 Move.step

theorem windowMoves_free : ∀ m ∈ windowMoves, m.Free := by
  simp [windowMoves,sleepMoves,Move.Free,Instr.Api]

theorem exists_view {ms : List Move} {run : State → Move → Option State} {v : View}
    (h : (sampleBoot.toOption.bind (ms.foldlM run)).map State.view = some v) :
    ∃ s₀ s, sampleBoot = .ok s₀ ∧ ms.foldlM run s₀ = some s ∧ s.view = v := by
  obtain ⟨s,hs,hv⟩ := Option.map_eq_some_iff.mp h
  obtain ⟨s₀,h₀,hs⟩ := Option.bind_eq_some_iff.mp hs
  exact ⟨s₀,s,ok_of_toOption h₀,hs,hv⟩

theorem returning_of_view {s : State} {fn : Fn} {current idle : Tid} {created : List Tid}
    {priority prio : ℕ} {state : ThreadState}
    (h : s.view = ⟨some fn,some true,some [],0,true,current,idle,created,priority,state,prio⟩)
    (hfn : fn = .yield ∨ fn = .preemptEnable) : Returning s := by
  simp only [State.view,View.mk.injEq,Option.map_eq_some_iff] at h
  obtain ⟨⟨f,hf,rfl⟩,⟨f₁,hf₁,hcall⟩,⟨f₂,hf₂,hcode⟩,hlevel,hintr,-⟩ := h
  obtain rfl : f = f₁ := Option.some.inj (hf.symm.trans hf₁)
  obtain rfl : f = f₂ := Option.some.inj (hf.symm.trans hf₂)
  obtain ⟨fs,hstack⟩ := List.head?_eq_some_iff.mp hf
  exact ⟨f,fs,hstack,hfn,hcall,hcode,hlevel,hintr⟩

theorem exists_window_state : ∃ s, Reachable s ∧
    s.view = ⟨some .yield,some true,some [],0,true,2,1,[3,2,1],5,.running,7⟩ := by
  have hrun : (sampleBoot.toOption.bind (windowMoves.foldlM Move.run)).map State.view =
      some ⟨some .yield,some true,some [],0,true,2,1,[3,2,1],5,.running,7⟩ := by decide +kernel
  obtain ⟨s₀,s,h₀,hs,hv⟩ := exists_view hrun
  have hreach : Reachable s := foldlM_keeps (P := Reachable)
    (fun m hm s s' hr h => .step hr (Move.step_run ((windowMoves_free m hm).api s) h))
    (careful_sampleBoot h₀).reachable hs
  exact ⟨s,hreach,hv⟩

/-- A wake-up in the window is not acted upon when `thread_yield` returns. -/
theorem yield_window_missed : ¬∀ s, Reachable s → Returning s → NoneHigher s := by
  intro h
  obtain ⟨s,hreach,hv⟩ := exists_window_state
  obtain ⟨queue,hq,hle⟩ := h s hreach (returning_of_view hv (.inl rfl))
  simp only [State.view,View.mk.injEq] at hv
  obtain ⟨-,-,-,-,-,hcur,hidle,hcreated,hself,hstate,hprio⟩ := hv
  have hlinked := hq.running_linked 3 (by simp [hcreated]) (by simp [hidle]) hstate
  rw [hcur] at hlinked
  have := hle _ 3 (hlinked.resolve_left (by decide))
  omega

/-- The wake-up in the window is not forgotten. -/
theorem pending_preemption_sample : ∃ s, Reachable s ∧ threadSchedulerLocked s = false ∧ Linked s 3 ∧
    s.self.priority < (s.thread 3).priority ∧ s.self.yield = true := by
  obtain ⟨s,hreach,hv⟩ := exists_window_state
  simp only [State.view,View.mk.injEq] at hv
  obtain ⟨-,-,-,hlevel,hintr,hcur,hidle,hcreated,hself,hstate,hprio⟩ := hv
  have hunlocked : threadSchedulerLocked s = false := by simp [threadSchedulerLocked,hintr]
  have hhigher : s.self.priority < (s.thread 3).priority := by omega
  have hlinked : Linked s 3 := by
    obtain ⟨queue,hq⟩ := hreach.sound.1.queued
    exact (hq.linked_iff 3).mpr ((hq.mem_iff _ 3).mpr
      ⟨by simp [hcreated],by simp [hidle],hstate,by simp [hcur],rfl⟩)
  exact ⟨s,hreach,hunlocked,hlinked,hhigher,pending_preemption_kept s hreach hunlocked 3 hlinked hhigher⟩

/-- The same as `run`, but for interrupts while the running frame is one of `thread_yield`. -/
def Move.careful (s : State) : Move → Option State
  | .interrupt acts => if (s.stack s.current).head?.map (·.fn) = some .yield then none else (Move.interrupt acts).run s
  | m => m.run s

theorem Move.Free.careful_run {s s' : State} {m : Move} (hm : m.Free) (hc : Careful s) (h : m.careful s = some s') :
    Careful s' := by
  cases m with
  | step => exact .thread hc (Move.threadStep_run (by simp) (hm.api s) h)
  | begin i => exact .thread hc (Move.threadStep_run (by simp) (hm.api s) h)
  | interrupt acts =>
    simp only [Move.careful,Move.run] at h
    split at h
    · cases h
    · next hyield =>
      split at h
      · next hi =>
        refine .interrupt acts hc hi.1 (fun t ht => ?_) (fun hwin => ?_) (ok_of_toOption h)
        · simpa [Act.known] using List.all_eq_true.mp hi.2 _ ht
        · obtain ⟨f,fs,hstack,hfn,-⟩ := hwin
          rw [hstack] at hyield
          exact absurd (congrArg some hfn) hyield
      · cases h

/-- Thread 2 disables preemption, and an interrupt wakes 3: the call of `thread_preempt_enable` switches to 3,
whose own call returns. -/
def wakeupMoves : List Move :=
  sleepMoves ++ [Move.begin .preemptDisable,Move.step,Move.interrupt [.wake 3]] ++ List.replicate 7 Move.step ++
    [Move.begin (.call .preemptEnable)] ++ List.replicate 10 Move.step ++ [Move.begin (.call .preemptEnable)] ++
    List.replicate 3 Move.step

theorem preempted_at_return_sample : ∃ s, Careful s ∧ Returning s ∧ s.current = 3 ∧ NoneHigher s := by
  have hrun : (sampleBoot.toOption.bind (wakeupMoves.foldlM Move.careful)).map State.view =
      some ⟨some .preemptEnable,some true,some [],0,true,3,1,[3,2,1],7,.running,7⟩ := by decide +kernel
  obtain ⟨s₀,s,h₀,hs,hv⟩ := exists_view hrun
  have hfree : ∀ m ∈ wakeupMoves, m.Free := by
    simp [wakeupMoves,sleepMoves,Move.Free,Instr.Api]
  have hcare : Careful s :=
    foldlM_keeps (P := Careful) (fun m hm s s' hc h => (hfree m hm).careful_run hc h) (careful_sampleBoot h₀) hs
  have hret : Returning s := returning_of_view hv (.inr rfl)
  exact ⟨s,hcare,hret,congrArg View.current hv,preempted_at_return s hcare hret⟩

end X1.Sched
