import X1.Mutex.Invariant

/-! # What the statements of mutex.c do to the threads

For code that calls `mutex_lock` and `mutex_unlock`: a statement moves the current
thread and can wake others, and a call comes back with the level it found.
-/
namespace X1.Mutex
open X1.Lib X1.Checked
variable {T : Type} [DecidableEq T]

/-- The other threads stay where they are, and none of them is put to sleep. -/
structure Frame (s s' : State T) : Prop where
  thread : ∀ t, t ≠ s.current → s'.thread t = { s.thread t with state := (s'.thread t).state }
  running : ∀ t, t ≠ s.current → (s.thread t).state = .running → (s'.thread t).state = .running

theorem Frame.of_update {s s' : State T} {th : Thread}
    (h : s'.thread = Function.update s.thread s.current th) : Frame s s' := by
  refine ⟨fun t ht => ?_,fun t ht hr => ?_⟩
  · rw [h,Function.update_of_ne ht]
  · rw [h,Function.update_of_ne ht]
    exact hr

theorem Frame.goto {s s₁ : State T} (h : Frame s s₁) (hc : s₁.current = s.current) (pc : Pc) :
    Frame s (s₁.goto pc) := by
  have hthread : ∀ t, t ≠ s.current → (s₁.goto pc).thread t = s₁.thread t := fun t ht => by
    rw [State.goto,modify_thread,if_neg (hc ▸ ht)]
  refine ⟨fun t ht => ?_,fun t ht hr => ?_⟩
  · rw [hthread t ht]
    exact h.thread t ht
  · rw [hthread t ht]
    exact h.running t ht hr

theorem wakeup_thread (s : State T) (t u : T) :
    (s.modify t fun th => { th with state := .running }).thread u =
        { s.thread u with
          state := ((s.modify t fun th => { th with state := .running }).thread u).state } ∧
      ((s.thread u).state = .running →
        ((s.modify t fun th => { th with state := .running }).thread u).state = .running) := by
  rw [modify_thread]
  split
  · next hu =>
    subst hu
    exact ⟨rfl,fun _ => rfl⟩
  · exact ⟨rfl,id⟩

theorem frame_wakeup (s : State T) (t : T) :
    Frame s (s.modify t fun th => { th with state := .running }) :=
  ⟨fun u _ => (wakeup_thread s t u).1,fun u _ => (wakeup_thread s t u).2⟩

theorem threadWakeup_thread (s : State T) (t u : T) :
    (threadWakeup s t).thread u = { s.thread u with state := ((threadWakeup s t).thread u).state } := by
  unfold threadWakeup
  split
  · rfl
  · exact (wakeup_thread s t u).1

theorem frame_threadWakeup (s : State T) (t : T) : Frame s (threadWakeup s t) := by
  unfold threadWakeup
  split
  · exact .of_update (Function.update_eq_self _ _).symm
  · exact frame_wakeup s t

theorem mutexWakeupFirst_cases {s s' : State T} (h : mutexWakeupFirst s = .ok s') :
    s' = s ∨ ∃ t, s' = threadWakeup s t := by
  unfold mutexWakeupFirst at h
  split at h
  · exact .inl (Except.ok.inj h).symm
  · split at h
    · exact .inr ⟨_,(Except.ok.inj h).symm⟩
    · cases h

theorem current_threadWakeup (s : State T) (t : T) : (threadWakeup s t).current = s.current := by
  unfold threadWakeup
  split <;> rfl

omit [DecidableEq T] in
theorem mutexSetOwner_thread {s s' : State T} {t : T} (h : mutexSetOwner s t = .ok s') :
    s'.thread = s.thread ∧ s'.current = s.current := by
  unfold mutexSetOwner at h
  obtain ⟨_,-,h⟩ := bind_eq_ok h
  obtain ⟨_,-,h⟩ := bind_eq_ok h
  rw [← Except.ok.inj h]
  exact ⟨rfl,rfl⟩

theorem mutexClearOwner_thread {s s' : State T} (h : mutexClearOwner s = .ok s') :
    s'.thread = s.thread ∧ s'.current = s.current := by
  unfold mutexClearOwner at h
  obtain ⟨_,-,h⟩ := bind_eq_ok h
  obtain ⟨_,-,h⟩ := bind_eq_ok h
  rw [← Except.ok.inj h]
  exact ⟨rfl,rfl⟩

theorem of_threadPreemptDisable {s s' : State T} (h : threadPreemptDisable s = .ok s') :
    (s.self.preemptLevel + 1) % 2 ^ 32 ≠ 0 ∧ s' = s.setLevel ((s.self.preemptLevel + 1) % 2 ^ 32) :=
  (preemptDisable_spec s).of_ok h

theorem of_threadPreemptEnable {s s' : State T} (h : threadPreemptEnable s = .ok s') :
    s.self.preemptLevel ≠ 0 ∧ s' = s.setLevel (s.self.preemptLevel - 1) :=
  (preemptEnable_spec s).of_ok h

theorem of_threadSleep {s s' : State T} {next : T} (h : threadSleep s next = .ok s') :
    s' = { s.modify s.current fun th => { th with state := .sleeping } with current := next } := by
  unfold threadSleep at h
  obtain ⟨_,-,h⟩ := bind_eq_ok h
  obtain ⟨_,-,h⟩ := bind_eq_ok h
  exact (Except.ok.inj h).symm

def Pc.locks : Pc → Bool
  | lockEnter | lockTest | lockQueue | lockSleep | lockRetest | lockDequeue | lockSetOwner | lockLeave | lockReturn =>
    true
  | _ => false

/-- In `mutex_unlock`, or behind it, when it was called at this level. -/
def Thread.Unlocking (level : ℕ) (th : Thread) : Prop :=
  th.holding = false ∧
    match th.pc with
    | .unlockEnter | .own => th.preemptLevel = level
    | .unlockClear | .unlockWakeup | .unlockLeave => th.preemptLevel = level + 1
    | _ => False

/-- What a statement does to the current thread. -/
structure Thread.Moves (th th' : Thread) : Prop where
  locks : th.pc.locks = true → th'.pc.locks = true ∨ th'.pc = .own ∧ th'.holding = true
  unlocks : ∀ level, level + 1 < 2 ^ 32 → th.pc ≠ .own → th.Unlocking level → th'.Unlocking level

theorem goto_thread (s : State T) (pc : Pc) :
    (s.goto pc).thread = Function.update s.thread s.current { s.self with pc := pc } := rfl

/-- Every statement but the wake-up in `mutex_unlock` changes the current thread alone. -/
theorem exec_thread {s s' : State T} {next : T} (h : exec s next = .ok s')
    (hwakeup : s.self.pc ≠ .unlockWakeup) :
    ∃ th, s'.thread = Function.update s.thread s.current th ∧ s.self.Moves th ∧
    (s'.current = s.current ∨ s.self.pc = .lockSleep) := by
  unfold exec at h
  split at h
  case h_1 hpc =>
    rw [← Except.ok.inj h]
    refine ⟨s.self,(Function.update_eq_self _ _).symm,
      ⟨fun hl => ?_,fun _ _ hown => absurd hpc hown⟩,.inl rfl⟩
    simp [hpc,Pc.locks] at hl
  case h_2 hpc | h_11 hpc | h_16 hpc =>
    obtain ⟨s₁,h₁,h⟩ := bind_eq_ok h
    rw [← Except.ok.inj h,(of_threadPreemptDisable h₁).2,setLevel_goto]
    refine ⟨_,rfl,⟨fun _ => ?_,fun level hl _ hu => ?_⟩,.inl rfl⟩
    · simp_all [Pc.locks]
    · simp_all [Thread.Unlocking]
  case h_9 hpc | h_14 hpc | h_19 hpc =>
    obtain ⟨s₁,h₁,h⟩ := bind_eq_ok h
    rw [← Except.ok.inj h,(of_threadPreemptEnable h₁).2,setLevel_goto]
    refine ⟨_,rfl,⟨fun _ => ?_,fun level hl _ hu => ?_⟩,.inl rfl⟩
    · simp_all [Pc.locks]
    · simp_all [Thread.Unlocking]
  case h_5 hpc =>
    rw [of_threadSleep h]
    refine ⟨{ s.self with pc := .lockRetest, state := .sleeping },?_,
      ⟨fun _ => .inl rfl,fun _ _ _ hu => ?_⟩,.inr hpc⟩
    · simp [State.goto,State.modify,State.self]
    · simp [Thread.Unlocking,hpc] at hu
  case h_8 hpc | h_13 hpc =>
    obtain ⟨s₁,h₁,h⟩ := bind_eq_ok h
    obtain ⟨hthread,hcurrent⟩ := mutexSetOwner_thread h₁
    rw [← Except.ok.inj h,goto_thread,State.self,hthread,hcurrent]
    refine ⟨_,rfl,⟨fun _ => ?_,fun level hl _ hu => ?_⟩,.inl hcurrent⟩
    · simp_all [Pc.locks]
    · simp_all [Thread.Unlocking]
  case h_17 hpc =>
    obtain ⟨s₁,h₁,h⟩ := bind_eq_ok h
    obtain ⟨hthread,hcurrent⟩ := mutexClearOwner_thread h₁
    rw [← Except.ok.inj h,goto_thread,State.self,hthread,hcurrent]
    refine ⟨_,rfl,⟨fun _ => ?_,fun level hl _ hu => ?_⟩,.inl hcurrent⟩
    · simp_all [Pc.locks]
    · change Thread.Unlocking level { s.self with pc := .unlockWakeup }
      simpa [Thread.Unlocking,hpc] using hu
  case h_18 hpc => exact absurd hpc hwakeup
  all_goals
    next hpc =>
    rw [← Except.ok.inj h]
    refine ⟨_,rfl,⟨fun hl => ?_,fun level _ _ hu => ?_⟩,.inl rfl⟩
    · cases hlocked : s.locked <;> simp_all [Pc.locks,State.self]
    · simp_all [Thread.Unlocking,State.self]

theorem exec_unlockWakeup {s s' : State T} {next : T} (h : exec s next = .ok s')
    (hpc : s.self.pc = .unlockWakeup) :
    Frame s s' ∧ s'.current = s.current ∧ s.self.Moves (s'.thread s.current) := by
  unfold exec at h
  rw [hpc] at h
  obtain ⟨s₁,h₁,h⟩ := bind_eq_ok h
  rw [← Except.ok.inj h]
  have hmoves : ∀ st, s.self.Moves { s.self with pc := .unlockLeave, state := st } := fun st => by
    refine ⟨fun hl => ?_,fun level _ _ hu => ?_⟩
    · simp [hpc,Pc.locks] at hl
    · simpa [Thread.Unlocking,hpc] using hu
  rcases mutexWakeupFirst_cases h₁ with rfl | ⟨t,rfl⟩
  · refine ⟨.of_update rfl,rfl,?_⟩
    rw [goto_thread,Function.update_self]
    exact hmoves _
  · have hcurrent := current_threadWakeup s t
    refine ⟨(frame_threadWakeup s t).goto hcurrent _,hcurrent,?_⟩
    have hself : (threadWakeup s t).self = s.self := by
      unfold threadWakeup
      split
      · rfl
      · next ht =>
        rw [State.self,modify_thread]
        exact if_neg (Ne.symm ht)
    rw [goto_thread,hcurrent,hself,Function.update_self]
    exact hmoves _

theorem exec_spec {s s' : State T} {next : T} (h : exec s next = .ok s') :
    Frame s s' ∧ s.self.Moves (s'.thread s.current) ∧
    (s'.current = s.current ∨ s.self.pc = .lockSleep) := by
  by_cases hpc : s.self.pc = .unlockWakeup
  · obtain ⟨hframe,hcurrent,hmoves⟩ := exec_unlockWakeup h hpc
    exact ⟨hframe,hmoves,.inl hcurrent⟩
  · obtain ⟨th,hthread,hmoves,hcurrent⟩ := exec_thread h hpc
    refine ⟨.of_update hthread,?_,hcurrent⟩
    rw [hthread,Function.update_self]
    exact hmoves

end X1.Mutex
