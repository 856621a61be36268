import X1.Sched.Runs

/-! # The run queue invariant

In every reachable state the lists in memory hold exactly the runnable threads that
wait, `nr_threads` counts the runnable threads, and the current thread is runnable.
A list head is never dequeued as a thread, and idle runs exactly when nothing else can.
-/
namespace X1.Sched
open X1.Lib X1.Ring X1.Checked

/-- The lists read from memory, and what they hold. A ring has no repetitions, so a thread is linked
at most once in a list. -/
structure RunqInvariant (s : State) (queue : Queues) : Prop where
  lists : ∀ p < THREAD_NR_PRIORITIES,
    IsRing s.links.nextOf s.links.prevOf (.head p) ((queue p).map .thread)
  running_linked : ∀ t ∈ s.created, t ≠ s.idle → (s.thread t).state = .running →
    t = s.current ∨ t ∈ queue (s.thread t).priority
  linked : ∀ p t, t ∈ queue p → p < THREAD_NR_PRIORITIES ∧ (s.thread t).priority = p ∧ t ∈ s.created ∧
    (s.thread t).state = .running ∧ t ≠ s.idle ∧ t ≠ s.current
  nr_threads : s.nrThreads =
    (s.created.filter fun t => decide (t ≠ s.idle) && threadIsRunning (s.thread t)).length
  current_running : s.current ∈ s.created ∧ s.self.state = .running

theorem Queued.runqInvariant {s : State} {queue : Queues} (hq : Queued s (some s.current) queue)
    (h : Sound s) : RunqInvariant s queue := by
  refine ⟨hq.rings,fun t htc hti hrun => ?_,fun p t ht => ?_,?_,h.current_mem,h.running⟩
  · by_cases hcur : t = s.current
    · exact .inl hcur
    · exact .inr ((hq.mem_iff _ t).mpr ⟨htc,hti,hrun,by simpa using hcur,rfl⟩)
  · obtain ⟨htc,hti,hrun,hcur,hp⟩ := (hq.mem_iff p t).mp ht
    exact ⟨hq.lt_of_mem ht,hp,htc,hrun,hti,by simpa using hcur⟩
  · rw [hq.nr_eq]
    congr 1
    refine List.filter_congr fun t _ => ?_
    have hrun : s.self.state = .running := h.running
    by_cases hcur : t = s.current
    · subst hcur
      simp [Counted,threadIsRunning,show (s.thread s.current).state = .running from hrun]
    · simp [Counted,threadIsRunning,hcur]

theorem Sound.runqInvariant {s : State} (h : Sound s) : ∃ queue, RunqInvariant s queue := by
  obtain ⟨queue,hq⟩ := h.queued
  exact ⟨queue,hq.runqInvariant h⟩

/-- The thread is met on the way through the list of some priority. -/
def Linked (s : State) (t : Tid) : Prop :=
  ∃ p < THREAD_NR_PRIORITIES, ∃ n, s.links.nextOf^[n] (.head p) = .thread t

theorem linked_iff {s : State} {queue : Queues} (hrings : Rings s.links queue) (t : Tid) :
    Linked s t ↔ ∃ p < THREAD_NR_PRIORITIES, t ∈ queue p := by
  refine exists_congr fun p => and_congr_right fun hp => ?_
  have hmem := (hrings p hp).mem_iff_iterate (.thread t)
  rw [thread_mem_ring] at hmem
  exact hmem.symm

theorem Queued.linked_iff {s : State} {out : Option Tid} {queue : Queues} (h : Queued s out queue)
    (t : Tid) : Linked s t ↔ t ∈ queue (s.thread t).priority := by
  rw [Sched.linked_iff h.rings]
  constructor
  · rintro ⟨p,-,ht⟩
    rwa [h.queue_priority ht]
  · exact fun ht => ⟨_,h.lt_of_mem ht,ht⟩

/-- Idle was picked exactly when no other thread is runnable. -/
def IdleLast (s : State) : Prop :=
  s.current = s.idle ↔ ∀ t ∈ s.created, t ≠ s.idle → (s.thread t).state ≠ .running

/-- The run queue invariant of every reachable state. No call of `thread_runq_get_next`, by
`thread_enable_scheduler` or from `thread_runq_schedule`, takes a list head for a thread, and each
picks idle exactly when no other thread is runnable. -/
theorem runq_invariant_reachable (s : State) (h : Reachable s) :
    (∃ queue, RunqInvariant s queue) ∧
    (∀ f fs i k, s.stack s.current = f :: fs → f.code = i :: k →
      exec (s.setStack ({ f with code := k } :: fs)) i ≠ .error .wild ∧
      (i.Switches → ∀ s', exec (s.setStack ({ f with code := k } :: fs)) i = .ok s' → IdleLast s')) ∧
    (∀ acts, (∀ t, Act.wake t ∈ acts → t ∈ s.created) → cpuIntrMain s acts ≠ .error .wild) ∧
    (∀ b, Booting b → threadEnableScheduler b ≠ .error .wild ∧
      ∀ s', threadEnableScheduler b = .ok s' → IdleLast s') := by
  obtain ⟨hs,hl⟩ := h.sound
  refine ⟨hs.runqInvariant,fun f fs i k hstack hcode => ?_,fun acts hact => ?_,fun b hb => ?_⟩
  · have hexec := (Fetched.of_stack hs hl hstack hcode).exec
    exact ⟨hexec.ne_error (by simp),fun hsw s' hs' => ((hexec.of_ok hs').2.2 hsw).dispatched.idle_iff⟩
  · exact (hs.interrupt hl hact).ne_error (by simp)
  · exact ⟨hb.boots.enable.ne_error (by simp),fun s' hs' => (hb.boots.enable.of_ok hs').2.2.1.idle_iff⟩

/-- Two threads are created and the scheduler is enabled: the more urgent one runs, the other waits. -/
theorem sample_boot : ∃ s, Reachable s ∧ s.created = [3,2,1] ∧ s.current = 3 ∧ s.nrThreads = 2 ∧
    listFirst s.links (.head 5) = .thread 2 := by
  obtain ⟨s₁,h₁⟩ : ∃ s₁, threadCreate (threadSetup ⟨id,id⟩) 5 = .ok s₁ := ⟨_,rfl⟩
  obtain ⟨s₂,h₂,s₃,h₃,hfacts⟩ : ∃ s₂, threadCreate s₁ 7 = .ok s₂ ∧
    ∃ s₃, threadEnableScheduler s₂ = .ok s₃ ∧
      s₃.created = [3,2,1] ∧ s₃.current = 3 ∧ s₃.nrThreads = 2 ∧
      listFirst s₃.links (.head 5) = .thread 2 := by
    cases h₁
    exact ⟨_,rfl,_,rfl,rfl,rfl,rfl,rfl⟩
  exact ⟨s₃,.enable (.create (.create (.setup _) h₁) h₂) h₃,hfacts⟩

theorem runq_invariant_sample : ∃ s queue, Reachable s ∧ s.created = [3,2,1] ∧ s.current = 3 ∧
    RunqInvariant s queue := by
  obtain ⟨s,hs,hc,hcur,-⟩ := sample_boot
  obtain ⟨queue,hq⟩ := (runq_invariant_reachable s hs).1
  exact ⟨s,queue,hs,hc,hcur,hq⟩

end X1.Sched
