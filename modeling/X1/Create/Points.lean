import X1.Create.Model
import X1.Sched.Runs

/-! # Preemption points at which no other thread runs

`thread_preempt_enable` acts on a pending yield when it brings the preemption level to 0. The
thread then goes to the tail of its list, and if it is picked again at once the lists are
what they were: its list was empty. Only the yield flag has changed.
-/
namespace X1.Create
open X1.Lib X1.Ring X1.Sched X1.Checked

/-- What is left of preemption points at which no other thread has run. -/
structure Settled (s s' : Sched.State) : Prop where
  lists : ∀ p < THREAD_NR_PRIORITIES, ∀ nodes,
    IsList s'.links (.head p) nodes ↔ IsList s.links (.head p) nodes
  nrThreads : s'.nrThreads = s.nrThreads
  current : s'.current = s.current
  intr : s'.intr = s.intr
  other : ∀ t, t ≠ s.current → s'.thread t = s.thread t
  self : s'.self = { s.self with yield := s'.self.yield }
  yield : s'.self.yield = s.self.yield ∨ (s.self.preemptLevel = 0 ∧ s'.self.yield = false)
  core : Core s → Core s'

namespace Settled
variable {s s' s'' : Sched.State}

theorem refl (s : Sched.State) : Settled s s :=
  ⟨fun _ _ _ => Iff.rfl,rfl,rfl,rfl,fun _ _ => rfl,rfl,.inl rfl,id⟩

theorem level (h : Settled s s') : s'.self.preemptLevel = s.self.preemptLevel := by rw [h.self]

theorem state (h : Settled s s') (t : Tid) : (s'.thread t).state = (s.thread t).state := by
  by_cases ht : t = s.current
  · have hself := h.self
    rw [State.self,State.self,h.current,← ht] at hself
    rw [hself]
  · rw [h.other t ht]

theorem trans (h : Settled s s') (h' : Settled s' s'') : Settled s s'' := by
  refine ⟨fun p hp nodes => (h'.lists p hp nodes).trans (h.lists p hp nodes),
    h'.nrThreads.trans h.nrThreads,
    h'.current.trans h.current,h'.intr.trans h.intr,fun t ht => ?_,?_,?_,fun hc => h'.core (h.core hc)⟩
  · rw [h'.other t (by rwa [h.current]),h.other t ht]
  · rw [h'.self,h.self]
  · rcases h'.yield with he | ⟨hl,he⟩
    · rw [he]
      exact h.yield
    · exact .inr ⟨h.level ▸ hl,he⟩

theorem lower (hlists : ∀ p < THREAD_NR_PRIORITIES, ∀ nodes,
      IsList s'.links (.head p) nodes ↔ IsList s.links (.head p) nodes)
    (hnr : s'.nrThreads = s.nrThreads) (hcurrent : s'.current = s.current) (hintr : s'.intr = s.intr)
    (hthread : s'.thread = Function.update s.thread s.current { s.self with yield := false })
    (hlevel : s.self.preemptLevel = 0) (hcore : Core s') : Settled s s' ∧ s'.self.yield = false := by
  have hself : s'.self = { s.self with yield := false } := by
    rw [State.self,hcurrent,hthread,Function.update_self]
  have hyield : s'.self.yield = false := by rw [hself]
  refine ⟨⟨hlists,hnr,hcurrent,hintr,fun t ht => ?_,?_,.inr ⟨hlevel,hyield⟩,fun _ => hcore⟩,hyield⟩
  · rw [hthread,Function.update_of_ne ht]
  · rw [hyield]
    exact hself

end Settled

/-- A thread that is picked again leaves the lists as they were. -/
theorem queue_of_repicked {s : Sched.State} {queue queue' : Queues} (h : Queued s (some s.current) queue)
    (hpick : Picks (Queued.candidates s queue) s.idle s.current queue') : queue' = queue := by
  unfold Queued.candidates at hpick
  split at hpick
  · rcases hpick with ⟨-,-,rfl⟩ | ⟨p,r,hp,-⟩
    · rfl
    · exact absurd (hp ▸ List.mem_cons_self ..) (h.not_mem_current p)
  · rcases hpick with ⟨hempty,-⟩ | ⟨p,r,hp,rfl,-⟩
    · have := hempty s.self.priority
      simp at this
    · have hmem : s.current ∈ Queued.withCurrent s queue p := hp ▸ List.mem_cons_self ..
      obtain rfl : p = s.self.priority :=
        (Queued.mem_withCurrent.mp hmem).elim (fun hq => absurd hq (h.not_mem_current p)) And.right
      -- Nothing stands in front of the thread in its list.
      have hnil : queue s.self.priority = [] ∧ r = [] := by
        rw [Queued.withCurrent,Function.update_self] at hp
        cases hq : queue s.self.priority with
        | nil =>
          rw [hq] at hp
          exact ⟨rfl,(List.cons.inj hp).2.symm⟩
        | cons a l =>
          rw [hq] at hp
          obtain rfl : a = s.current := (List.cons.inj hp).1
          exact absurd (hq ▸ List.mem_cons_self ..) (h.not_mem_current s.self.priority)
      rw [hnil.2,Queued.withCurrent,Function.update_idem,← hnil.1,Function.update_eq_self]

theorem setLevel_restores (s : Sched.State) : threadSetLevel (threadSetLevel s (s.self.preemptLevel + 1))
    ((threadSetLevel s (s.self.preemptLevel + 1)).self.preemptLevel - 1) = s := by
  rw [setLevel_self]
  simp only [threadSetLevel,State.modify,State.self,Function.update_idem,Function.update_self]
  change { s with thread := Function.update s.thread s.current (s.thread s.current) } = s
  rw [Function.update_eq_self]

variable {s s' s₁ : Sched.State}

theorem lists_of_rings {links links' : Links Node} {queue : Queues} (h : Rings links queue)
    (h' : Rings links' queue) :
    ∀ p < THREAD_NR_PRIORITIES, ∀ nodes, IsList links' (.head p) nodes ↔
    IsList links (.head p) nodes := by
  intro p hp nodes
  constructor
  · intro hl
    rw [IsRing.unique hl (h' p hp)]
    exact h p hp
  · intro hl
    rw [IsRing.unique hl (h p hp)]
    exact h' p hp

/-- The scheduler picks the current thread again. -/
theorem threadRunqSchedule_again (hcore : Core s) (h : threadRunqSchedule s = .ok s')
    (hcurrent : s'.current = s.current) :
    Core s' ∧ SameThreads s s' ∧ s'.nrThreads = s.nrThreads ∧
    ∀ p < THREAD_NR_PRIORITIES, ∀ nodes, IsList s'.links (.head p) nodes ↔
    IsList s.links (.head p) nodes := by
  obtain ⟨hsound,-,hsame,-,-,hqueue⟩ := hcore.schedule.of_ok h
  obtain ⟨queue,hq⟩ := hcore.queued
  obtain ⟨-,queue',hq',hpick⟩ := hqueue queue hq
  rw [hcurrent] at hpick
  obtain rfl := queue_of_repicked hq hpick
  refine ⟨hsound.toCore,hsame,?_,lists_of_rings hq.rings hq'.rings⟩
  rw [hq'.nr_eq,hq.nr_eq,hsame.created,hcurrent]
  congr 1
  refine List.filter_congr fun t _ => decide_eq_decide.mpr ?_
  simp only [Counted,hsame.idle,hsame.thread]

/-- A pending yield is acted upon, and its flag is cleared. -/
theorem threadYield_spec (hcore : Core s) (hlevel : s.self.preemptLevel = 0)
    (h : threadYield s = .ok s') : Settled s s' ∧ s'.self.yield = false := by
  have henabled : threadPreemptEnabled s = true := by simpa [threadPreemptEnabled] using hlevel
  rw [threadYield,henabled] at h
  obtain ⟨s₁,h₁,h⟩ := bind_eq_ok h
  obtain ⟨-,rfl⟩ := (preemptDisable_spec (hcore.level_lt _)).of_ok h₁
  rw [hlevel] at h
  obtain ⟨s₂,h₂,h⟩ := bind_eq_ok h
  have hcore₁ : Core (threadClearYield { threadSetLevel s (0 + 1) with intr := false } s.current) :=
    ((hcore.setLevel (by norm_num)).setIntr false).modify _ (fun _ => rfl) (fun _ => rfl)
      ((hcore.setLevel (by norm_num)).level_lt _) ((hcore.setLevel (by norm_num)).joiner_mem _)
  split at h
  · next hcurrent =>
    obtain ⟨hcore₂,hsame,hnr,hlists⟩ := threadRunqSchedule_again hcore₁ h₂ hcurrent
    obtain ⟨-,rfl⟩ := (preemptEnableNoYield_spec _).of_ok h
    refine Settled.lower hlists hnr hcurrent rfl ?_ hlevel
      ((hcore₂.setIntr _).setLevel ((Nat.sub_le _ _).trans_lt (hcore₂.level_lt _)))
    have hself : s₂.self = { s.self with preemptLevel := 1, yield := false } := by
      rw [State.self,hcurrent,hsame.thread]
      simp [threadClearYield,State.modify,threadSetLevel,State.self]
    have hlevel' : (s.thread s.current).preemptLevel = 0 := hlevel
    change Function.update s₂.thread s₂.current { s₂.self with preemptLevel :=
      s₂.self.preemptLevel - 1 } = _
    rw [hself,hcurrent,hsame.thread]
    simp [threadClearYield,State.modify,threadSetLevel,State.self,hlevel']
  · cases h

theorem preemptPoint_spec (hlt : s.self.preemptLevel < 2 ^ 32) (hcore : s.self.preemptLevel = 0 → Core s)
    (h₁ : threadPreemptDisable s = .ok s₁) (h : threadPreemptEnable s₁ = .ok s') :
    Settled s s' ∧ (s.self.preemptLevel = 0 → s'.self.yield = false) := by
  obtain ⟨-,rfl⟩ := (preemptDisable_spec hlt).of_ok h₁
  obtain ⟨s₂,h₂,h⟩ := bind_eq_ok h
  obtain ⟨-,rfl⟩ := (preemptEnableNoYield_spec _).of_ok h₂
  rw [setLevel_restores] at h
  split at h
  · by_cases hlevel : s.self.preemptLevel = 0
    · obtain ⟨hsettled,hyield⟩ := threadYield_spec (hcore hlevel) hlevel h
      exact ⟨hsettled,fun _ => hyield⟩
    · have hdisabled : threadPreemptEnabled s = false := by simpa [threadPreemptEnabled] using hlevel
      rw [threadYield,hdisabled] at h
      cases h
      exact ⟨.refl s,fun he => absurd he hlevel⟩
  · next hyield =>
    cases h
    exact ⟨.refl s,fun _ => Bool.eq_false_iff.mpr hyield⟩

theorem threadWakeup_running {t : Tid} (hlt : s.self.preemptLevel < 2 ^ 32)
    (hrun : (s.thread t).state = .running) (h : threadWakeup s (some t) = .ok s') : s' = s := by
  unfold threadWakeup at h
  split at h
  · cases h
    rfl
  · obtain ⟨s₁,h₁,h⟩ := bind_eq_ok h
    obtain ⟨-,rfl⟩ := (preemptDisable_spec hlt).of_ok h₁
    obtain ⟨s₂,h₂,h⟩ := bind_eq_ok h
    have hrun' : ((threadSetLevel s (s.self.preemptLevel + 1)).thread t).state = .running := by
      rw [setLevel_thread]
      exact hrun
    have h₂' : s₂ = { threadSetLevel s (s.self.preemptLevel + 1) with intr := false } := by
      simp only [threadWakeupLocked,threadIsRunning,hrun',decide_true,if_true] at h₂
      cases h₂
      rfl
    subst h₂'
    obtain ⟨s₃,h₃,h⟩ := bind_eq_ok h
    obtain ⟨-,rfl⟩ := (preemptEnableNoYield_spec _).of_ok h₃
    change (if (threadSetLevel (threadSetLevel s (s.self.preemptLevel + 1))
      ((threadSetLevel s (s.self.preemptLevel + 1)).self.preemptLevel - 1)).self.yield && _ then _ else
      pure (threadSetLevel (threadSetLevel s (s.self.preemptLevel + 1))
        ((threadSetLevel s (s.self.preemptLevel + 1)).self.preemptLevel - 1))) = _ at h
    rw [setLevel_restores] at h
    split at h
    · cases h
    · cases h
      rfl

end X1.Create
