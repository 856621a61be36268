import X1.Sched.Queue

/-! # What holds in every state of the scheduler

`Core` is kept by every function, also in the middle of `thread_sleep` and
`thread_exit`, where the current thread is no longer runnable. `Sound` holds between
any two instructions. The specifications of the functions that touch the run queue
come first, then one lemma for the execution of an instruction and one for an interrupt.
-/
namespace X1.Sched
open X1.Lib X1.Ring X1.Checked

/-- The instructions the idle thread can come to: its own prologue, and the end of an interrupt. -/
def Instr.Halting : Instr → Prop
  | .preemptDisable | .preemptEnableNoYield | .yieldIfNeeded | .yieldTest | .yieldSwitch => True
  | .mainTest | .intrSave | .intrRestore | .intrEnable | .iret => True
  | .call .preemptEnable | .call .yield => True
  | _ => False

/-- The thread an instruction is about to wake. -/
def Instr.wakes : Instr → Option Tid
  | .wakeupTest t | .wakeupLocked t | .call (.wakeup t) => t
  | _ => none

/-- What an instruction left on the stack of `t` may be. -/
def Instr.Allowed (s : State) (t : Tid) (i : Instr) : Prop :=
  (t = s.idle → i.Halting) ∧ ∀ u ∈ i.wakes, u ∈ s.created

/-- A thread more urgent than the current one waits to run. -/
def HigherWaiting (s : State) : Prop :=
  ∃ t ∈ s.created, t ≠ s.idle ∧ t ≠ s.current ∧ (s.thread t).state = .running ∧
    s.self.priority < (s.thread t).priority

structure Core (s : State) : Prop where
  queued : ∃ queue, Queued s (some s.current) queue
  current_mem : s.current ∈ s.created
  level_lt : ∀ t, (s.thread t).preemptLevel < 2 ^ 32
  next_fresh : ∀ t ∈ s.created, t < s.next
  joiner_mem : ∀ t, ∀ u ∈ (s.thread t).joiner, u ∈ s.created
  code : ∀ t, ∀ f ∈ s.stack t, ∀ i ∈ f.code, i.Allowed s t

structure Sound (s : State) : Prop extends Core s where
  running : s.self.state = .running
  waiting : HigherWaiting s → s.self.yield = true

/-- What holds right after a dispatch. -/
structure Dispatched (s : State) : Prop where
  none_higher : ¬HigherWaiting s
  idle_iff : s.current = s.idle ↔ ∀ t ∈ s.created, t ≠ s.idle → (s.thread t).state ≠ .running

/-- Nothing the run queue depends on has changed. -/
structure Quiet (s s' : State) : Prop where
  links : s'.links = s.links
  nrThreads : s'.nrThreads = s.nrThreads
  created : s'.created = s.created
  next : s'.next = s.next
  idle : s'.idle = s.idle
  current : s'.current = s.current
  state : ∀ t, (s'.thread t).state = (s.thread t).state
  priority : ∀ t, (s'.thread t).priority = (s.thread t).priority

theorem Quiet.higherWaiting {s s' : State} (h : Quiet s s') : HigherWaiting s' ↔ HigherWaiting s := by
  simp only [HigherWaiting,State.self,h.created,h.idle,h.current,h.state,h.priority]

theorem Quiet.allowed {s s' : State} (h : Quiet s s') {t : Tid} {i : Instr} :
    i.Allowed s' t ↔ i.Allowed s t := by
  simp only [Instr.Allowed,h.idle,h.created]

/-- Threads are only added, at the tails of the lists. -/
structure Grows (s s' : State) : Prop where
  idle : s'.idle = s.idle
  created : ∀ t ∈ s.created, t ∈ s'.created
  priority : ∀ t ∈ s.created, (s'.thread t).priority = (s.thread t).priority
  queue : ∀ queue, Queued s (some s.current) queue →
    ∃ queue', Queued s' (some s'.current) queue' ∧ ∀ p, queue p <+: queue' p

theorem Grows.trans {s s' s'' : State} (h : Grows s s') (h' : Grows s' s'') : Grows s s'' := by
  refine ⟨h'.idle.trans h.idle,fun t ht => h'.created t (h.created t ht),
    fun t ht => (h'.priority t (h.created t ht)).trans (h.priority t ht),fun queue hq => ?_⟩
  obtain ⟨queue',hq',hpre⟩ := h.queue queue hq
  obtain ⟨queue'',hq'',hpre'⟩ := h'.queue queue' hq'
  exact ⟨queue'',hq'',fun p => (hpre p).trans (hpre' p)⟩

theorem Quiet.grows {s s' : State} (h : Quiet s s') : Grows s s' := by
  refine ⟨h.idle,fun t ht => h.created ▸ ht,fun t _ => h.priority t,
    fun queue hq => ⟨queue,?_,fun p => List.prefix_rfl⟩⟩
  rw [h.current]
  exact hq.congr h.links h.nrThreads h.created h.idle h.state h.priority

namespace Core
variable {s s' : State}

theorem quiet (h : Core s) (hq : Quiet s s') (hlevel : ∀ t, (s'.thread t).preemptLevel < 2 ^ 32)
    (hjoin : ∀ t, ∀ u ∈ (s'.thread t).joiner, u ∈ s.created)
    (hcode : ∀ t, ∀ f ∈ s'.stack t, ∀ i ∈ f.code, i.Allowed s t) : Core s' := by
  obtain ⟨queue,hqueue⟩ := h.queued
  refine ⟨⟨queue,?_⟩,?_,hlevel,?_,fun t u hu => ?_,fun t f hf i hi => hq.allowed.mpr (hcode t f hf i hi)⟩
  · rw [hq.current]
    exact hqueue.congr hq.links hq.nrThreads hq.created hq.idle hq.state hq.priority
  · rw [hq.current,hq.created]
    exact h.current_mem
  · rw [hq.created,hq.next]
    exact h.next_fresh
  · rw [hq.created]
    exact hjoin t u hu

theorem idle_mem (h : Core s) : s.idle ∈ s.created := by
  obtain ⟨queue,hq⟩ := h.queued
  exact hq.idle_mem

theorem idle_running (h : Core s) : (s.thread s.idle).state = .running := by
  obtain ⟨queue,hq⟩ := h.queued
  exact hq.idle_running

end Core

/-! ## Changes of one thread -/

theorem modify_thread (s : State) (t u : Tid) (f : Thread → Thread) :
    (s.modify t f).thread u = if u = t then f (s.thread t) else s.thread u := by
  simp [State.modify,Function.update_apply]

theorem modify_member {s : State} {α : Type} (member : Thread → α) (t u : Tid) {f : Thread → Thread}
    (h : ∀ th, member (f th) = member th) : member ((s.modify t f).thread u) = member (s.thread u) := by
  rw [modify_thread]
  split
  · next hu => rw [h,hu]
  · rfl

theorem quiet_modify (s : State) (t : Tid) {f : Thread → Thread} (hstate : ∀ th, (f th).state = th.state)
    (hprio : ∀ th, (f th).priority = th.priority) : Quiet s (s.modify t f) := by
  refine ⟨rfl,rfl,rfl,rfl,rfl,rfl,fun u => ?_,fun u => ?_⟩
  · exact modify_member Thread.state t u hstate
  · exact modify_member Thread.priority t u hprio

theorem quiet_setStack (s : State) (fs : List Frame) : Quiet s (s.setStack fs) :=
  ⟨rfl,rfl,rfl,rfl,rfl,rfl,fun _ => rfl,fun _ => rfl⟩

theorem quiet_intr (s : State) (b : Bool) : Quiet s { s with intr := b } :=
  ⟨rfl,rfl,rfl,rfl,rfl,rfl,fun _ => rfl,fun _ => rfl⟩

namespace Core
variable {s : State}

theorem setIntr (h : Core s) (b : Bool) : Core { s with intr := b } :=
  h.quiet (quiet_intr s b) h.level_lt h.joiner_mem h.code

theorem modify (h : Core s) (t : Tid) {f : Thread → Thread} (hstate : ∀ th, (f th).state = th.state)
    (hprio : ∀ th, (f th).priority = th.priority) (hlevel : (f (s.thread t)).preemptLevel < 2 ^ 32)
    (hjoin : ∀ u ∈ (f (s.thread t)).joiner, u ∈ s.created) : Core (s.modify t f) := by
  refine h.quiet (quiet_modify s t hstate hprio) (fun u => ?_) (fun u v hv => ?_) h.code
  · rw [modify_thread]
    split
    · exact hlevel
    · exact h.level_lt u
  · rw [modify_thread] at hv
    split at hv
    · exact hjoin v hv
    · exact h.joiner_mem u v hv

theorem setLevel (h : Core s) {level : ℕ} (hl : level < 2 ^ 32) : Core (threadSetLevel s level) :=
  h.modify s.current (fun _ => rfl) (fun _ => rfl) hl (h.joiner_mem s.current)

end Core

namespace Sound
variable {s s' : State}

theorem quiet (h : Sound s) (hq : Quiet s s') (hlevel : ∀ t, (s'.thread t).preemptLevel < 2 ^ 32)
    (hjoin : ∀ t, ∀ u ∈ (s'.thread t).joiner, u ∈ s.created)
    (hcode : ∀ t, ∀ f ∈ s'.stack t, ∀ i ∈ f.code, i.Allowed s t)
    (hyield : (s.thread s.current).yield = true → (s'.thread s.current).yield = true) : Sound s' := by
  refine ⟨h.toCore.quiet hq hlevel hjoin hcode,?_,fun hw => ?_⟩
  · rw [State.self,hq.current,hq.state]
    exact h.running
  · rw [State.self,hq.current]
    exact hyield (h.waiting (hq.higherWaiting.mp hw))

theorem setIntr (h : Sound s) (b : Bool) : Sound { s with intr := b } :=
  h.quiet (quiet_intr s b) h.level_lt h.joiner_mem h.code id

theorem setStack (h : Sound s) {fs : List Frame}
    (hcode : ∀ f ∈ fs, ∀ i ∈ f.code, i.Allowed s s.current) : Sound (s.setStack fs) := by
  refine h.quiet (quiet_setStack s fs) h.level_lt h.joiner_mem (fun t f hf i hi => ?_) id
  by_cases ht : t = s.current
  · subst ht
    exact hcode f (by simpa [State.setStack] using hf) i hi
  · exact h.code t f (by simpa [State.setStack,ht] using hf) i hi

/-- Changes of the running frame that take no instruction in. -/
theorem top (h : Sound s) {g : Frame → Frame}
    (hcode : ∀ f ∈ s.stack s.current, ∀ i ∈ (g f).code, i.Allowed s s.current) : Sound (s.top g) := by
  unfold State.top
  cases hs : s.stack s.current with
  | nil => exact h
  | cons f fs =>
    refine h.setStack fun f' hf' i hi => ?_
    rcases List.mem_cons.mp hf' with rfl | hf'
    · exact hcode f (by simp [hs]) i hi
    · exact h.code s.current f' (by simp [hs,hf']) i hi

theorem allowed_code {t : Tid} {fn : Fn} (h : (Instr.call fn).Allowed s t) :
    ∀ i ∈ fn.code, i.Allowed s t := by
  cases fn <;> simp_all [Fn.code,Instr.Allowed,Instr.Halting,Instr.wakes]

theorem push (h : Sound s) {fn : Fn} (hcall : (Instr.call fn).Allowed s s.current) :
    Sound (s.push fn) := by
  refine h.setStack fun f hf i hi => ?_
  rcases List.mem_cons.mp hf with rfl | hf
  · exact allowed_code hcall i hi
  · exact h.code s.current f hf i hi

theorem modify (h : Sound s) (t : Tid) {f : Thread → Thread} (hstate : ∀ th, (f th).state = th.state)
    (hprio : ∀ th, (f th).priority = th.priority) (hlevel : (f (s.thread t)).preemptLevel < 2 ^ 32)
    (hjoin : ∀ u ∈ (f (s.thread t)).joiner, u ∈ s.created)
    (hyield : (s.thread t).yield = true → (f (s.thread t)).yield = true) : Sound (s.modify t f) := by
  have hcore := h.toCore.modify t hstate hprio hlevel hjoin
  refine h.quiet (quiet_modify s t hstate hprio) hcore.level_lt hcore.joiner_mem h.code ?_
  rw [modify_thread]
  split
  · next hc => rw [hc]; exact hyield
  · exact id

theorem setLevel (h : Sound s) {level : ℕ} (hl : level < 2 ^ 32) : Sound (threadSetLevel s level) :=
  h.modify s.current (fun _ => rfl) (fun _ => rfl) hl (h.joiner_mem s.current) id

theorem setYield (h : Sound s) (t : Tid) : Sound (threadSetYield s t) :=
  h.modify t (fun _ => rfl) (fun _ => rfl) (h.level_lt t) (h.joiner_mem t) fun _ => rfl

theorem setJoiner (h : Sound s) (t : Tid) :
    Sound (s.modify t fun th => { th with joiner := some s.current }) := by
  refine h.modify t (fun _ => rfl) (fun _ => rfl) (h.level_lt t) (fun u hu => ?_) id
  obtain rfl : s.current = u := by simpa using hu
  exact h.current_mem

end Sound

/-! ## The functions that change the run queue -/

theorem Queued.dispatched {s : State} {queue queue₀ : Queues} (h : Queued s (some s.current) queue)
    (hpick : Picks queue₀ s.idle s.current queue)
    (hmem : ∀ p t, t ∈ queue₀ p → Ready s p t) :
    s.current ∈ s.created ∧ s.self.state = .running ∧ Dispatched s := by
  obtain ⟨hcur,hrun,hmax,hidle⟩ := h.picked hpick hmem
  refine ⟨hcur,hrun,?_,fun he t htc hti htrun => ?_,fun hall => ?_⟩
  · rintro ⟨t,htc,hti,htcur,htrun,hlt⟩
    have := hmax _ t ((h.mem_iff _ t).mpr ⟨htc,hti,htrun,by simpa using htcur,rfl⟩)
    omega
  · have hmem : t ∈ queue (s.thread t).priority :=
      (h.mem_iff _ t).mpr ⟨htc,hti,htrun,by simpa [he] using hti,rfl⟩
    simp [hidle he] at hmem
  · by_contra hne
    exact hall s.current hcur hne hrun

theorem Queued.unique {s : State} {out : Option Tid} {queue queue' : Queues} (h : Queued s out queue)
    (h' : Queued s out queue') : queue = queue' := by
  funext p
  by_cases hp : p < THREAD_NR_PRIORITIES
  · exact List.map_injective_iff.mpr (fun a b hab => by simpa using hab)
      (IsRing.unique (h.rings p hp) (h'.rings p hp))
  · have hempty : ∀ {queue : Queues}, Queued s out queue → queue p = [] := fun hq =>
      List.eq_nil_iff_forall_not_mem.mpr fun t ht => hp (hq.lt_of_mem ht)
    rw [hempty h,hempty h']

theorem Queued.prefix_candidates (s : State) (queue : Queues) (p : ℕ) :
    queue p <+: Queued.candidates s queue p := by
  unfold Queued.candidates
  split
  · exact List.prefix_rfl
  · by_cases hp : p = s.self.priority
    · subst hp
      simp
    · simp [hp]

theorem Core.schedule {s : State} (h : Core s) :
    Checks (threadRunqSchedule s) fun s' => Sound s' ∧ Dispatched s' ∧ SameThreads s s' ∧
    threadSchedulerLocked s = true ∧ s.self.preemptLevel = 1 ∧
    ∀ queue, Queued s (some s.current) queue →
    (∀ p t, t ∈ Queued.candidates s queue p ↔ Ready s' p t) ∧
    ∃ queue', Queued s' (some s'.current) queue' ∧
    Picks (Queued.candidates s queue) s.idle s'.current queue' := by
  obtain ⟨queue,hq⟩ := h.queued
  refine (hq.schedule h.current_mem).mono fun s' hs' => ?_
  obtain ⟨hsame,hlock,hlevel,hready,queue',hq',hpick⟩ := hs'
  have hpicks : ∀ queue, Queued s (some s.current) queue →
      (∀ p t, t ∈ Queued.candidates s queue p ↔ Ready s' p t) ∧
        ∃ queue', Queued s' (some s'.current) queue' ∧
        Picks (Queued.candidates s queue) s.idle s'.current queue' := by
    intro queue₁ hq₁
    obtain rfl := hq.unique hq₁
    exact ⟨hready,queue',hq',hpick⟩
  obtain ⟨hcur,hrun,hdisp⟩ := hq'.dispatched (hsame.idle ▸ hpick) fun p t => (hready p t).mp
  refine ⟨⟨⟨⟨queue',hq'⟩,hcur,?_,?_,?_,?_⟩,hrun,fun hw => absurd hw hdisp.none_higher⟩,hdisp,hsame,
    hlock,hlevel,hpicks⟩
  · rw [hsame.thread]
    exact h.level_lt
  · rw [hsame.created,hsame.next]
    exact h.next_fresh
  · rw [hsame.thread,hsame.created]
    exact h.joiner_mem
  · intro t f hf i hi
    rw [hsame.stack] at hf
    have := h.code t f hf i hi
    simpa only [Instr.Allowed,hsame.idle,hsame.created] using this

/-- Everything but the run queue, the state of threads of `W` that were asleep, and the yield flags is
kept. -/
structure Wakes (s s' : State) (W : Tid → Prop) : Prop where
  current : s'.current = s.current
  idle : s'.idle = s.idle
  created : s'.created = s.created
  intr : s'.intr = s.intr
  stack : s'.stack = s.stack
  level : ∀ u, (s'.thread u).preemptLevel = (s.thread u).preemptLevel
  priority : ∀ u, (s'.thread u).priority = (s.thread u).priority
  joiner : ∀ u, (s'.thread u).joiner = (s.thread u).joiner
  yield : ∀ u, (s.thread u).yield = true → (s'.thread u).yield = true
  state : ∀ u, ¬W u ∨ (s.thread u).state = .running → (s'.thread u).state = (s.thread u).state
  rouses : ∀ u, (s'.thread u).state = (s.thread u).state ∨
    (s.thread u).state = .sleeping ∧ (s'.thread u).state = .running
  waiting : HigherWaiting s' → HigherWaiting s ∨ s'.self.yield = true
  grows : Grows s s'

theorem quiet_refl (s : State) : Quiet s s := ⟨rfl,rfl,rfl,rfl,rfl,rfl,fun _ => rfl,fun _ => rfl⟩

theorem Wakes.refl (s : State) (W : Tid → Prop) : Wakes s s W :=
  ⟨rfl,rfl,rfl,rfl,rfl,fun _ => rfl,fun _ => rfl,fun _ => rfl,fun _ => id,fun _ _ => rfl,
    fun _ => .inl rfl,Or.inl,(quiet_refl s).grows⟩

theorem Wakes.dead {s s' : State} {W : Tid → Prop} (h : Wakes s s' W) (u : Tid)
    (hu : (s.thread u).state = .dead) : (s'.thread u).state = .dead := by
  rcases h.rouses u with he | ⟨he,-⟩
  · exact he.trans hu
  · exact absurd (hu.symm.trans he) (by simp)

theorem Wakes.mono {s s' : State} {V W : Tid → Prop} (h : Wakes s s' V) (hVW : ∀ u, V u → W u) :
    Wakes s s' W :=
  { h with state := fun u hu => h.state u (hu.imp_left fun hn hv => hn (hVW u hv)) }

theorem Wakes.trans {s s' s'' : State} {W : Tid → Prop} (h : Wakes s s' W) (h' : Wakes s' s'' W) :
    Wakes s s'' W := by
  refine ⟨h'.current.trans h.current,h'.idle.trans h.idle,h'.created.trans h.created,
    h'.intr.trans h.intr,
    h'.stack.trans h.stack,fun u => (h'.level u).trans (h.level u),
      fun u => (h'.priority u).trans (h.priority u),
    fun u => (h'.joiner u).trans (h.joiner u),fun u hu => h'.yield u (h.yield u hu),fun u hu => ?_,
    fun u => ?_,fun hw => ?_,h.grows.trans h'.grows⟩
  · have hs := h.state u hu
    refine (h'.state u ?_).trans hs
    rcases hu with hu | hu
    · exact .inl hu
    · exact .inr (hs.trans hu)
  · rcases h.rouses u with hu | ⟨hu,hu'⟩
    · rw [← hu]
      exact h'.rouses u
    · rcases h'.rouses u with hr | ⟨hr,-⟩
      · exact .inr ⟨hu,hr.trans hu'⟩
      · exact absurd (hu'.symm.trans hr) (by simp)
  · rcases h'.waiting hw with hw | hw
    · rcases h.waiting hw with hw | hw
      · exact .inl hw
      · right
        have := h'.yield s'.current hw
        rwa [State.self,h'.current]
    · exact .inr hw

theorem Wakes.allowed {s s' : State} {W : Tid → Prop} (h : Wakes s s' W) {u : Tid} {i : Instr} :
    i.Allowed s' u ↔ i.Allowed s u := by
  simp only [Instr.Allowed,h.idle,h.created]

/-- The state in which a sleeping thread has been made runnable and linked. -/
def woken (s : State) (t : Tid) : State :=
  let s₁ := enqueued (threadSetState s t .running) t
  if (s.thread t).priority > s.self.priority then threadSetYield s₁ s.current else s₁

theorem setState_thread (s : State) (t u : Tid) (state : ThreadState) :
    (threadSetState s t state).thread u =
    { s.thread u with state := if u = t then state else (s.thread u).state } := by
  rw [threadSetState,modify_thread]
  split
  · next h => subst h; rfl
  · rfl

theorem woken_thread (s : State) (t u : Tid) :
    (woken s t).thread u = { s.thread u with
      state := if u = t then .running else (s.thread u).state
      yield := (s.thread u).yield ||
        (decide (u = s.current) && decide ((s.thread t).priority > s.self.priority)) } := by
  unfold woken
  split
  · next h =>
    simp only [threadSetYield]
    rw [modify_thread]
    by_cases hu : u = s.current
    · subst hu
      simp [enqueued,setState_thread,h]
    · simp [enqueued,setState_thread,hu]
  · next h => simp [enqueued,setState_thread,h]

theorem woken_fields (s : State) (t : Tid) :
    (woken s t).current = s.current ∧ (woken s t).idle = s.idle ∧ (woken s t).created = s.created ∧
    (woken s t).next = s.next ∧ (woken s t).intr = s.intr ∧ (woken s t).stack = s.stack := by
  unfold woken
  split <;> exact ⟨rfl,rfl,rfl,rfl,rfl,rfl⟩

theorem Queued.woken {s : State} {t : Tid} {queue : Queues} (hq : Queued s (some s.current) queue)
    (ht : t ∈ s.created) (hst : (s.thread t).state ≠ .running) (hcur : t ≠ s.current)
    (hlim : s.nrThreads + 1 < 2 ^ 32) :
    Queued (woken s t) (some (woken s t).current)
      (Function.update queue (s.thread t).priority (queue (s.thread t).priority ++ [t])) := by
  have hti : t ≠ s.idle := by
    rintro rfl
    exact hst hq.idle_running
  have hprio : ((threadSetState s t .running).thread t).priority = (s.thread t).priority := by
    rw [setState_thread]
  have hlink := hq.link (threadSetState s t .running) t rfl rfl rfl ht hti
    (by simp [setState_thread]) (by simpa using hcur)
      (by simpa [setState_thread] using hq.priority_lt t ht)
    hq.nodup hlim (fun q hm => hst ((hq.mem_iff q t).mp hm).2.2.1)
    (fun u hu => ⟨Iff.rfl,by simp [setState_thread,hu],by simp [setState_thread]⟩) ?_
  · rw [(woken_fields s t).1]
    rw [hprio] at hlink
    refine hlink.congr ?_ ?_ ?_ ?_ (fun u => ?_) fun u => ?_
    · unfold Sched.woken
      split <;> rfl
    · unfold Sched.woken
      split <;> rfl
    · exact (woken_fields s t).2.2.1
    · exact (woken_fields s t).2.1
    · simp [woken_thread,enqueued,setState_thread]
    · simp [woken_thread,enqueued,setState_thread]
  · refine length_filter_add hq.nodup ht ?_ ?_ fun u _ hu => ?_
    · simp [Counted,hst,hcur]
    · exact ⟨hti,.inl (by simp [setState_thread])⟩
    · simp only [Counted,setState_thread,hu,↓reduceIte]
      rfl

theorem prefix_update_append (queue : Queues) (q : ℕ) (t : Tid) (p : ℕ) :
    queue p <+: Function.update queue q (queue q ++ [t]) p := by
  by_cases hp : p = q
  · subst hp
    simp
  · simp [hp]

theorem wakes_woken {s : State} {t : Tid} (ht : (s.thread t).state ≠ .running)
    (hd : (s.thread t).state ≠ .dead) (hc : t ∈ s.created) (htcur : t ≠ s.current)
    (hlim : s.nrThreads + 1 < 2 ^ 32) : Wakes s (woken s t) (· = t) := by
  obtain ⟨hcur,hidle,hcre,-,hintr,hstack⟩ := woken_fields s t
  refine ⟨hcur,hidle,hcre,hintr,hstack,fun u => by rw [woken_thread],fun u => by rw [woken_thread],
    fun u => by rw [woken_thread],fun u hu => by
      rw [woken_thread]; simp [hu],fun u hu => ?_,fun u => ?_,fun hw => ?_,
    hidle,fun u hu => hcre ▸ hu,fun u _ => by rw [woken_thread],fun queue hq => ?_⟩
  · rw [woken_thread]
    have : u ≠ t := by
      rintro rfl
      simp_all
    simp [this]
  · rw [woken_thread]
    by_cases hut : u = t
    · subst hut
      refine .inr ⟨?_,by simp⟩
      cases hst : (s.thread u).state with
      | running => exact absurd hst ht
      | sleeping => rfl
      | dead => exact absurd hst hd
    · simp [hut]
  · obtain ⟨u,huc,hui,hucur,hurun,hlt⟩ := hw
    simp only [State.self,hcur,hidle,hcre,woken_thread] at huc hui hucur hurun hlt ⊢
    by_cases hut : u = t
    · subst hut
      right
      simp [hlt]
    · left
      simp only [hut,↓reduceIte] at hurun
      exact ⟨u,huc,hui,hucur,hurun,hlt⟩
  · exact ⟨_,hq.woken hc ht htcur hlim,prefix_update_append queue _ t⟩

namespace Core
variable {s : State}

theorem of_wakes {s' : State} {W : Tid → Prop} (h : Core s) (hw : Wakes s s' W)
    (hnext : s'.next = s.next) (hq : ∃ queue, Queued s' (some s'.current) queue) : Core s' := by
  refine ⟨hq,?_,fun v => ?_,?_,fun v w hv => ?_,fun v f hf i hi => ?_⟩
  · rw [hw.current,hw.created]
    exact h.current_mem
  · rw [hw.level]
    exact h.level_lt v
  · rw [hw.created,hnext]
    exact h.next_fresh
  · rw [hw.joiner] at hv
    rw [hw.created]
    exact h.joiner_mem v w hv
  · rw [hw.stack] at hf
    exact hw.allowed.mpr (h.code v f hf i hi)

end Core

/-- `thread_wakeup` with the scheduler locked. -/
theorem Core.wakeupLocked {s : State} {t : Option Tid} (h : Core s) (ht : ∀ u ∈ t, u ∈ s.created)
    (hcur : t ≠ some s.current ∨ s.self.state = .running) :
    Checks (threadWakeupLocked s t) fun s' => Core s' ∧ Wakes s s' (some · = t) ∧
      ∀ u ∈ t, (s'.thread u).state = .running := by
  cases t with
  | none => exact ⟨h,Wakes.refl s _,by simp⟩
  | some u =>
    unfold threadWakeupLocked
    by_cases hrun : (s.thread u).state = .running
    · simp only [threadIsRunning,hrun,decide_true,↓reduceIte]
      exact ⟨h,Wakes.refl s _,by simpa using hrun⟩
    · have huc : u ≠ s.current := by
        rintro rfl
        rcases hcur with hcur | hcur
        · exact hcur rfl
        · exact hrun hcur
      obtain ⟨queue,hq⟩ := h.queued
      simp only [threadIsRunning,hrun,decide_false,Bool.false_eq_true,↓reduceIte]
      refine checks_assert fun hd => ?_
      have hd : (s.thread u).state ≠ .dead := by simpa [threadIsDead] using hd
      refine (threadRunqAdd_spec (s := threadSetState s u .running) hq.nr_lt).mono fun s' hs' => ?_
      obtain ⟨-,-,hlim,rfl⟩ := hs'
      have heq : (if ((threadSetState s u .running).thread u).priority >
          (threadSetState s u .running).self.priority
          then threadSetYield (enqueued (threadSetState s u .running) u)
            (threadSetState s u .running).current
          else enqueued (threadSetState s u .running) u) = woken s u := by
        simp only [State.self,setState_thread]
        rfl
      rw [heq]
      have hw := wakes_woken hrun hd (ht u rfl) huc hlim
      exact ⟨h.of_wakes hw (woken_fields s u).2.2.2.1 ⟨_,hq.woken (ht u rfl) hrun huc hlim⟩,
        hw.mono fun v hv => by simp [hv],by simp [woken_thread]⟩

/-! ## Interrupts off, preemption disabled -/

theorem preemptDisable_spec {s : State} (hlt : s.self.preemptLevel < 2 ^ 32) :
    Checks (threadPreemptDisable s) fun s' => s.self.preemptLevel + 1 < 2 ^ 32 ∧
      s' = threadSetLevel s (s.self.preemptLevel + 1) := by
  unfold threadPreemptDisable
  refine checks_assert fun hne => ?_
  have hl : s.self.preemptLevel + 1 < 2 ^ 32 := by
    simp only [ne_eq,decide_not,Bool.not_eq_eq_eq_not,Bool.not_true,decide_eq_false_iff_not] at hne
    omega
  rw [Nat.mod_eq_of_lt hl]
  exact ⟨hl,rfl⟩

theorem preemptEnableNoYield_spec (s : State) : Checks (threadPreemptEnableNoYield s) fun s' =>
    s.self.preemptLevel ≠ 0 ∧ s' = threadSetLevel s (s.self.preemptLevel - 1) := by
  unfold threadPreemptEnableNoYield
  exact checks_assert fun hne => ⟨by simpa using hne,rfl⟩

theorem setLevel_thread (s : State) (level : ℕ) (t : Tid) : (threadSetLevel s level).thread t =
    { s.thread t with preemptLevel := if t = s.current then level else (s.thread t).preemptLevel } := by
  rw [threadSetLevel,modify_thread]
  split
  · next h => rw [h]
  · rfl

theorem setLevel_self (s : State) (level : ℕ) :
    (threadSetLevel s level).self = { s.self with preemptLevel := level } := by
  change (threadSetLevel s level).thread s.current = _
  simp [setLevel_thread,State.self]

/-- A change around a wake-up that touches only the preemption level and the interrupt flag. -/
theorem Wakes.surround {s s₂ s₃ : State} (s₁ : State) {W : Tid → Prop} (hq : Quiet s s₁)
    (hst : s₁.stack = s.stack)
    (hth : ∀ u, (s₁.thread u).yield = (s.thread u).yield ∧
      (s₁.thread u).joiner = (s.thread u).joiner) (h : Wakes s₁ s₂ W) (hq' : Quiet s₂ s₃)
    (hst' : s₃.stack = s₂.stack)
    (hth' : ∀ u, (s₃.thread u).yield = (s₂.thread u).yield ∧
      (s₃.thread u).joiner = (s₂.thread u).joiner) (hintr : s₃.intr = s.intr)
    (hlevel : ∀ u, (s₃.thread u).preemptLevel = (s.thread u).preemptLevel) : Wakes s s₃ W := by
  refine ⟨?_,?_,?_,hintr,?_,hlevel,fun u => ?_,fun u => ?_,fun u hu => ?_,fun u hu => ?_,
    fun u => ?_,fun hw => ?_,hq.grows.trans (h.grows.trans hq'.grows)⟩
  · rw [hq'.current,h.current,hq.current]
  · rw [hq'.idle,h.idle,hq.idle]
  · rw [hq'.created,h.created,hq.created]
  · rw [hst',h.stack,hst]
  · rw [hq'.priority,h.priority,hq.priority]
  · rw [(hth' u).2,h.joiner,(hth u).2]
  · rw [(hth' u).1]
    exact h.yield u ((hth u).1.trans hu)
  · rw [hq'.state,h.state u (by rwa [hq.state]),hq.state]
  · rw [hq'.state,← hq.state]
    exact h.rouses u
  · rcases h.waiting (hq'.higherWaiting.mp hw) with hw | hw
    · exact .inl (hq.higherWaiting.mp hw)
    · right
      rwa [State.self,hq'.current,(hth' _).1]

/-- The current thread stops being runnable, which the run queue does not see before the dispatch. -/
theorem Queued.block {s : State} {queue : Queues} (hq : Queued s (some s.current) queue)
    (hidle : s.current ≠ s.idle) (state : ThreadState) :
    Queued (threadSetState s s.current state) (some s.current) queue := by
  refine ⟨hq.rings,fun p t => ?_,?_,hq.nr_lt,hq.nodup,fun t ht => ?_,hq.idle_mem,?_⟩
  · rw [hq.mem_iff]
    by_cases ht : t = s.current
    · subst ht
      simp [threadSetState,State.modify]
    · simp only [setState_thread,ht,↓reduceIte]
      rfl
  · change s.nrThreads = _
    rw [hq.nr_eq]
    congr 1
    refine List.filter_congr fun t _ => decide_eq_decide.mpr ?_
    simp only [Counted,setState_thread]
    by_cases ht : t = s.current
    · subst ht
      simp [threadSetState,State.modify]
    · simp only [ht,↓reduceIte]
      rfl
  · rw [setState_thread]
    exact hq.priority_lt t ht
  · change ((threadSetState s s.current state).thread s.idle).state = .running
    rw [setState_thread]
    simpa [Ne.symm hidle] using hq.idle_running

theorem Core.block {s : State} (h : Core s) (hidle : s.current ≠ s.idle) (state : ThreadState) :
    Core (threadSetState s s.current state) := by
  obtain ⟨queue,hq⟩ := h.queued
  refine ⟨⟨queue,hq.block hidle state⟩,h.current_mem,fun t => ?_,h.next_fresh,fun t u hu => ?_,h.code⟩
  · rw [setState_thread]
    exact h.level_lt t
  · rw [setState_thread] at hu
    exact h.joiner_mem t u hu

theorem grows_block {s : State} (hidle : s.current ≠ s.idle) (state : ThreadState) :
    Grows s (threadSetState s s.current state) := by
  refine ⟨rfl,fun t ht => ht,fun t _ => ?_,fun queue hq => ⟨queue,hq.block hidle state,
    fun p => List.prefix_rfl⟩⟩
  rw [setState_thread]

/-- `thread_wakeup` from an interrupt handler or from `thread_exit`. -/
theorem Core.wakeup {s : State} {t : Option Tid} (h : Core s) (ht : ∀ u ∈ t, u ∈ s.created)
    (hlevel : s.self.preemptLevel ≠ 0) :
    Checks (threadWakeup s t) fun s' => Core s' ∧ Wakes s s' (some · = t) ∧
      ∀ u ∈ t, u ≠ s.current → (s'.thread u).state = .running := by
  unfold threadWakeup
  by_cases hcur : t = none ∨ t = some s.current
  · rw [if_pos hcur]
    refine ⟨h,Wakes.refl s _,fun u hu hne => ?_⟩
    rcases hcur with rfl | rfl
    · cases hu
    · exact absurd (Option.some.inj hu).symm hne
  rw [if_neg hcur]
  rw [not_or] at hcur
  refine Safe.bind (preemptDisable_spec (h.level_lt _)) ?_
  rintro _ ⟨hl,rfl⟩
  have hcore : Core { threadSetLevel s (s.self.preemptLevel + 1) with intr := false } :=
    (h.setLevel hl).setIntr false
  refine Safe.bind (hcore.wakeupLocked ht (.inl hcur.2)) ?_
  rintro s₂ ⟨hcore₂,hw,hawake⟩
  have hself : s₂.self.preemptLevel = s.self.preemptLevel + 1 := by
    rw [State.self,hw.level,hw.current]
    change (threadSetLevel s (s.self.preemptLevel + 1)).self.preemptLevel = _
    rw [setLevel_self]
  unfold threadPreemptEnableLocked
  refine Safe.bind (preemptEnableNoYield_spec _) ?_
  rintro _ ⟨-,rfl⟩
  have hself' : ({ s₂ with intr := (threadSetLevel s (s.self.preemptLevel + 1)).intr } :
      State).self.preemptLevel - 1 =
      s.self.preemptLevel := by
    change s₂.self.preemptLevel - 1 = _
    omega
  rw [hself']
  have hlev : threadPreemptEnabled (threadSetLevel
      { s₂ with intr := (threadSetLevel s (s.self.preemptLevel + 1)).intr }
        s.self.preemptLevel) = false := by
    rw [threadPreemptEnabled,setLevel_self]
    simpa using hlevel
  simp only [hlev,Bool.and_false,Bool.false_eq_true,↓reduceIte]
  refine ⟨(hcore₂.setIntr _).setLevel (h.level_lt s.current),?_,
    fun u hu _ => by simpa [setLevel_thread] using hawake u hu⟩
  refine Wakes.surround { threadSetLevel s (s.self.preemptLevel + 1) with intr := false } ?_ rfl ?_ hw
    ?_ rfl ?_ rfl ?_
  · exact ⟨rfl,rfl,rfl,rfl,rfl,rfl,fun u => by simp [setLevel_thread],fun u => by simp [setLevel_thread]⟩
  · exact fun u => by simp [setLevel_thread]
  · exact ⟨rfl,rfl,rfl,rfl,rfl,rfl,fun u => by simp [setLevel_thread],fun u => by simp [setLevel_thread]⟩
  · exact fun u => by simp [setLevel_thread]
  · intro u
    have hu := hw.level u
    rw [setLevel_thread]
    simp only [hw.current]
    split
    · next hc => subst hc; rfl
    · next hc =>
      rw [hu,setLevel_thread]
      exact if_neg hc

/-! ## Creation -/

/-- The state in which the next thread exists and is linked. -/
def born (s : State) (priority : ℕ) : State :=
  if priority > s.self.priority then threadSetYield (enqueued (s.alloc priority) s.next) s.current
  else enqueued (s.alloc priority) s.next

theorem born_thread {s : State} (priority : ℕ) (hcur : s.current ≠ s.next) (u : Tid) :
    (born s priority).thread u = if u =
    s.next then threadInit
    priority else { s.thread u with yield :=
      (s.thread u).yield || (decide (u = s.current) && decide (priority > s.self.priority)) } := by
  unfold born
  by_cases hp : priority > s.self.priority
  · simp only [hp,↓reduceIte,threadSetYield]
    rw [modify_thread]
    by_cases hu : u = s.current
    · subst hu
      simp [enqueued,State.alloc,hcur]
    · simp only [hu,↓reduceIte,enqueued,State.alloc,Function.update_apply,decide_false,Bool.false_and,
        Bool.or_false]
  · simp only [hp,↓reduceIte,enqueued,State.alloc,Function.update_apply,decide_false,Bool.and_false,
      Bool.or_false]

theorem born_fields (s : State) (priority : ℕ) : (born s priority).current = s.current ∧
    (born s priority).idle = s.idle ∧ (born s priority).created = s.next :: s.created ∧
    (born s priority).next = s.next + 1 ∧ (born s priority).intr = s.intr ∧
    (born s priority).stack = Function.update s.stack s.next [⟨.main,false,false,Fn.code .main⟩] := by
  unfold born
  split <;> exact ⟨rfl,rfl,rfl,rfl,rfl,rfl⟩

theorem Sound.of_wakes {s s' : State} {W : Tid → Prop} (h : Sound s) (hcore : Core s')
    (hw : Wakes s s' W) : Sound s' := by
  refine ⟨hcore,?_,fun hh => ?_⟩
  · rw [State.self,hw.current,hw.state s.current (.inr h.running)]
    exact h.running
  · rcases hw.waiting hh with hh | hh
    · rw [State.self,hw.current]
      exact hw.yield _ (h.waiting hh)
    · exact hh

/-- `thread_create` links the new thread, whatever thread is left out of the lists. -/
theorem Queued.create {s : State} {out : Option Tid} {queue : Queues} (h : Queued s out queue)
    (priority : ℕ) (hfresh : ∀ t ∈ s.created, t < s.next) (hcur : s.current ≠ s.next)
    (hout : some s.next ≠ out) :
    Checks (threadCreateLocked s priority) fun s' => s' = born s priority ∧
    ∃ queue', Queued s' out queue' ∧ ∀ p, queue p <+: queue' p := by
  have hnot : s.next ∉ s.created := fun hm => lt_irrefl _ (hfresh _ hm)
  unfold threadCreateLocked
  refine (threadRunqAdd_spec (s := s.alloc priority) h.nr_lt).mono fun s' hs' => ?_
  obtain ⟨-,hlt,hlim,rfl⟩ := hs'
  have hself : (s.alloc priority).self = s.self := Function.update_of_ne hcur _ _
  have hnext : (s.alloc priority).thread s.next = threadInit priority := Function.update_self _ _ _
  have heq : (if ((s.alloc priority).thread s.next).priority > (s.alloc priority).self.priority
      then threadSetYield (enqueued (s.alloc priority) s.next) (s.alloc priority).current
      else enqueued (s.alloc priority) s.next) = born s priority := by
    rw [hself,hnext]
    rfl
  rw [heq]
  refine ⟨rfl,?_⟩
  have hti : s.next ≠ s.idle := fun he => hnot (he ▸ h.idle_mem)
  have hlink := h.link (s.alloc priority) s.next rfl rfl rfl (by simp [State.alloc]) hti
    (by rw [hnext]; rfl) hout hlt (List.nodup_cons.mpr ⟨hnot,h.nodup⟩) hlim
    (fun q hm => hnot ((h.mem_iff q _).mp hm).1)
    (fun u hu => ⟨by simp [State.alloc,hu],by simp [State.alloc,hu],by simp [State.alloc,hu]⟩) ?_
  · refine ⟨_,hlink.congr ?_ ?_ ?_ ?_ (fun u => ?_) fun u => ?_,prefix_update_append queue _ s.next⟩
    · unfold born
      split <;> rfl
    · unfold born
      split <;> rfl
    · exact (born_fields s priority).2.2.1
    · exact (born_fields s priority).2.1
    · rw [born_thread priority hcur]
      simp only [enqueued,State.alloc,Function.update_apply]
      split <;> rfl
    · rw [born_thread priority hcur]
      simp only [enqueued,State.alloc,Function.update_apply]
      split <;> rfl
  · have hnew : Counted (s.alloc priority) out s.next := ⟨hti,.inl (by rw [hnext]; rfl)⟩
    change ((s.next :: s.created).filter _).length = _
    rw [List.filter_cons_of_pos (by simpa using hnew),List.length_cons]
    congr 2
    refine List.filter_congr fun u hu => decide_eq_decide.mpr ?_
    have hun : u ≠ s.next := fun he => hnot (he ▸ hu)
    simp [Counted,State.alloc,hun]

end X1.Sched
