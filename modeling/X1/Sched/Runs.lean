import X1.Sched.Invariant

/-! # Runs of the scheduler

Every instruction, return, interrupt and call keeps `Sound`, so every reachable state
has it. The preemption level at which each frame returns is followed down the stack;
this is needed for `thread_exit`, whose wake-up of the joiner must not switch.
-/
namespace X1.Sched
open X1.Lib X1.Ring X1.Checked

/-! ## Preemption levels along the stack -/

/-- The change of the level when the instruction is done. `thread_exit` never returns from its
dispatch, and is counted as balanced. -/
def Instr.delta : Instr → ℤ
  | .preemptDisable => 1
  | .preemptEnableNoYield => -1
  | .exitSwitch => -1
  | .call .preemptEnable => -1
  | _ => 0

/-- The change of the level over the rest of a frame. -/
def net (k : List Instr) : ℤ := (k.map Instr.delta).sum

/-- The rest of a frame, begun at level `l`, comes to `thread_exit`'s dispatch with preemption
disabled; and where it may be cut short, nothing is missing from the level. -/
def Holds : List Instr → ℤ → Prop
  | [], _ => True
  | .exitSwitch :: _, l => 0 < l
  | .exitTest :: k, l => l = 0 → Holds k l
  | .yieldTest :: k, l => net k = 0 ∧ Holds k l
  | .wakeupTest _ :: k, l => net k = 0 ∧ Holds k l
  | .iret :: k, l => net k = 0 ∧ Holds k l
  | .call .main :: _, _ => False
  | .call .intr :: _, _ => False
  | i :: k, l => Holds k (l + i.delta)

def StackHolds : List Frame → ℤ → Prop
  | [], _ => True
  | f :: fs, l => Holds f.code l ∧ StackHolds fs (l + net f.code)

/-- Each thread that is still to run has a stack that fits its preemption level. -/
def Leveled (s : State) : Prop :=
  ∀ t, (s.thread t).state ≠ .dead → StackHolds (s.stack t) (s.thread t).preemptLevel

theorem net_cons (i : Instr) (k : List Instr) : net (i :: k) = i.delta + net k := by simp [net]

theorem holds_code (fn : Fn) (l : ℤ) : Holds fn.code l := by
  cases fn <;> simp [Fn.code,Holds,net,Instr.delta]
  all_goals omega

theorem net_code {fn : Fn} {k : List Instr} {l : ℤ} (h : Holds (.call fn :: k) l) :
    net fn.code = (Instr.call fn).delta := by
  cases fn <;> simp_all [Fn.code,net,Instr.delta,Holds]

theorem Holds.tail {i : Instr} {k : List Instr} {l : ℤ} (h : Holds (i :: k) l)
    (hexit : i = .exitTest → l = 0) (hne : i ≠ .exitSwitch) : Holds k (l + i.delta) := by
  cases i with
  | call fn => cases fn <;> simp_all [Holds,Instr.delta]
  | _ => simp_all [Holds,Instr.delta]

namespace Leveled
variable {s s' : State}

theorem congr (h : Leveled s) (hstack : s'.stack = s.stack)
    (hlevel : ∀ t, (s'.thread t).preemptLevel = (s.thread t).preemptLevel)
    (hdead : ∀ t, (s.thread t).state = .dead → (s'.thread t).state = .dead) : Leveled s' := by
  intro t ht
  rw [hstack,hlevel]
  exact h t fun hd => ht (hdead t hd)

theorem current (h : Leveled s) (hs : Sound s) : StackHolds (s.stack s.current) s.self.preemptLevel := by
  refine h s.current fun hd => ?_
  have := hs.running
  rw [State.self,hd] at this
  cases this

theorem setStack (h : Leveled s) {fs : List Frame} (hfs : StackHolds fs s.self.preemptLevel) :
    Leveled (s.setStack fs) := by
  intro t ht
  by_cases htc : t = s.current
  · subst htc
    change StackHolds (Function.update s.stack s.current fs s.current) _
    rwa [Function.update_self]
  · simpa [State.setStack,htc] using h t ht

theorem setLevel {level : ℕ} (hcur : StackHolds (s.stack s.current) level)
    (h : ∀ t, t ≠ s.current → (s.thread t).state ≠ .dead →
      StackHolds (s.stack t) (s.thread t).preemptLevel) : Leveled (threadSetLevel s level) := by
  intro t ht
  rw [setLevel_thread] at ht ⊢
  change StackHolds (s.stack t) _
  by_cases htc : t = s.current
  · subst htc
    simpa using hcur
  · simpa [htc] using h t htc ht

end Leveled

/-- A new thread is linked behind the others of its priority. -/
theorem Core.grows_create {s : State} (h : Core s) (priority : ℕ) :
    Checks (threadCreateLocked s priority) (Grows s) := by
  obtain ⟨queue,hq⟩ := h.queued
  have hcur : s.current ≠ s.next := fun he => lt_irrefl _ (he ▸ h.next_fresh _ h.current_mem)
  refine (hq.create priority h.next_fresh hcur (by simpa using Ne.symm hcur)).mono ?_
  rintro _ ⟨rfl,queue',hq',hpre⟩
  obtain ⟨hc,hi,hcre,-⟩ := born_fields s priority
  refine ⟨hi,fun t ht => hcre ▸ List.mem_cons_of_mem _ ht,fun t ht => ?_,fun queue₁ hq₁ => ?_⟩
  · rw [born_thread priority hcur,if_neg (h.next_fresh t ht).ne]
  · obtain rfl := hq.unique hq₁
    exact ⟨queue',hc.symm ▸ hq',hpre⟩

/-- A new thread starts at level 1, in front of `thread_main`. -/
theorem Sound.create {s : State} (h : Sound s) (hl : Leveled s) (priority : ℕ) :
    Checks (threadCreateLocked s priority) fun s' => s' = born s priority ∧ Sound s' ∧ Leveled s' := by
  obtain ⟨queue,hq⟩ := h.queued
  have hcur : s.current ≠ s.next := fun he => lt_irrefl _ (he ▸ h.next_fresh _ h.current_mem)
  have hidle : s.idle ≠ s.next := fun he => lt_irrefl _ (he ▸ h.next_fresh _ h.idle_mem)
  refine (hq.create priority h.next_fresh hcur (by simpa using Ne.symm hcur)).mono ?_
  rintro _ ⟨rfl,queue',hq',-⟩
  obtain ⟨hc,hi,hcre,hnext,-,hstack⟩ := born_fields s priority
  have hth := born_thread priority hcur
  have hself : (born s priority).self = { s.self with
      yield := s.self.yield || decide (priority > s.self.priority) } := by
    rw [State.self,hc,hth,if_neg hcur]
    simp [State.self]
  refine ⟨rfl,⟨⟨?_,?_,fun t => ?_,?_,fun t u hu => ?_,fun t f hf i hi' => ?_⟩,?_,?_⟩,fun t ht => ?_⟩
  · rw [hc]
    exact ⟨queue',hq'⟩
  · rw [hc,hcre]
    exact List.mem_cons_of_mem _ h.current_mem
  · rw [hth]
    split
    · simp [threadInit]
    · exact h.level_lt t
  · rw [hcre,hnext]
    intro t ht
    rcases List.mem_cons.mp ht with rfl | ht
    · exact Nat.lt_succ_self _
    · exact (h.next_fresh t ht).trans (Nat.lt_succ_self _)
  · rw [hcre]
    rw [hth] at hu
    split at hu
    · simp [threadInit] at hu
    · exact List.mem_cons_of_mem _ (h.joiner_mem t u hu)
  · rw [hstack] at hf
    rw [Instr.Allowed,hi,hcre]
    by_cases htn : t = s.next
    · subst htn
      refine ⟨fun he => absurd he.symm hidle,fun u hu => ?_⟩
      obtain rfl : f = ⟨.main,false,false,Fn.code .main⟩ := by simpa using hf
      simp only [Fn.code,List.mem_cons,List.not_mem_nil,or_false] at hi'
      rcases hi' with rfl | rfl | rfl <;> simp [Instr.wakes] at hu
    · rw [Function.update_of_ne htn] at hf
      exact ⟨(h.code t f hf i hi').1,fun u hu => List.mem_cons_of_mem _ ((h.code t f hf i hi').2 u hu)⟩
  · rw [hself]
    exact h.running
  · rintro ⟨t,htc,hti,htcur,hrun,hlt⟩
    rw [hself] at hlt ⊢
    rw [hcre] at htc
    rw [hi] at hti
    rw [hc] at htcur
    rw [hth] at hrun hlt
    by_cases htn : t = s.next
    · simp only [htn,↓reduceIte,threadInit] at hlt
      simp [hlt]
    · simp only [htn,↓reduceIte] at hrun hlt
      have := h.waiting ⟨t,by simpa [htn] using htc,hti,htcur,hrun,hlt⟩
      simp [this]
  · rw [hth] at ht ⊢
    rw [hstack]
    by_cases htn : t = s.next
    · subst htn
      rw [Function.update_self]
      exact ⟨holds_code .main _,trivial⟩
    · simp only [htn,↓reduceIte] at ht ⊢
      rw [Function.update_of_ne htn]
      exact hl t ht

/-- The state in which `i` has been taken from the running frame `f` and not yet executed. -/
structure Fetched (s : State) (i : Instr) (f : Frame) (fs : List Frame) : Prop where
  sound : Sound s
  allowed : i.Allowed s s.current
  stack : s.stack s.current = f :: fs
  holds : Holds (i :: f.code) s.self.preemptLevel
  below : StackHolds fs (s.self.preemptLevel + net (i :: f.code))
  others : ∀ t, t ≠ s.current → (s.thread t).state ≠ .dead →
    StackHolds (s.stack t) (s.thread t).preemptLevel

/-- The instructions that call `thread_runq_schedule`. -/
def Instr.Switches : Instr → Prop
  | .yieldSwitch | .sleepSwitch | .exitSwitch => True
  | _ => False

theorem Instr.switches_iff {i : Instr} :
    i.Switches ↔ i = .yieldSwitch ∨ i = .sleepSwitch ∨ i = .exitSwitch := by
  cases i <;> simp [Instr.Switches]

/-- A context switch: it takes place with interrupts off, and each thread keeps its stack and level.
What the switch itself links goes behind what was linked, and the next thread is picked after that. -/
structure Switched (s s' : State) : Prop where
  dispatched : Dispatched s'
  intr : s.intr = false ∧ s'.intr = false
  stack : s'.stack = s.stack
  level : ∀ t, (s'.thread t).preemptLevel = (s.thread t).preemptLevel
  idle : s'.idle = s.idle
  created : s'.created = s.created
  priority : ∀ t, (s'.thread t).priority = (s.thread t).priority
  picks : ∀ queue, Queued s (some s.current) queue → ∃ queue₀ queue', (∀ p, queue p <+: queue₀ p) ∧
    (∀ p t, t ∈ queue₀ p ↔ Ready s' p t) ∧ Queued s' (some s'.current) queue' ∧
    Picks queue₀ s.idle s'.current queue'

/-- The queues the next thread is picked from, when something was linked before the dispatch. -/
theorem Grows.picks {s s₁ s' : State} (hg : Grows s s₁)
    (h : ∀ queue, Queued s₁ (some s₁.current) queue →
      (∀ p t, t ∈ Queued.candidates s₁ queue p ↔ Ready s' p t) ∧
      ∃ queue', Queued s' (some s'.current) queue' ∧
      Picks (Queued.candidates s₁ queue) s₁.idle s'.current queue') :
    ∀ queue, Queued s (some s.current) queue → ∃ queue₀ queue', (∀ p, queue p <+: queue₀ p) ∧
    (∀ p t, t ∈ queue₀ p ↔ Ready s' p t) ∧ Queued s' (some s'.current) queue' ∧
    Picks queue₀ s.idle s'.current queue' := by
  intro queue hq
  obtain ⟨queue₁,hq₁,hpre⟩ := hg.queue queue hq
  obtain ⟨hready,queue',hq',hpick⟩ := h queue₁ hq₁
  rw [hg.idle] at hpick
  exact ⟨_,queue',fun p => (hpre p).trans (Queued.prefix_candidates s₁ queue₁ p),hready,hq',hpick⟩

theorem not_intr_of_locked {s : State} (h : threadSchedulerLocked s = true) : s.intr = false := by
  simp only [threadSchedulerLocked,Bool.and_eq_true,Bool.not_eq_eq_eq_not,Bool.not_true] at h
  exact h.1

namespace Fetched
variable {s : State} {i : Instr} {f : Frame} {fs : List Frame}

/-- For the instructions that leave the level alone, the state is already leveled. -/
theorem leveled (h : Fetched s i f fs) (hd : i.delta = 0)
    (hexit : i = .exitTest → s.self.preemptLevel = 0) : Leveled s := by
  intro t ht
  by_cases htc : t = s.current
  · subst htc
    have htail := h.holds.tail (by simpa using hexit) (by rintro rfl; simp [Instr.delta] at hd)
    have hbelow := h.below
    rw [net_cons,hd] at hbelow
    rw [hd,Int.add_zero] at htail
    rw [Int.zero_add] at hbelow
    rw [h.stack]
    exact ⟨htail,hbelow⟩
  · exact h.others t htc ht

theorem top_nil (h : Fetched s i f fs) (hd : i.delta = 0) (hnet : net f.code = 0)
    (hexit : i = .exitTest → s.self.preemptLevel = 0) :
    Leveled (s.top fun g => { g with code := [] }) := by
  have hl := h.leveled hd hexit
  have hbelow := h.below
  rw [net_cons,hd,hnet] at hbelow
  unfold State.top
  rw [h.stack]
  refine hl.setStack ⟨trivial,?_⟩
  simpa [net] using hbelow

theorem sound_top_nil (h : Fetched s i f fs) : Sound (s.top fun g => { g with code := [] }) :=
  h.sound.top (by simp)

theorem push (h : Fetched s (.call fn) f fs) : Leveled (s.push fn) := by
  have hnet := net_code h.holds
  intro t ht
  by_cases htc : t = s.current
  · subst htc
    have htail := h.holds.tail (by simp) (by simp)
    have hbelow := h.below
    rw [net_cons] at hbelow
    simp only [State.push,State.setStack,Function.update_self,h.stack,StackHolds,hnet]
    exact ⟨holds_code fn _,htail,by rw [Int.add_assoc]; exact hbelow⟩
  · simpa [State.push,State.setStack,htc] using h.others t htc ht

/-! The three instructions that call `thread_runq_schedule`. -/

theorem yieldSwitch (h : Fetched s .yieldSwitch f fs) :
    Checks (Sched.exec s .yieldSwitch) fun s' => Sound s' ∧ Leveled s' ∧
    (Instr.yieldSwitch.Switches → Switched s s') := by
  have hs := h.sound
  have hcore : Core (threadClearYield s s.current) :=
    hs.toCore.modify _ (fun _ => rfl) (fun _ => rfl) (hs.level_lt _) (hs.joiner_mem _)
  refine hcore.schedule.mono ?_
  rintro s' ⟨hs',hdisp,hsame,hlock,-,hpicks⟩
  have hoff : s.intr = false := not_intr_of_locked (s := threadClearYield s s.current) hlock
  have hq := quiet_modify s s.current (f := fun th => { th with yield := false }) (fun _ => rfl)
    fun _ => rfl
  have hlev : ∀ t, (s'.thread t).preemptLevel = (s.thread t).preemptLevel := by
    intro t
    rw [hsame.thread]
    exact modify_member Thread.preemptLevel s.current t fun _ => rfl
  refine ⟨hs',(h.leveled rfl (by simp)).congr hsame.stack hlev fun t ht => ?_,
    fun _ => ⟨hdisp,⟨hoff,hsame.intr.trans hoff⟩,hsame.stack,hlev,hsame.idle,hsame.created,fun t => ?_,
      hq.grows.picks hpicks⟩⟩
  · rw [hsame.thread]
    exact (hq.state t).trans ht
  · rw [hsame.thread]
    exact hq.priority t

theorem sleepSwitch (h : Fetched s .sleepSwitch f fs) :
    Checks (Sched.exec s .sleepSwitch) fun s' => Sound s' ∧ Leveled s' ∧
    (Instr.sleepSwitch.Switches → Switched s s') := by
  have hs := h.sound
  have hidle : s.current ≠ s.idle := fun he => h.allowed.1 he
  refine checks_assert fun _ => ((hs.toCore.block hidle .sleeping).schedule).mono ?_
  rintro s' ⟨hs',hdisp,hsame,hlock,-,hpicks⟩
  have hoff : s.intr = false := not_intr_of_locked (s := threadSetState s s.current .sleeping) hlock
  have hlev : ∀ t, (s'.thread t).preemptLevel = (s.thread t).preemptLevel := fun t => by
    rw [hsame.thread,setState_thread]
  refine ⟨hs',(h.leveled rfl (by simp)).congr hsame.stack hlev fun t ht => ?_,
    fun _ => ⟨hdisp,⟨hoff,hsame.intr.trans hoff⟩,hsame.stack,hlev,hsame.idle,hsame.created,fun t => ?_,
      (grows_block hidle .sleeping).picks hpicks⟩⟩
  · have htc : t ≠ s.current := by
      rintro rfl
      rw [← State.self,hs.running] at ht
      cases ht
    rw [hsame.thread,setState_thread]
    simpa [htc] using ht
  · rw [hsame.thread,setState_thread]

/-- The thread that exits wakes the one that joins it first. -/
theorem exitSwitch (h : Fetched s .exitSwitch f fs) :
    Checks (Sched.exec s .exitSwitch) fun s' => Sound s' ∧ Leveled s' ∧
    (Instr.exitSwitch.Switches → Switched s s') := by
  have hs := h.sound
  have hidle : s.current ≠ s.idle := fun he => h.allowed.1 he
  refine checks_assert fun _ => ?_
  have hcore := hs.toCore.block hidle .dead
  have hself : (threadSetState s s.current .dead).self = { s.self with state := .dead } := by
    change (threadSetState s s.current .dead).thread s.current = _
    simp [setState_thread,State.self]
  refine Safe.bind (hcore.wakeup ?_ ?_) ?_
  · exact hcore.joiner_mem _
  · rw [hself]
    have := h.holds
    simp only [Holds] at this
    change s.self.preemptLevel ≠ 0
    omega
  · rintro s₁ ⟨hcore₁,hw,-⟩
    refine hcore₁.schedule.mono ?_
    rintro s' ⟨hs',hdisp,hsame,hlock,-,hpicks⟩
    have hoff : s.intr = false := hw.intr ▸ not_intr_of_locked hlock
    have hlev : ∀ t, (s'.thread t).preemptLevel = (s.thread t).preemptLevel := fun t => by
      rw [hsame.thread,hw.level,setState_thread]
    refine ⟨hs',fun t ht => ?_,
      fun _ => ⟨hdisp,⟨hoff,hsame.intr.trans (hw.intr.trans hoff)⟩,hsame.stack.trans hw.stack,hlev,
        hsame.idle.trans hw.idle,hsame.created.trans hw.created,fun t => ?_,
        ((grows_block hidle .dead).trans hw.grows).picks hpicks⟩⟩
    · rw [hsame.thread] at ht ⊢
      have htd : ((threadSetState s s.current .dead).thread t).state ≠ .dead :=
        fun hd => ht (hw.dead t hd)
      have htc : t ≠ s.current := by
        rintro rfl
        simp [setState_thread] at htd
      rw [setState_thread] at htd
      rw [hsame.stack,hw.level,hw.stack,setState_thread]
      exact h.others t htc (by simpa [htc] using htd)
    · rw [hsame.thread,hw.priority,setState_thread]

/-- One instruction keeps the invariant, and the three that call `thread_runq_schedule` dispatch. -/
theorem exec (h : Fetched s i f fs) :
    Checks (exec s i) fun s' => Sound s' ∧ Leveled s' ∧ (i.Switches → Switched s s') := by
  have hs := h.sound
  have hidle : ¬i.Halting → s.current ≠ s.idle := fun hn he => hn (h.allowed.1 he)
  cases i with
  | preemptDisable =>
    refine (preemptDisable_spec (hs.level_lt _)).mono ?_
    rintro _ ⟨hl,rfl⟩
    refine ⟨hs.setLevel hl,Leveled.setLevel ?_ h.others,False.elim⟩
    have hbelow := h.below
    rw [net_cons,← Int.add_assoc] at hbelow
    rw [h.stack]
    exact ⟨h.holds.tail (by simp) (by simp),by simpa [Instr.delta] using hbelow⟩
  | preemptEnableNoYield =>
    refine (preemptEnableNoYield_spec s).mono ?_
    rintro _ ⟨hl,rfl⟩
    refine ⟨hs.setLevel ((Nat.sub_le _ _).trans_lt (hs.level_lt _)),Leveled.setLevel ?_ h.others,
      False.elim⟩
    have hcast : ((s.self.preemptLevel - 1 : ℕ) : ℤ) = s.self.preemptLevel + -1 := by omega
    have hbelow := h.below
    rw [net_cons,← Int.add_assoc] at hbelow
    rw [h.stack,hcast]
    exact ⟨h.holds.tail (by simp) (by simp),hbelow⟩
  | yieldIfNeeded =>
    have hl := h.leveled rfl (by simp)
    by_cases hy : s.self.yield = true
    · simp only [Sched.exec,hy,↓reduceIte]
      refine ⟨hs.push ⟨fun _ => trivial,by simp [Instr.wakes]⟩,hl.setStack ⟨holds_code .yield _,?_⟩,
        False.elim⟩
      simpa [net,Fn.code,Instr.delta] using hl.current hs
    · simp only [Sched.exec,hy]
      exact ⟨hs,hl,False.elim⟩
  | yieldTest =>
    simp only [Sched.exec]
    split
    · exact ⟨hs,h.leveled rfl (by simp),False.elim⟩
    · exact ⟨h.sound_top_nil,h.top_nil rfl h.holds.1 (by simp),False.elim⟩
  | yieldSwitch => exact h.yieldSwitch
  | sleepSwitch => exact h.sleepSwitch
  | assertRunning => exact checks_assert fun _ => ⟨hs,h.leveled rfl (by simp),False.elim⟩
  | wakeupTest t =>
    simp only [Sched.exec]
    split
    · exact ⟨h.sound_top_nil,h.top_nil rfl h.holds.1 (by simp),False.elim⟩
    · exact ⟨hs,h.leveled rfl (by simp),False.elim⟩
  | wakeupLocked t =>
    refine (hs.toCore.wakeupLocked h.allowed.2 (.inr hs.running)).mono ?_
    rintro s' ⟨hcore,hw,-⟩
    exact ⟨hs.of_wakes hcore hw,(h.leveled rfl (by simp)).congr hw.stack hw.level hw.dead,False.elim⟩
  | createLocked priority =>
    exact (hs.create (h.leveled rfl (by simp)) priority).mono fun _ hs' => ⟨hs'.2.1,hs'.2.2,False.elim⟩
  | exitTest =>
    refine checks_assert fun hp => ⟨hs,h.leveled rfl fun _ => ?_,False.elim⟩
    simpa [threadPreemptEnabled] using hp
  | exitSwitch => exact h.exitSwitch
  | deadWalking => rfl
  | joinSet t =>
    have hq := quiet_modify s t (f := fun th => { th with joiner := some s.current }) (fun _ => rfl)
      fun _ => rfl
    refine ⟨hs.setJoiner t,(h.leveled rfl (by simp)).congr rfl (fun u => ?_)
      (fun u hu => (hq.state u).trans hu),False.elim⟩
    exact modify_member Thread.preemptLevel t u fun _ => rfl
  | joinLoop t =>
    simp only [Sched.exec]
    split
    · exact ⟨hs,h.leveled rfl (by simp),False.elim⟩
    · have hl := h.leveled rfl (by simp)
      refine ⟨?_,?_,False.elim⟩
      · refine hs.top fun g hg j hj => ?_
        rcases List.mem_cons.mp hj with rfl | hj
        · exact ⟨fun he => absurd he (hidle id),by simp [Instr.wakes]⟩
        · rcases List.mem_cons.mp hj with rfl | hj
          · exact h.allowed
          · exact hs.code s.current g hg j hj
      · have hcur := hl.current hs
        rw [h.stack] at hcur
        unfold State.top
        rw [h.stack]
        refine hl.setStack ?_
        simpa [StackHolds,Holds,net_cons,Instr.delta] using hcur
  | destroy t => exact checks_assert fun _ => ⟨hs,h.leveled rfl (by simp),False.elim⟩
  | mainTest =>
    exact checks_assert fun _ => checks_assert fun _ => ⟨hs,h.leveled rfl (by simp),False.elim⟩
  | intrSave =>
    have hl := h.leveled rfl (by simp)
    have hsound : Sound (s.top fun g => { g with eflags := s.intr }) :=
      hs.top fun g hg => hs.code s.current g hg
    refine ⟨hsound.setIntr false,?_,False.elim⟩
    have hcur := hl.current hs
    rw [h.stack] at hcur
    have htop : Leveled (s.top fun g => { g with eflags := s.intr }) := by
      unfold State.top
      rw [h.stack]
      exact hl.setStack hcur
    exact htop.congr rfl (fun _ => rfl) fun _ => id
  | intrRestore | intrEnable | intrDisable =>
    exact ⟨hs.setIntr _,(h.leveled rfl (by simp)).congr rfl (fun _ => rfl) (fun _ => id),False.elim⟩
  | iret =>
    have hsound : Sound (s.setStack (s.stack s.current).tail) :=
      hs.setStack fun g hg => hs.code s.current g (List.mem_of_mem_tail hg)
    have hbelow := h.below
    rw [net_cons,h.holds.1] at hbelow
    have hlev : Leveled (s.setStack (s.stack s.current).tail) := by
      refine (h.leveled rfl (by simp)).setStack ?_
      rw [h.stack]
      simpa [Instr.delta] using hbelow
    exact ⟨hsound.setIntr true,hlev.congr rfl (fun _ => rfl) (fun _ => id),False.elim⟩
  | call fn => exact ⟨hs.push h.allowed,h.push,False.elim⟩

end Fetched

/-! ## Interrupts -/

theorem wakes_setYield (s : State) (t : Tid) (W : Tid → Prop) : Wakes s (threadSetYield s t) W := by
  have hq : Quiet s (threadSetYield s t) := quiet_modify s t (fun _ => rfl) fun _ => rfl
  refine ⟨rfl,rfl,rfl,rfl,rfl,fun u => ?_,hq.priority,fun u => ?_,fun u hu => ?_,fun u _ => hq.state u,
    fun u => .inl (hq.state u),fun hw => .inl (hq.higherWaiting.mp hw),hq.grows⟩
  · exact modify_member Thread.preemptLevel t u fun _ => rfl
  · exact modify_member Thread.joiner t u fun _ => rfl
  · rw [threadSetYield,modify_thread]
    split
    · rfl
    · exact hu

theorem Sound.act {s : State} (h : Sound s) (hlevel : s.self.preemptLevel ≠ 0) {act : Act}
    {W : Tid → Prop} (hact : ∀ t, act = .wake t → t ∈ s.created ∧ W t) :
    Checks (act.run s) fun s' => Sound s' ∧ Wakes s s' W := by
  cases act with
  | tick => exact ⟨h.setYield s.current,wakes_setYield s s.current W⟩
  | wake t =>
    obtain ⟨hmem,hW⟩ := hact t rfl
    refine (h.toCore.wakeup (t := some t) (by simpa using hmem) hlevel).mono ?_
    rintro s' ⟨hcore,hw,-⟩
    refine ⟨h.of_wakes hcore hw,hw.mono fun u hu => ?_⟩
    obtain rfl : u = t := by simpa using hu
    exact hW

theorem Sound.acts {s : State} (h : Sound s) (hlevel : s.self.preemptLevel ≠ 0) {acts : List Act}
    {W : Tid → Prop} (hact : ∀ t, Act.wake t ∈ acts → t ∈ s.created ∧ W t) :
    Checks (acts.foldlM Act.run s) fun s' => Sound s' ∧ Wakes s s' W := by
  induction acts generalizing s with
  | nil => exact ⟨h,Wakes.refl s W⟩
  | cons act acts ih =>
    rw [List.foldlM_cons]
    refine Safe.bind (h.act hlevel fun t ht => hact t (by simp [ht])) ?_
    rintro s₁ ⟨hs₁,hw⟩
    have hlevel₁ : s₁.self.preemptLevel ≠ 0 := by
      rw [State.self,hw.level,hw.current]
      exact hlevel
    refine (ih hs₁ hlevel₁ fun t ht => ?_).mono fun s' hs' => ⟨hs'.1,hw.trans hs'.2⟩
    rw [hw.created]
    exact hact t (by simp [ht])

/-- The state in which the interrupt is taken and preemption disabled. -/
def State.interrupted (s : State) : State :=
  threadSetLevel { s with intr := false } (s.self.preemptLevel + 1)

theorem interrupt_spec {s : State} (h : Sound s) (acts : List Act) {W : Tid → Prop}
    (hact : ∀ t, Act.wake t ∈ acts → t ∈ s.created ∧ W t) :
    Checks (cpuIntrMain s acts) fun s' => ∃ s₁, Sound s₁ ∧ Wakes s.interrupted s₁ W ∧
      s.self.preemptLevel + 1 < 2 ^ 32 ∧
      s' = s₁.setStack (⟨.intr,true,false,Fn.code .intr⟩ :: s.stack s.current) := by
  unfold cpuIntrMain
  refine Safe.bind (preemptDisable_spec (h.level_lt _)) ?_
  rintro _ ⟨hl,rfl⟩
  have hs₀ : Sound s.interrupted := (h.setIntr false).setLevel hl
  have hlevel : s.interrupted.self.preemptLevel ≠ 0 := by
    rw [State.interrupted,setLevel_self]
    exact Nat.succ_ne_zero _
  refine Safe.bind (hs₀.acts hlevel hact) ?_
  rintro s₁ ⟨hs₁,hw⟩
  refine ⟨s₁,hs₁,hw,hl,?_⟩
  rw [hw.current,hw.stack]
  rfl

theorem Sound.interrupt {s : State} (h : Sound s) (hl : Leveled s) {acts : List Act}
    (hact : ∀ t, Act.wake t ∈ acts → t ∈ s.created) :
    Checks (cpuIntrMain s acts) fun s' => Sound s' ∧ Leveled s' := by
  refine (interrupt_spec (W := fun _ => True) h acts fun t ht => ⟨hact t ht,trivial⟩).mono ?_
  rintro _ ⟨s₁,hs₁,hw,hlt,rfl⟩
  have hcode : ∀ i ∈ Fn.code .intr, i.Allowed s₁ s₁.current := by
    intro i hi
    simp only [Fn.code,List.mem_cons,List.not_mem_nil,or_false] at hi
    rcases hi with rfl | rfl <;> exact ⟨fun _ => trivial,by simp [Instr.wakes]⟩
  have hstack : s₁.stack s₁.current = s.stack s.current := by
    rw [hw.stack,hw.current]
    rfl
  constructor
  · refine hs₁.setStack fun f hf i hi => ?_
    rcases List.mem_cons.mp hf with rfl | hf
    · exact hcode i hi
    · exact hs₁.code s₁.current f (by rwa [hstack]) i hi
  · intro t ht
    have hcur : s₁.current = s.current := hw.current
    have hst : (s.thread t).state ≠ .dead := fun hd => ht (hw.dead t (by
      simpa [State.interrupted,setLevel_thread] using hd))
    have hlev := hw.level t
    rw [State.interrupted,setLevel_thread] at hlev
    change StackHolds (Function.update s₁.stack s₁.current _ t) (s₁.thread t).preemptLevel
    rw [hlev,hcur]
    by_cases htc : t = s.current
    · subst htc
      rw [Function.update_self]
      refine ⟨holds_code .intr _,?_⟩
      have hcast : ((s.self.preemptLevel + 1 : ℕ) : ℤ) + net (Fn.code .intr) = s.self.preemptLevel := by
        simp only [net,Fn.code,Instr.delta,List.map_cons,List.map_nil,List.sum_cons,List.sum_nil]
        omega
      simp only [↓reduceIte,hcast]
      exact hl.current h
    · rw [Function.update_of_ne htc,hw.stack]
      simp only [htc,↓reduceIte]
      exact hl t hst

/-! ## Steps -/

theorem Fetched.of_stack {s : State} (h : Sound s) (hl : Leveled s) {f : Frame} {fs : List Frame}
    {i : Instr} {k : List Instr} (hstack : s.stack s.current = f :: fs) (hcode : f.code = i :: k) :
    Fetched (s.setStack ({ f with code := k } :: fs)) i { f with code := k } fs := by
  have hcur := hl.current h
  rw [hstack] at hcur
  obtain ⟨hholds,hbelow⟩ := hcur
  rw [hcode] at hholds hbelow
  have hf : ∀ j ∈ f.code, j.Allowed s s.current := h.code s.current f (by simp [hstack])
  refine ⟨h.setStack fun g hg j hj => ?_,hf i (by simp [hcode]),by simp [State.setStack],hholds,hbelow,
    fun t htc ht => ?_⟩
  · rcases List.mem_cons.mp hg with rfl | hg
    · exact hf j (by simp [hcode,hj])
    · exact h.code s.current g (by simp [hstack,hg]) j hj
  · have htc' : t ≠ s.current := htc
    simpa [State.setStack,htc'] using hl t ht

theorem Instr.Api.allowed {s : State} {i : Instr} (h : i.Api s) (hidle : s.current ≠ s.idle) :
    i.Allowed s s.current := by
  refine ⟨fun he => absurd he hidle,fun u hu => ?_⟩
  cases i with
  | call fn =>
    cases fn with
    | wakeup t => exact h u hu
    | _ => simp [Instr.wakes] at hu
  | wakeupTest t => exact h.elim
  | wakeupLocked t => exact h.elim
  | _ => simp [Instr.wakes] at hu

theorem Instr.Api.holds {s : State} {i : Instr} (h : i.Api s) (l : ℤ) : Holds [i] l := by
  cases i with
  | call fn => cases fn <;> simp_all [Instr.Api,Holds]
  | _ => simp_all [Instr.Api,Holds]

theorem ThreadStep.sound {s s' : State} (hstep : ThreadStep s s') (h : Sound s) (hl : Leveled s) :
    Sound s' ∧ Leveled s' := by
  cases hstep with
  | instr hstack hcode hexec =>
    obtain ⟨hs',hl',-⟩ := (Fetched.of_stack h hl hstack hcode).exec.of_ok hexec
    exact ⟨hs',hl'⟩
  | ret hstack hcode hmain =>
    have hcur := hl.current h
    rw [hstack] at hcur
    refine ⟨h.setStack fun g hg i hi => h.code s.current g (by simp [hstack,hg]) i hi,hl.setStack ?_⟩
    simpa [hcode,net] using hcur.2
  | invoke i hstack hfn hcode hidle hapi =>
    refine ⟨h.setStack fun g hg j hj => ?_,hl.setStack ⟨hapi.holds _,trivial⟩⟩
    obtain rfl : g = _ := List.mem_singleton.mp hg
    obtain rfl : j = i := List.mem_singleton.mp hj
    exact hapi.allowed hidle

theorem Step.sound {s s' : State} (hstep : Step s s') (h : Sound s) (hl : Leveled s) :
    Sound s' ∧ Leveled s' := by
  cases hstep with
  | thread hstep => exact hstep.sound h hl
  | interrupt acts hintr hact hmain => exact (h.interrupt hl hact).of_ok hmain

/-! ## The boot code -/

theorem rings_init (links : Links Node) (ps : List ℕ) :
    ∀ p ∈ ps, IsList (ps.foldl (fun l p => listInit l (.head p)) links) (.head p) [] := by
  induction ps using List.reverseRecOn with
  | nil => simp
  | append_singleton ps q ih =>
    intro p hp
    rw [List.foldl_append]
    change IsList (listInit (ps.foldl _ links) (.head q)) _ _
    by_cases hpq : p = q
    · subst hpq
      exact isList_listInit independent_links trivial
    · refine isList_listInit_frame independent_links trivial (fun _ _ => trivial) (ih p ?_) ?_
      · simpa [hpq] using hp
      · simpa using Ne.symm hpq

/-- Before the scheduler is enabled no thread is left out of the lists, and none has run. -/
structure Boots (s : State) : Prop where
  queued : ∃ queue, Queued s none queue
  current_lt : s.current < s.next
  next_fresh : ∀ t ∈ s.created, t < s.next
  level_lt : ∀ t, (s.thread t).preemptLevel < 2 ^ 32
  level_self : s.self.preemptLevel = 1
  joiner : ∀ t, (s.thread t).joiner = none
  stack : ∀ t, s.stack t = [⟨.main,false,false,Fn.code .main⟩]
  state : ∀ t, (s.thread t).state = .running

theorem boots_setup (links : Links Node) : Boots (threadSetup links) := by
  refine ⟨⟨fun _ => [],?_,fun p t => ?_,?_,by simp [threadSetup],by simp [threadSetup],
    fun t _ => ?_,by simp [threadSetup],rfl⟩,
    by simp [threadSetup,threadDummy],by simp [threadSetup],fun t => by
      simp [threadSetup,threadInit],rfl,fun t => rfl,fun t => rfl,
    fun t => rfl⟩
  · intro p hp
    exact rings_init links (List.range THREAD_NR_PRIORITIES) p (by simpa using hp)
  · simp [threadSetup]
    tauto
  · simp [threadSetup,Counted]
  · simp [threadSetup,threadInit,THREAD_NR_PRIORITIES,THREAD_IDLE_PRIORITY]

theorem Boots.create {s : State} (h : Boots s) (priority : ℕ) :
    Checks (threadCreate s priority) Boots := by
  unfold threadCreate
  refine Safe.bind (preemptDisable_spec (h.level_lt _)) ?_
  rintro _ ⟨hl,rfl⟩
  obtain ⟨queue,hq⟩ := h.queued
  have hcur : s.current ≠ s.next := h.current_lt.ne
  have hq₁ : Queued { threadSetLevel s (s.self.preemptLevel + 1) with intr := false } none queue :=
    hq.congr rfl rfl rfl rfl (fun t => by simp [setLevel_thread]) fun t => by simp [setLevel_thread]
  refine Safe.bind (hq₁.create priority h.next_fresh hcur (by simp)) ?_
  rintro _ ⟨rfl,queue',hq',-⟩
  obtain ⟨hc,hi,hcre,hnext,-,hstack⟩ :=
    born_fields { threadSetLevel s (s.self.preemptLevel + 1) with intr := false } priority
  have hth := born_thread (s := { threadSetLevel s (s.self.preemptLevel + 1) with intr := false })
    priority hcur
  generalize born { threadSetLevel s (s.self.preemptLevel + 1) with intr := false } priority = s₁ at *
  have hself : s₁.self.preemptLevel = s.self.preemptLevel + 1 := by
    rw [State.self,hc,hth]
    simp [hcur,threadSetLevel,State.modify]
  unfold threadPreemptEnableLocked
  refine Safe.bind (preemptEnableNoYield_spec _) ?_
  rintro _ ⟨-,rfl⟩
  have hself' : ({ s₁ with intr := (threadSetLevel s (s.self.preemptLevel + 1)).intr } :
      State).self.preemptLevel - 1 = 1 := by
    change s₁.self.preemptLevel - 1 = 1
    have := h.level_self
    omega
  rw [hself']
  have hlev : threadPreemptEnabled (threadSetLevel
      { s₁ with intr := (threadSetLevel s (s.self.preemptLevel + 1)).intr } 1) = false := by
    rw [threadPreemptEnabled,setLevel_self]
    rfl
  simp only [hlev,Bool.and_false,Bool.false_eq_true,↓reduceIte]
  refine ⟨⟨queue',hq'.congr rfl rfl rfl rfl (fun t => by simp [setLevel_thread])
    fun t => by simp [setLevel_thread]⟩,?_,?_,fun t => ?_,?_,fun t => ?_,fun t => ?_,fun t => ?_⟩
  · change s₁.current < s₁.next
    rw [hc,hnext]
    exact h.current_lt.trans (Nat.lt_succ_self _)
  · change ∀ t ∈ s₁.created, t < s₁.next
    rw [hcre,hnext]
    intro t ht
    rcases List.mem_cons.mp ht with rfl | ht
    · exact Nat.lt_succ_self _
    · exact (h.next_fresh t ht).trans (Nat.lt_succ_self _)
  · rw [setLevel_thread]
    simp only
    split
    · exact Nat.one_lt_two_pow (by decide)
    · rw [hth]
      split
      · simp [threadInit]
      · simp only [setLevel_thread]
        split
        · exact hl
        · exact h.level_lt t
  · rw [setLevel_self]
  · rw [setLevel_thread]
    simp only
    rw [hth]
    split
    · rfl
    · simp [setLevel_thread,h.joiner]
  · change s₁.stack t = _
    rw [hstack]
    by_cases htn : t = s.next
    · subst htn
      exact Function.update_self ..
    · exact (Function.update_of_ne htn ..).trans (h.stack t)
  · rw [setLevel_thread]
    simp only
    rw [hth]
    split
    · rfl
    · simp [setLevel_thread,h.state]

theorem Boots.enable {s : State} (h : Boots s) :
    Checks (threadEnableScheduler s) fun s' => Sound s' ∧ Leveled s' ∧ Dispatched s' ∧
      (∀ t, s'.stack t = [⟨.main,false,false,Fn.code .main⟩]) ∧ ∀ t, (s'.thread t).state = .running := by
  obtain ⟨queue,hq⟩ := h.queued
  obtain ⟨s₁,queue',hnext,hsame,hq',hpick⟩ := hq.getNext
  unfold threadEnableScheduler
  rw [hnext]
  refine checks_assert fun _ => ?_
  obtain ⟨hcur,hrun,hdisp⟩ := hq'.dispatched (hsame.idle ▸ hpick) fun p t ht => by
    rw [Ready,hsame.created,hsame.thread,hsame.idle]
    have := (hq.mem_iff p t).mp ht
    exact ⟨this.1,this.2.1,this.2.2.1,this.2.2.2.2⟩
  have hstack : ∀ t, s₁.stack t = [⟨.main,false,false,Fn.code .main⟩] := fun t => by
    rw [hsame.stack]
    exact h.stack t
  have hsound : Sound s₁ := by
    refine ⟨⟨⟨queue',hq'⟩,hcur,?_,?_,fun t u hu => ?_,fun t f hf i hi => ?_⟩,hrun,
      fun hw => absurd hw hdisp.none_higher⟩
    · rw [hsame.thread]
      exact h.level_lt
    · rw [hsame.created,hsame.next]
      exact h.next_fresh
    · rw [hsame.thread,h.joiner] at hu
      simp at hu
    · rw [hstack] at hf
      obtain rfl := List.mem_singleton.mp hf
      simp only [Fn.code,List.mem_cons,List.not_mem_nil,or_false] at hi
      rcases hi with rfl | rfl | rfl <;> exact ⟨fun _ => trivial,by simp [Instr.wakes]⟩
  refine ⟨hsound.setIntr false,fun t _ => ?_,⟨hdisp.none_higher,hdisp.idle_iff⟩,hstack,fun t => ?_⟩
  · change StackHolds (s₁.stack t) _
    rw [hstack]
    exact ⟨holds_code .main _,trivial⟩
  · change (s₁.thread t).state = _
    rw [hsame.thread]
    exact h.state t

theorem Booting.boots {s : State} (h : Booting s) : Boots s := by
  induction h with
  | setup links => exact boots_setup links
  | create _ hc ih => exact (ih.create _).of_ok hc

theorem Reachable.sound {s : State} (h : Reachable s) : Sound s ∧ Leveled s := by
  induction h with
  | enable hb he =>
    obtain ⟨hs,hl,-⟩ := hb.boots.enable.of_ok he
    exact ⟨hs,hl⟩
  | step _ hstep ih => exact hstep.sound ih.1 ih.2

end X1.Sched
