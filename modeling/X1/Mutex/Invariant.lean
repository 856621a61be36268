import X1.Base.Checked
import X1.Mutex.Model

/-! # The invariant of a mutex

Preemption is disabled in every critical part of the code, so that only the current
thread can be in the middle of one, and the others are in front of a call, behind it,
or asleep in `mutex_lock`. The invariant gives for each place in the code what it
knows about the mutex, and one lemma for each kind of statement shows it kept.
-/
namespace X1.Mutex
open X1.Lib X1.Ring X1.Checked
variable {T : Type} [DecidableEq T]

namespace Pc

def waiting : Pc → Bool
  | lockSleep | lockRetest | lockDequeue => true
  | _ => false

def busy : Pc → Bool
  | lockTest | lockQueue | lockSleep | lockRetest | lockDequeue | lockSetOwner | lockLeave => true
  | tryTest | trySetOwner | tryLeave _ => true
  | unlockClear | unlockWakeup | unlockLeave => true
  | _ => false

/-- Inside of a call, behind `mutex_set_owner` or in front of `mutex_clear_owner`. -/
def owns : Pc → Bool
  | lockLeave | lockReturn | tryLeave false | tryReturn false | unlockEnter | unlockClear => true
  | _ => false

def expects : Pc → Option Bool
  | lockQueue | lockSleep => some true
  | lockDequeue | lockSetOwner | trySetOwner => some false
  | _ => none

/-- The thread is about to take the mutex, or to wake a waiter. -/
def settles : Pc → Bool
  | lockSetOwner | unlockWakeup => true
  | _ => false

def Level : Pc → ℕ → Prop
  | lockEnter, l => l = 0
  | lockTest, l | lockQueue, l | lockSleep, l | lockRetest, l | lockDequeue, l | lockSetOwner, l => l = 1
  | lockLeave, l => l = 1
  | tryTest, l | trySetOwner, l | tryLeave _, l | unlockClear, l | unlockWakeup, l | unlockLeave, l =>
    l ≠ 0
  | _, _ => True

/-- A place at which a thread can be left by a context switch. -/
def Rests (pc : Pc) : Prop := pc.busy = false ∨ pc = lockRetest

theorem Rests.expects {pc : Pc} (h : pc.Rests) : pc.expects = none := by
  rcases h with h | rfl
  · cases pc <;> simp_all [busy,Pc.expects]
  · rfl

theorem rests_of_level {pc : Pc} (h : pc.Level 0) : pc.Rests := by
  cases pc <;> simp_all [Level,Rests,busy]

theorem Rests.settles {pc : Pc} (h : pc.Rests) : pc.settles = false := by
  rcases h with h | rfl
  · cases pc <;> simp_all [busy,Pc.settles]
  · rfl

end Pc

def Thread.Owns (th : Thread) : Prop := th.holding = true ∨ th.pc.owns = true

structure Thread.Fits (th : Thread) : Prop where
  level : th.pc.Level th.preemptLevel
  released : th.pc = .unlockEnter ∨ th.pc = .unlockClear → th.holding = false

/-- `ws` are the threads whose waiters are linked, in the order of the list. -/
structure Inv (s : State T) (ws : List T) : Prop where
  running : s.self.state = .running
  ring : IsList s.links .waiters (ws.map .waiter)
  waiting : ∀ t, t ∈ ws ↔ (s.thread t).pc.waiting = true
  waiterThread : ∀ t ∈ ws, s.waiterThread t = t
  locked : s.locked = s.owner.isSome
  owner : ∀ t, s.owner = some t ↔ (s.thread t).Owns
  fits : ∀ t, (s.thread t).Fits
  rests : ∀ t, t ≠ s.current → (s.thread t).pc.Rests
  expects : ∀ b ∈ s.self.pc.expects, s.locked = b
  first : s.locked = false → s.self.pc.settles = false → ∀ t ∈ ws.head?, (s.thread t).state = .running

/-! ## Changes of the current thread -/

theorem modify_thread (s : State T) (t u : T) (f : Thread → Thread) :
    (s.modify t f).thread u = if u = t then f (s.thread t) else s.thread u := by
  simp [State.modify,Function.update_apply]

/-- The change `th` of the current thread, and a change of the mutex that concerns no other thread. -/
structure Update (s s' : State T) (ws ws' : List T) (th : Thread) : Prop where
  thread : s'.thread = Function.update s.thread s.current th
  current : s'.current = s.current
  state : th.state = .running
  fits : th.Fits
  ring : IsList s'.links .waiters (ws'.map .waiter)
  waiting : s.current ∈ ws' ↔ th.pc.waiting = true
  waiting_others : ∀ t, t ≠ s.current → (t ∈ ws' ↔ t ∈ ws)
  waiterThread : ∀ t ∈ ws', s'.waiterThread t = t
  locked : s'.locked = s'.owner.isSome
  owner : s'.owner = some s.current ↔ th.Owns
  owner_others : ∀ t, t ≠ s.current → (s'.owner = some t ↔ s.owner = some t)
  expects : ∀ b ∈ th.pc.expects, s'.locked = b
  first : s'.locked = false → th.pc.settles = false → ∀ t ∈ ws'.head?, t ≠ s.current →
    (s.thread t).state = .running

theorem Inv.update {s s' : State T} {ws ws' : List T} {x : Thread} (h : Inv s ws)
    (hu : Update s s' ws ws' x) : Inv s' ws' := by
  have hself : s'.self = x := by
    rw [State.self,hu.thread,hu.current,Function.update_self]
  have hother : ∀ t, t ≠ s.current → s'.thread t = s.thread t := fun t ht => by
    rw [hu.thread,Function.update_of_ne ht]
  have hcur : s'.thread s.current = x := by rw [hu.thread,Function.update_self]
  refine ⟨?_,hu.ring,fun t => ?_,hu.waiterThread,hu.locked,fun t => ?_,fun t => ?_,fun t ht => ?_,?_,?_⟩
  · rw [hself]
    exact hu.state
  · by_cases ht : t = s.current
    · subst ht
      rw [hcur]
      exact hu.waiting
    · rw [hu.waiting_others t ht,hother t ht]
      exact h.waiting t
  · by_cases ht : t = s.current
    · subst ht
      rw [hcur]
      exact hu.owner
    · rw [hu.owner_others t ht,hother t ht]
      exact h.owner t
  · by_cases ht : t = s.current
    · subst ht
      rw [hcur]
      exact hu.fits
    · rw [hother t ht]
      exact h.fits t
  · rw [hu.current] at ht
    rw [hother t ht]
    exact h.rests t ht
  · rw [hself]
    exact hu.expects
  · rw [hself]
    intro hl hset t ht
    by_cases htc : t = s.current
    · subst htc
      rw [hcur]
      exact hu.state
    · rw [hother t htc]
      exact hu.first hl hset t ht htc

theorem Inv.move {s s' : State T} {ws : List T} {th : Thread} (h : Inv s ws)
    (hs' : s' = { s with thread := Function.update s.thread s.current th })
    (hstate : th.state = .running) (hfits : th.Fits) (hwaiting : th.pc.waiting = s.self.pc.waiting)
    (howner : th.Owns ↔ s.self.Owns) (hexpects : ∀ b ∈ th.pc.expects, s.locked = b)
    (hsettles : s.self.pc.settles = false ∨ th.pc.settles = true) : Inv s' ws := by
  subst hs'
  refine h.update ⟨rfl,rfl,hstate,hfits,h.ring,?_,fun _ _ => Iff.rfl,h.waiterThread,h.locked,?_,
    fun _ _ => Iff.rfl,hexpects,fun hl hset t ht _ => ?_⟩
  · rw [hwaiting]
    exact h.waiting s.current
  · rw [howner]
    exact h.owner s.current
  · rcases hsettles with hn | hn
    · exact h.first hl hn t ht
    · rw [hn] at hset
      cases hset

/-! ## The functions -/

/-- Only the assertions of thread.c can fail. -/
def Checks (r : Except Fault (State T)) (P : State T → Prop) : Prop := Safe (· = .preempt) r P

omit [DecidableEq T] in
theorem checks_assert {b : Bool} {r : Except Fault (State T)} {P : State T → Prop}
    (h : b = true → Checks r P) : Checks (assert .preempt b >>= fun _ => r) P := by
  cases b with
  | false => rfl
  | true => exact h rfl

omit [DecidableEq T] in
theorem mutexSetOwner_eq {s : State T} (howner : s.owner = none) (hlocked : s.locked = false) (t : T) :
    mutexSetOwner s t = .ok { s with owner := some t, locked := true } := by
  unfold mutexSetOwner
  rw [howner,hlocked]
  rfl

theorem mutexClearOwner_eq {s : State T} (howner : s.owner = some s.current)
    (hlocked : s.locked = true) :
    mutexClearOwner s = .ok { s with owner := none, locked := false } := by
  unfold mutexClearOwner
  rw [hlocked,decide_eq_true howner]
  rfl

theorem preemptDisable_spec (s : State T) : Checks (threadPreemptDisable s) fun s' =>
    (s.self.preemptLevel + 1) % 2 ^ 32 ≠ 0 ∧ s' = s.setLevel ((s.self.preemptLevel + 1) % 2 ^ 32) :=
  checks_assert fun hl => ⟨of_decide_eq_true hl,rfl⟩

theorem preemptEnable_spec (s : State T) : Checks (threadPreemptEnable s) fun s' =>
    s.self.preemptLevel ≠ 0 ∧ s' = s.setLevel (s.self.preemptLevel - 1) :=
  checks_assert fun hl => ⟨of_decide_eq_true hl,rfl⟩

theorem goto_eq (s : State T) (pc : Pc) :
    s.goto pc = { s with thread := Function.update s.thread s.current { s.self with pc := pc } } := rfl

theorem setLevel_goto (s : State T) (level : ℕ) (pc : Pc) : (s.setLevel level).goto pc =
    { s with thread := Function.update s.thread s.current { s.self with pc := pc, preemptLevel := level } } := by
  simp [State.setLevel,State.goto,State.modify,State.self]

namespace Inv
variable {s s' : State T} {ws : List T}

theorem goto (h : Inv s ws) {pc : Pc} (hlevel : pc.Level s.self.preemptLevel)
    (hrel : pc ≠ .unlockEnter ∧ pc ≠ .unlockClear) (hwaiting : pc.waiting = s.self.pc.waiting)
    (howner : pc.owns = s.self.pc.owns) (hexpects : ∀ b ∈ pc.expects, s.locked = b)
    (hsettles : s.self.pc.settles = false) : Inv (s.goto pc) ws := by
  refine h.move (goto_eq s pc) h.running ⟨hlevel,fun hp => ?_⟩ hwaiting ?_ hexpects (.inl hsettles)
  · rcases hp with hp | hp
    · exact absurd hp hrel.1
    · exact absurd hp hrel.2
  · simp [Thread.Owns,howner]

theorem setLevel_goto (h : Inv s ws) {pc : Pc} {level : ℕ} (hlevel : pc.Level level)
    (hrel : pc = .unlockEnter ∨ pc = .unlockClear → s.self.holding = false)
    (hwaiting : pc.waiting = s.self.pc.waiting) (howner : pc.owns = s.self.pc.owns)
    (hexpects : pc.expects = none) (hsettles : s.self.pc.settles = false) :
    Inv ((s.setLevel level).goto pc) ws := by
  refine h.move (Mutex.setLevel_goto s level pc) h.running ⟨hlevel,hrel⟩ hwaiting ?_ ?_ (.inl hsettles)
  · simp [Thread.Owns,howner]
  · simp [hexpects]

theorem current_not_mem (h : Inv s ws) (hpc : s.self.pc.waiting = false) : s.current ∉ ws := by
  rw [h.waiting s.current]
  simpa [State.self] using hpc

theorem nodup (h : Inv s ws) : ws.Nodup := List.Nodup.of_map _ (IsRing.nodup_nodes h.ring)

theorem waiterInsert (h : Inv s ws) (hpc : s.self.pc = .lockQueue) :
    Inv ((mutexWaiterInsert s).goto .lockSleep) (ws ++ [s.current]) := by
  have hlocked : s.locked = true := h.expects true (by rw [hpc]; rfl)
  have hnot := h.current_not_mem (by rw [hpc]; rfl)
  have hlevel := (h.fits s.current).level
  rw [← State.self,hpc] at hlevel
  refine h.update (x := { s.self with pc := .lockSleep })
    ⟨rfl,rfl,h.running,⟨hlevel,by simp⟩,?_,by simp [Pc.waiting],
    fun t ht => by simp [ht],fun t ht => ?_,h.locked,?_,fun _ _ => Iff.rfl,?_,fun hl => ?_⟩
  · rw [List.map_append]
    exact isList_listInsertTail independent_links (fun _ _ => trivial) trivial h.ring
      (by simpa using hnot)
  · change Function.update s.waiterThread s.current s.current t = t
    by_cases htc : t = s.current
    · rw [htc,Function.update_self]
    · rw [Function.update_of_ne htc]
      exact h.waiterThread t (by simpa [htc] using ht)
  · refine (h.owner s.current).trans ?_
    rw [← State.self]
    simp [Thread.Owns,hpc,Pc.owns]
  · intro b hb
    cases hb
    exact hlocked
  · exact absurd (hlocked.symm.trans hl) (by simp)

/-- `list_remove` in `mutex_lock`. Until the mutex is taken, nobody is left to be woken. -/
theorem waiterRemove (h : Inv s ws) (hpc : s.self.pc = .lockDequeue) :
    Inv ((mutexWaiterRemove s).goto .lockSetOwner) (ws.erase s.current) := by
  have hlocked : s.locked = false := h.expects false (by rw [hpc]; rfl)
  have hmem : s.current ∈ ws := by
    rw [h.waiting s.current,← State.self,hpc]
    rfl
  have hlevel := (h.fits s.current).level
  rw [← State.self,hpc] at hlevel
  obtain ⟨l,r,hl,hws,herase⟩ := List.exists_erase_eq hmem
  refine h.update (x := { s.self with pc := .lockSetOwner })
    ⟨rfl,rfl,h.running,⟨hlevel,by simp⟩,?_,?_,?_,fun t ht => ?_,
    h.locked,?_,fun _ _ => Iff.rfl,?_,?_⟩
  · have hring := h.ring
    rw [hws,List.map_append,List.map_cons] at hring
    rw [herase,List.map_append]
    exact isList_listRemove independent_links (fun _ _ => trivial) hring
  · simp [h.nodup.mem_erase_iff,Pc.waiting]
  · intro t ht
    simp [h.nodup.mem_erase_iff,ht]
  · exact h.waiterThread t (List.mem_of_mem_erase ht)
  · refine (h.owner s.current).trans ?_
    rw [← State.self]
    simp [Thread.Owns,hpc,Pc.owns]
  · intro b hb
    cases hb
    exact hlocked
  · intro _ hset
    cases hset

theorem owner_none (h : Inv s ws) (hlocked : s.locked = false) : s.owner = none := by
  have := h.locked
  rw [hlocked] at this
  simpa using this.symm

theorem setOwner (h : Inv s ws) (pc : Pc) (hexp : s.self.pc.expects = some false)
    (hlevel : pc.Level s.self.preemptLevel) (hrel : pc ≠ .unlockEnter ∧ pc ≠ .unlockClear)
    (hwaiting : pc.waiting = s.self.pc.waiting) (howns : pc.owns = true) (hexpects : pc.expects = none) :
    ∃ s', mutexSetOwner s s.current = .ok s' ∧ Inv (s'.goto pc) ws := by
  have hlocked : s.locked = false := h.expects false hexp
  have hnone := h.owner_none hlocked
  refine ⟨_,mutexSetOwner_eq hnone hlocked _,?_⟩
  refine h.update (x := { s.self with pc := pc })
    ⟨rfl,rfl,h.running,⟨hlevel,fun hp => ?_⟩,h.ring,?_,fun _ _ => Iff.rfl,
    h.waiterThread,rfl,?_,fun t ht => ?_,by simp [hexpects],fun hl => by cases hl⟩
  · rcases hp with hp | hp
    · exact absurd hp hrel.1
    · exact absurd hp hrel.2
  · rw [hwaiting]
    exact h.waiting s.current
  · simp [Thread.Owns,howns,State.goto,State.modify]
  · simp [hnone,State.goto,State.modify,Ne.symm ht]

/-- `mutex_clear_owner`, called by the owner. The next statement wakes the first waiter. -/
theorem clearOwner (h : Inv s ws) (hpc : s.self.pc = .unlockClear) :
    ∃ s', mutexClearOwner s = .ok s' ∧ Inv (s'.goto .unlockWakeup) ws := by
  have howner : s.owner = some s.current := (h.owner s.current).mpr
    (.inr (by rw [← State.self,hpc]; rfl))
  have hlocked : s.locked = true := by rw [h.locked,howner]; rfl
  have hfits := h.fits s.current
  rw [← State.self] at hfits
  have hlevel := hfits.level
  have hrel := hfits.released (.inr hpc)
  rw [hpc] at hlevel
  refine ⟨_,mutexClearOwner_eq howner hlocked,?_⟩
  refine h.update (x := { s.self with pc := .unlockWakeup })
    ⟨rfl,rfl,h.running,⟨hlevel,by simp⟩,h.ring,?_,
    fun _ _ => Iff.rfl,h.waiterThread,rfl,?_,fun t ht => ?_,by simp [Pc.expects],fun _ hset => by
      cases hset⟩
  · refine (h.waiting s.current).trans ?_
    rw [← State.self,hpc]
    rfl
  · simp [Thread.Owns,hrel,Pc.owns,State.goto,State.modify]
  · simp [howner,State.goto,State.modify,Ne.symm ht]

theorem states (h : Inv s ws) {thread : T → Thread}
    (hkeep : ∀ u, thread u = { s.thread u with state := (thread u).state })
    (hrun : (thread s.current).state = .running)
    (hfirst : s.locked = false → s.self.pc.settles = false →
      ∀ t ∈ ws.head?, (thread t).state = .running) : Inv { s with thread := thread } ws := by
  have hpc : ∀ u, (thread u).pc = (s.thread u).pc := fun u => by rw [hkeep u]
  have hhold : ∀ u, (thread u).holding = (s.thread u).holding := fun u => by rw [hkeep u]
  have hlevel : ∀ u, (thread u).preemptLevel = (s.thread u).preemptLevel := fun u => by rw [hkeep u]
  refine ⟨hrun,h.ring,fun t => ?_,h.waiterThread,h.locked,fun t => ?_,fun t => ⟨?_,?_⟩,
    fun t ht => ?_,?_,?_⟩
  · rw [hpc]
    exact h.waiting t
  · rw [Thread.Owns,hpc,hhold]
    exact h.owner t
  · rw [hpc,hlevel]
    exact (h.fits t).level
  · rw [hpc,hhold]
    exact (h.fits t).released
  · rw [hpc]
    exact h.rests t ht
  · rw [State.self,hpc]
    exact h.expects
  · rw [State.self,hpc]
    exact hfirst

theorem wakeup (h : Inv s ws) (t : T) : Inv (s.modify t fun th => { th with state := .running }) ws := by
  have hrun : ∀ u, (s.thread u).state = .running →
      ((s.modify t fun th => { th with state := .running }).thread u).state = .running := by
    intro u hu
    rw [modify_thread]
    split
    · rfl
    · exact hu
  refine h.states (fun u => ?_) (hrun _ h.running) fun hl hset u hu => hrun u (h.first hl hset u hu)
  by_cases hu : u = t
  · simp [hu]
  · simp [hu]

theorem threadWakeup (h : Inv s ws) (t : T) :
    Inv (threadWakeup s t) ws ∧ ((Mutex.threadWakeup s t).thread t).state = .running ∧
      (Mutex.threadWakeup s t).current = s.current ∧ (Mutex.threadWakeup s t).self.pc = s.self.pc ∧
      (Mutex.threadWakeup s t).self.preemptLevel = s.self.preemptLevel := by
  unfold Mutex.threadWakeup
  split
  · next ht =>
    subst ht
    exact ⟨h,h.running,rfl,rfl,rfl⟩
  · next ht =>
    refine ⟨h.wakeup t,by simp [modify_thread],rfl,?_,?_⟩
    · simp [State.self,State.modify,Function.update_of_ne (Ne.symm ht)]
    · simp [State.self,State.modify,Function.update_of_ne (Ne.symm ht)]

theorem wakeupFirst (h : Inv s ws) (hpc : s.self.pc = .unlockWakeup) :
    ∃ s', mutexWakeupFirst s = .ok s' ∧ Inv (s'.goto .unlockLeave) ws := by
  have hlevel := (h.fits s.current).level
  rw [← State.self,hpc] at hlevel
  -- What is left to do once the first waiter runs.
  have hleave : ∀ {s' : State T}, Inv s' ws → s'.self.pc = .unlockWakeup →
      s'.self.preemptLevel = s.self.preemptLevel → (∀ t ∈ ws.head?, (s'.thread t).state = .running) →
      Inv (s'.goto .unlockLeave) ws := by
    intro s' h' hpc' hl hfirst
    refine h'.update (x := { s'.self with pc := .unlockLeave })
      ⟨rfl,rfl,h'.running,⟨?_,by simp⟩,h'.ring,?_,fun _ _ => Iff.rfl,
      h'.waiterThread,h'.locked,?_,fun _ _ => Iff.rfl,by simp [Pc.expects],fun _ _ t ht _ => hfirst t ht⟩
    · rw [hl]
      exact hlevel
    · refine (h'.waiting s'.current).trans ?_
      rw [← State.self,hpc']
      rfl
    · refine (h'.owner s'.current).trans ?_
      rw [← State.self]
      simp [Thread.Owns,hpc',Pc.owns]
  unfold mutexWakeupFirst
  cases ws with
  | nil =>
    have hempty := (listEmpty_iff h.ring).mpr rfl
    exact ⟨s,by rw [if_pos hempty]; rfl,hleave h hpc rfl (by simp)⟩
  | cons w ws =>
    have hempty : listEmpty s.links .waiters ≠ true := fun he => by
      simpa using (listEmpty_iff h.ring).mp he
    have hfirst : listFirst s.links .waiters = .waiter w := IsRing.next_head h.ring
    obtain ⟨hw,hrun,-,hpc',hl⟩ := h.threadWakeup w
    refine ⟨Mutex.threadWakeup s w,?_,hleave hw (hpc'.trans hpc) hl (by simpa using hrun)⟩
    rw [if_neg hempty,hfirst]
    change Except.ok (Mutex.threadWakeup s (s.waiterThread w)) = _
    rw [h.waiterThread w (by simp)]

theorem switch (h : Inv s ws) {next : T} (hrest : s.self.pc.Rests)
    (hrun : (s.thread next).state = .running) : Inv { s with current := next } ws := by
  have hnext : (s.thread next).pc.Rests := by
    by_cases hn : next = s.current
    · rw [hn]
      exact hrest
    · exact h.rests next hn
  refine ⟨hrun,h.ring,h.waiting,h.waiterThread,h.locked,h.owner,h.fits,fun t ht => ?_,?_,
    fun hl _ => h.first hl hrest.settles⟩
  · by_cases htc : t = s.current
    · rw [htc]
      exact hrest
    · exact h.rests t htc
  · intro b hb
    change b ∈ (s.thread next).pc.expects at hb
    simp [hnext.expects] at hb

theorem sleep (h : Inv s ws) {next : T} (hrest : s.self.pc.Rests)
    (hlocked : s.self.pc.waiting = true → s.locked = true) :
    Checks (threadSleep s next) fun s' => s'.self.state = .running → Inv s' ws := by
  refine checks_assert fun _ => checks_assert fun _ hrun => ?_
  have hne : next ≠ s.current := by
    rintro rfl
    simp [State.self,State.modify] at hrun
  have hnext : (s.thread next).state = .running := by
    simpa [State.self,State.modify,hne] using hrun
  refine (h.switch hrest hnext).states (fun u => ?_) hrun fun hl _ t ht => ?_
  · by_cases hu : u = s.current
    · simp [modify_thread,hu]
    · simp [modify_thread,hu]
  · have htc : t ≠ s.current := by
      rintro rfl
      have hw := (h.waiting s.current).mp (List.mem_of_mem_head? ht)
      exact absurd ((hlocked hw).symm.trans hl) (by simp)
    rw [modify_thread,if_neg htc]
    exact h.first hl hrest.settles t ht

/-! ## Steps -/

theorem level_self (h : Inv s ws) {pc : Pc} (hpc : s.self.pc = pc) : pc.Level s.self.preemptLevel := by
  have := (h.fits s.current).level
  rwa [← State.self,hpc] at this

theorem exec (h : Inv s ws) (next : T) :
    Checks (exec s next) fun s' => s'.self.state = .running → ∃ ws', Inv s' ws' := by
  unfold Mutex.exec
  cases hpc : s.self.pc with
  | own => exact fun _ => ⟨ws,h⟩
  | lockEnter =>
    have hl : s.self.preemptLevel = 0 := h.level_self hpc
    refine Safe.bind (preemptDisable_spec s) ?_
    rintro _ ⟨hne,rfl⟩ _
    exact ⟨ws,h.setLevel_goto (by rw [hl]; rfl) (by simp) (by rw [hpc]; rfl) (by rw [hpc]; rfl) rfl
      (by rw [hpc]; rfl)⟩
  | lockTest | lockRetest | tryTest =>
    have hl := h.level_self hpc
    refine fun _ => ⟨ws,?_⟩
    cases hlocked : s.locked with
    | false | true =>
      exact h.goto hl (by simp) (by rw [hpc]; rfl) (by rw [hpc]; rfl) (by simp [Pc.expects,hlocked])
        (by rw [hpc]; rfl)
  | lockQueue => exact fun _ => ⟨_,h.waiterInsert hpc⟩
  | lockSleep =>
    have hl := h.level_self hpc
    have hlocked : s.locked = true := h.expects true (by rw [hpc]; rfl)
    have hgoto : Inv (s.goto .lockRetest) ws :=
      h.goto hl (by simp) (by rw [hpc]; rfl) (by rw [hpc]; rfl) (by simp [Pc.expects]) (by rw [hpc]; rfl)
    have hself : (s.goto .lockRetest).self.pc = .lockRetest := by
      simp [State.self,State.goto,State.modify]
    exact (hgoto.sleep (.inr hself) fun _ => hlocked).mono fun s' hs' hrun => ⟨ws,hs' hrun⟩
  | lockDequeue => exact fun _ => ⟨_,h.waiterRemove hpc⟩
  | lockSetOwner =>
    have hl := h.level_self hpc
    obtain ⟨s₁,h₁,hs₁⟩ := h.setOwner .lockLeave (by rw [hpc]; rfl) hl (by simp)
      (by rw [hpc]; rfl) rfl rfl
    rw [h₁]
    exact fun _ => ⟨ws,hs₁⟩
  | lockLeave | unlockLeave =>
    refine Safe.bind (preemptEnable_spec s) ?_
    rintro _ ⟨-,rfl⟩ _
    exact ⟨ws,h.setLevel_goto trivial (by simp) (by rw [hpc]; rfl) (by rw [hpc]; rfl) rfl
      (by rw [hpc]; rfl)⟩
  | lockReturn =>
    refine fun _ => ⟨ws,h.move rfl h.running ⟨trivial,by simp⟩ (by rw [hpc]; rfl) ?_
      (by simp [Pc.expects]) (.inl (by rw [hpc]; rfl))⟩
    simp [Thread.Owns,hpc,Pc.owns]
  | tryEnter =>
    refine Safe.bind (preemptDisable_spec s) ?_
    rintro _ ⟨hne,rfl⟩ _
    exact ⟨ws,h.setLevel_goto hne (by simp) (by rw [hpc]; rfl) (by rw [hpc]; rfl) rfl (by rw [hpc]; rfl)⟩
  | trySetOwner =>
    have hl := h.level_self hpc
    obtain ⟨s₁,h₁,hs₁⟩ := h.setOwner (.tryLeave false) (by rw [hpc]; rfl) hl (by simp)
      (by rw [hpc]; rfl) rfl rfl
    rw [h₁]
    exact fun _ => ⟨ws,hs₁⟩
  | tryLeave busy =>
    refine Safe.bind (preemptEnable_spec s) ?_
    rintro _ ⟨-,rfl⟩ _
    refine ⟨ws,h.setLevel_goto trivial (by simp) (by rw [hpc]; rfl) ?_ rfl (by rw [hpc]; rfl)⟩
    rw [hpc]
    cases busy <;> rfl
  | tryReturn busy =>
    refine fun _ => ⟨ws,h.move rfl h.running ⟨trivial,by simp⟩ (by rw [hpc]; rfl) ?_
      (by simp [Pc.expects]) (.inl (by rw [hpc]; rfl))⟩
    change ((s.self.holding || !busy) = true ∨ _) ↔ _
    cases busy <;> simp [Thread.Owns,hpc,Pc.owns]
  | unlockEnter =>
    have hrel := (h.fits s.current).released (.inl hpc)
    refine Safe.bind (preemptDisable_spec s) ?_
    rintro _ ⟨hne,rfl⟩ _
    exact ⟨ws,h.setLevel_goto hne (fun _ => hrel) (by rw [hpc]; rfl) (by rw [hpc]; rfl) rfl
      (by rw [hpc]; rfl)⟩
  | unlockClear =>
    obtain ⟨s₁,h₁,hs₁⟩ := h.clearOwner hpc
    rw [h₁]
    exact fun _ => ⟨ws,hs₁⟩
  | unlockWakeup =>
    obtain ⟨s₁,h₁,hs₁⟩ := h.wakeupFirst hpc
    rw [h₁]
    exact fun _ => ⟨ws,hs₁⟩

theorem call (h : Inv s ws) {th : Thread} (hpc : s.self.pc = .own) (hcall : Call s.self th) :
    Inv (s.modify s.current fun _ => th) ws := by
  cases hcall with
  | lock hlevel hhold =>
    refine h.move rfl h.running ⟨hlevel,by simp⟩ (by rw [hpc]; rfl) ?_ (by simp [Pc.expects])
      (.inl (by rw [hpc]; rfl))
    simp [Thread.Owns,hpc,Pc.owns]
  | trylock =>
    refine h.move rfl h.running ⟨trivial,by simp⟩ (by rw [hpc]; rfl) ?_ (by simp [Pc.expects])
      (.inl (by rw [hpc]; rfl))
    simp [Thread.Owns,hpc,Pc.owns]
  | unlock hhold =>
    refine h.move rfl h.running ⟨trivial,fun _ => rfl⟩ (by rw [hpc]; rfl) ?_ (by simp [Pc.expects])
      (.inl (by rw [hpc]; rfl))
    simp [Thread.Owns,hhold,Pc.owns]

theorem setLevel (h : Inv s ws) (hpc : s.self.pc = .own) (level : ℕ) : Inv (s.setLevel level) ws := by
  refine h.move rfl h.running ?_ rfl Iff.rfl ?_ (.inl (by rw [hpc]; rfl))
  · change Thread.Fits { s.self with preemptLevel := level }
    exact ⟨by rw [hpc]; trivial,by simp [hpc]⟩
  · change ∀ b ∈ s.self.pc.expects, _
    simp [hpc,Pc.expects]

end Inv

theorem Step.inv {s s' : State T} (hstep : Step s s') {ws : List T} (h : Inv s ws) :
    ∃ ws', Inv s' ws' := by
  cases hstep with
  | exec next _ hexec hrun => exact (h.exec next).of_ok hexec hrun
  | call hpc hcall => exact ⟨ws,h.call hpc hcall⟩
  | disable hpc hd =>
    obtain ⟨-,rfl⟩ := (preemptDisable_spec s).of_ok hd
    exact ⟨ws,h.setLevel hpc _⟩
  | enable hpc he =>
    obtain ⟨-,rfl⟩ := (preemptEnable_spec s).of_ok he
    exact ⟨ws,h.setLevel hpc _⟩
  | sleep next hpc hs hrun =>
    exact ⟨ws,(h.sleep (.inl (by rw [hpc]; rfl)) (by simp [hpc,Pc.waiting])).of_ok hs hrun⟩
  | preempt next hlevel hrun =>
    refine ⟨ws,h.switch (Pc.rests_of_level ?_) hrun⟩
    have := (h.fits s.current).level
    rwa [← State.self,hlevel] at this
  | wakeup t => exact ⟨ws,h.wakeup t⟩

theorem Initial.inv {s : State T} (h : Initial s) : Inv s [] := by
  obtain ⟨s₀,hnone,rfl⟩ := h.zeroed
  refine ⟨h.running,isList_listInit independent_links trivial,fun t => ?_,by simp,?_,fun t => ?_,
    fun t => ⟨?_,?_⟩,fun t _ => .inl ?_,?_,by simp⟩
  · simp [(h.own t).1,Pc.waiting]
  · simp [mutexInit,hnone]
  · simp [Thread.Owns,(h.own t).1,(h.own t).2,Pc.owns,show (mutexInit s₀).owner = none from hnone]
  · rw [(h.own t).1]
    trivial
  · simp [(h.own t).1]
  · rw [(h.own t).1]
    rfl
  · rw [State.self,(h.own _).1]
    simp [Pc.expects]

theorem Reachable.inv {s : State T} (h : Reachable s) : ∃ ws, Inv s ws := by
  induction h with
  | init hi => exact ⟨[],hi.inv⟩
  | step _ hstep ih =>
    obtain ⟨ws,h⟩ := ih
    exact hstep.inv h

end X1.Mutex
