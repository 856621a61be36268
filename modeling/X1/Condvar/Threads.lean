import X1.Condvar.Invariant

/-! # What the statements of condvar.c do to the threads

For code that calls the functions: a statement moves the current thread within its
call or back to its own code, a thread comes back from `condvar_wait` with the mutex,
and waiters that are not marked come from in front of the list alone.
-/
namespace X1.Condvar
open X1.Lib X1.Checked X1.Mutex
variable {T : Type}

namespace Pc

@[simp] def inside : Pc T → Option Func
  | own => none
  | waitInit | waitEnter | waitUnlock | waitUnlocking | waitQueue | waitSleep | waitRetest | waitDequeue =>
    some .wait
  | waitLeave | waitLock | waitLocking => some .wait
  | signalEnter | signalFirst | signalVisit _ | signalLeave => some .signal
  | broadcastEnter | broadcastFirst | broadcastVisit _ | broadcastLeave => some .broadcast

/-- In `condvar_wait`, in front of the list. -/
@[simp] def early : Pc T → Bool
  | waitInit | waitEnter | waitUnlock | waitUnlocking | waitQueue => true
  | _ => false

/-- Where a thread can go on from a place in a function. -/
structure Goes (pc pc' : Pc T) : Prop where
  inside : pc' = own ∨ pc'.inside = pc.inside
  early : pc'.early = true → pc.early = true
  waiting : pc'.waiting = true → pc.waiting = true ∨ pc = waitQueue
  ends : pc' = own → pc = signalLeave ∨ pc = broadcastLeave ∨ pc = waitLocking

theorem goes_iff {pc pc' : Pc T} :
    pc.Goes pc' ↔ (pc' = own ∨ pc'.inside = pc.inside) ∧ (pc'.early = true → pc.early = true) ∧
    (pc'.waiting = true → pc.waiting = true ∨ pc = waitQueue) ∧
    (pc' = own → pc = signalLeave ∨ pc = broadcastLeave ∨ pc = waitLocking) :=
  ⟨fun h => ⟨h.inside,h.early,h.waiting,h.ends⟩,fun h => ⟨h.1,h.2.1,h.2.2.1,h.2.2.2⟩⟩

theorem goes_self {pc : Pc T} (h : pc ≠ own) : pc.Goes pc := ⟨.inr rfl,id,.inl,fun ho => absurd ho h⟩

theorem Fits.own_of_inside {pc : Pc T} {th : Thread} (h : pc.Fits th) (hown : pc ≠ own)
    (hwait : pc.inside ≠ some .wait) : th.pc = .own := by
  cases pc <;> first | exact h | exact h.1 | exact absurd rfl hwait | exact absurd rfl hown

end Pc

variable [DecidableEq T]

/-- In `mutex_lock`, or holding the mutex. -/
def Locked (th : Thread) : Prop := th.pc.locks = true ∨ th.pc = .own ∧ th.holding = true

/-- What a step that is not a call does to the threads. -/
structure Local (s s' : State T) : Prop where
  frame : Frame s.mutex s'.mutex
  others : ∀ t, t ≠ s.current → s'.pc t = s.pc t
  own : s.pc s.current = .own → s'.pc s.current = .own ∧
    (Locked s.mutex.self → Locked (s'.mutex.thread s.current)) ∧
    (s.mutex.self.pc = .own → (s'.mutex.thread s.current).pc = .own ∧
      (s'.mutex.thread s.current).holding = s.mutex.self.holding)
  goes : s.pc s.current ≠ .own → (s.pc s.current).Goes (s'.pc s.current)
  wakes : s.pc s.current ≠ .own → (s.pc s.current).inside ≠ some .wait →
    (s'.mutex.thread s.current).pc = .own ∧ (s'.mutex.thread s.current).holding = s.mutex.self.holding
  waited : s.pc s.current = .waitLocking → s'.pc s.current = .own →
    (s'.mutex.thread s.current).pc = .own ∧ (s'.mutex.thread s.current).holding = true
  unmarked : ∀ t, (s'.pc t).waiting = true → s'.awaken t = false → s.awaken t = false
  ends : s'.pc s.current = .own → s'.awaken = s.awaken

theorem Locked.holding {th : Thread} (h : Locked th) (hown : th.pc = .own) : th.holding = true := by
  rcases h with hl | hl
  · rw [hown] at hl
    cases hl
  · exact hl.2

namespace Local
variable {s s' : State T}

theorem inside_of_inside (h : Local s s') {t : T} {f : Func} (ht : (s'.pc t).inside = some f) :
    (s.pc t).inside = some f := by
  by_cases htc : t = s.current
  · subst htc
    have hne : s.pc s.current ≠ .own := fun ho => by simp [(h.own ho).1] at ht
    rcases (h.goes hne).inside with ho | hin
    · simp [ho] at ht
    · exact hin.symm.trans ht
  · rwa [h.others t htc] at ht

theorem early_of_early (h : Local s s') {t : T} (ht : (s'.pc t).early = true) :
    (s.pc t).early = true := by
  by_cases htc : t = s.current
  · subst htc
    have hne : s.pc s.current ≠ .own := fun ho => by simp [(h.own ho).1] at ht
    exact (h.goes hne).early ht
  · rwa [h.others t htc] at ht

end Local

theorem Local.of_goto {s s' : State T} {ws : List T} {pc : Pc T} (h : Inv s ws)
    (hne : s.pc s.current ≠ .own) (hframe : Frame s.mutex s'.mutex)
    (hpc : s'.pc = Function.update s.pc s.current pc) (hgoes : (s.pc s.current).Goes pc)
    (hself : (s.pc s.current).inside ≠ some .wait →
      (s'.mutex.thread s.current).pc = s.mutex.self.pc ∧
    (s'.mutex.thread s.current).holding = s.mutex.self.holding)
    (hwaited : s.pc s.current = .waitLocking → pc = .own → (s'.mutex.thread s.current).pc = .own ∧
      (s'.mutex.thread s.current).holding = true)
    (hunmarked : ∀ t, s'.awaken t = false → s.awaken t = false ∨ t = s.current ∧ pc.waiting = false)
    (hends : pc = .own → s'.awaken = s.awaken) : Local s s' := by
  have hcur : s'.pc s.current = pc := by rw [hpc,Function.update_self]
  refine ⟨hframe,fun t ht => by rw [hpc,Function.update_of_ne ht],fun ho => absurd ho
    hne,fun _ => hcur ▸ hgoes,
    fun _ hw => ?_,fun hp ho => hwaited hp (hcur ▸ ho),fun t hw ha => ?_,fun ho => hends (hcur ▸ ho)⟩
  · obtain ⟨h₁,h₂⟩ := hself hw
    exact ⟨h₁.trans ((h.fits_self rfl).own_of_inside hne hw),h₂⟩
  · refine (hunmarked t ha).resolve_right fun hc => ?_
    rw [hc.1,hcur,hc.2] at hw
    cases hw

theorem Local.of_stay {s s' : State T} {ws : List T} (h : Inv s ws)
    (hframe : Frame s.mutex s'.mutex) (hpc : s'.pc = s.pc) (hawaken : s'.awaken = s.awaken)
    (hself : (s'.mutex.thread s.current).pc = s.mutex.self.pc ∧
      (s'.mutex.thread s.current).holding = s.mutex.self.holding) : Local s s' := by
  refine ⟨hframe,fun t _ => by rw [hpc],fun ho => ⟨by rw [hpc]; exact ho,fun hl => ?_,
    fun ho' => ⟨hself.1.trans ho',hself.2⟩⟩,
    fun hne => ?_,fun hne hw => ⟨hself.1.trans ((h.fits_self rfl).own_of_inside hne hw),hself.2⟩,
      fun hp ho => ?_,fun t _ ha => by rwa [hawaken] at ha,
    fun _ => hawaken⟩
  · rw [Locked,hself.1,hself.2]
    exact hl
  · rw [hpc]
    exact Pc.goes_self hne
  · rw [hpc,hp] at ho
    cases ho

theorem local_mutexExec {s : State T} {m : Mutex.State T} {next : T}
    (hm : Mutex.exec s.mutex next = .ok m) (hpc : s.pc s.current = .own)
    (hown : s.mutex.self.pc ≠ .own) : Local s { s with mutex := m } := by
  obtain ⟨hframe,hmoves,-⟩ := exec_spec hm
  refine ⟨hframe,fun _ _ => rfl,fun _ => ⟨hpc,fun hl => ?_,fun ho => absurd ho hown⟩,
    fun hne => absurd hpc hne,fun hne => absurd hpc hne,fun hp => ?_,fun _ _ ha => ha,fun _ => rfl⟩
  · exact hmoves.locks (hl.resolve_right fun hr => hown hr.1)
  · rw [hpc] at hp
    cases hp

theorem Inv.local_wait {s : State T} {ws : List T} (h : Inv s ws) {m : Mutex.State T} {next : T}
    (hm : Mutex.exec s.mutex next = .ok m) (hwait : (s.pc s.current).inside = some .wait) :
    Local s { s with mutex := m } := by
  have hne : s.pc s.current ≠ .own := fun ho => by
    rw [ho] at hwait
    cases hwait
  exact .of_goto h hne (exec_spec hm).1 (Function.update_eq_self _ _).symm (Pc.goes_self hne)
    (fun hw => absurd hwait hw)
    (fun _ ho => absurd ho hne) (fun _ ha => .inl ha) fun _ => rfl

theorem Inv.local_goto {s s' : State T} {ws : List T} (h : Inv s ws) {p pc : Pc T}
    (hpc : s.pc s.current = p) (hplaces : p ≠ .own ∧ p ≠ .waitLocking ∧ p.Goes pc)
    (hpc' : s'.pc = Function.update s.pc s.current pc) (hframe : Frame s.mutex s'.mutex)
    (hawaken : s'.awaken = s.awaken)
    (hself : p.inside ≠ some .wait → (s'.mutex.thread s.current).pc = s.mutex.self.pc ∧
      (s'.mutex.thread s.current).holding = s.mutex.self.holding) : Local s s' := by
  subst hpc
  obtain ⟨hne,hlock,hgoes⟩ := hplaces
  exact .of_goto h hne hframe hpc' hgoes hself (fun hp => absurd hp hlock)
    (fun t ha => .inl (hawaken ▸ ha)) fun _ => hawaken

theorem Inv.local_same {s s' : State T} {ws : List T} (h : Inv s ws) {p pc : Pc T}
    (hpc : s.pc s.current = p) (hplaces : p ≠ .own ∧ p ≠ .waitLocking ∧ p.Goes pc)
    (hpc' : s'.pc = Function.update s.pc s.current pc) (hmutex : s'.mutex = s.mutex)
    (hawaken : s'.awaken = s.awaken) : Local s s' := by
  refine h.local_goto hpc hplaces hpc' ?_ hawaken fun _ => ?_
  · rw [hmutex]
    exact Inv.frame_self _
  · rw [hmutex]
    exact ⟨rfl,rfl⟩

theorem frame_disable {m m' : Mutex.State T} (h : threadPreemptDisable m = .ok m') :
    Frame m m' ∧ m'.current = m.current ∧ (m'.thread m.current).pc = m.self.pc ∧
    (m'.thread m.current).holding = m.self.holding := by
  rw [(of_threadPreemptDisable h).2]
  refine ⟨.of_update rfl,rfl,?_,?_⟩ <;> simp [State.setLevel,State.modify,Mutex.State.self]

theorem frame_enable {m m' : Mutex.State T} (h : threadPreemptEnable m = .ok m') :
    Frame m m' ∧ m'.current = m.current ∧ (m'.thread m.current).pc = m.self.pc ∧
    (m'.thread m.current).holding = m.self.holding := by
  rw [(of_threadPreemptEnable h).2]
  refine ⟨.of_update rfl,rfl,?_,?_⟩ <;> simp [State.setLevel,State.modify,Mutex.State.self]

theorem Inv.local_disable {s : State T} {ws : List T} (h : Inv s ws) {p pc : Pc T}
    {m : Mutex.State T} (hpc : s.pc s.current = p)
    (hplaces : p ≠ .own ∧ p ≠ .waitLocking ∧ p.Goes pc)
    (hm : threadPreemptDisable s.mutex = .ok m) :
    Local s (({ s with mutex := m } : State T).goto pc) := by
  obtain ⟨hframe,hcurrent,hself⟩ := frame_disable hm
  exact h.local_goto hpc hplaces (congrArg (Function.update s.pc · _) hcurrent) hframe rfl fun _ => hself

theorem Inv.local_enable {s : State T} {ws : List T} (h : Inv s ws) {p pc : Pc T}
    {m : Mutex.State T} (hpc : s.pc s.current = p)
    (hplaces : p ≠ .own ∧ p ≠ .waitLocking ∧ p.Goes pc) (hm : threadPreemptEnable s.mutex = .ok m) :
    Local s (({ s with mutex := m } : State T).goto pc) := by
  obtain ⟨hframe,hcurrent,hself⟩ := frame_enable hm
  exact h.local_goto hpc hplaces (congrArg (Function.update s.pc · _) hcurrent) hframe rfl fun _ => hself

theorem markWaiter_local (s : State T) {w : T} (e : Event T) :
    Frame s.mutex (s.markWaiter w e).mutex ∧ (s.markWaiter w e).current = s.current ∧
      ((s.markWaiter w e).mutex.thread s.current).pc = s.mutex.self.pc ∧
      ((s.markWaiter w e).mutex.thread s.current).holding = s.mutex.self.holding ∧
      ∀ t, (s.markWaiter w e).awaken t = false → s.awaken t = false := by
  have hpc := congrArg Thread.pc (threadWakeup_thread s.mutex (s.waiterThread w) s.current)
  have hhold := congrArg Thread.holding (threadWakeup_thread s.mutex (s.waiterThread w) s.current)
  refine ⟨frame_threadWakeup _ _,current_threadWakeup _ _,hpc,hhold,fun t ha => ?_⟩
  rw [← Bool.not_eq_true] at ha ⊢
  exact fun ht => ha (Inv.marked_update fun _ => ht)

theorem Inv.local_mark {s : State T} {ws : List T} (h : Inv s ws) {p pc : Pc T} {w : T} {e : Event T}
    (hpc : s.pc s.current = p) (hplaces : p ≠ .own ∧ p ≠ .waitLocking ∧ p.Goes pc) (hpc' : pc ≠ .own) :
    Local s ((s.markWaiter w e).goto pc) := by
  obtain ⟨hframe,hcurrent,hself,hhold,hunmarked⟩ := markWaiter_local s e
  obtain ⟨hne,hlock,hgoes⟩ := hplaces
  subst hpc
  exact .of_goto h hne hframe (congrArg (Function.update s.pc · _) hcurrent) hgoes
    (fun _ => ⟨hself,hhold⟩)
    (fun hp => absurd hp hlock) (fun t ha => .inl (hunmarked t ha)) fun ho => absurd ho hpc'

theorem Inv.exec_local {s s' : State T} {ws : List T} {next : T} (h : Inv s ws)
    (hx : Condvar.exec s next = .ok s') (hout : ¬s.Outside) : Local s s' := by
  have hexec := Executed.of_exec hx
  generalize hpc : s.pc s.current = p at hexec
  cases hexec with
  | own hm => exact local_mutexExec hm hpc fun ho => hout ⟨hpc,ho⟩
  | unlocking _ hm | locking _ hm => exact h.local_wait hm (by rw [hpc]; rfl)
  | waitInit =>
    refine .of_goto h (by simp [hpc]) (Inv.frame_self _) rfl (by simp [hpc,Pc.goes_iff,Pc.waiting])
      (fun _ => ⟨rfl,rfl⟩)
      (fun hp => ?_) (fun t ha => ?_) fun ho => by cases ho
    · rw [hpc] at hp
      cases hp
    · change Function.update s.awaken s.current false t = false at ha
      by_cases ht : t = s.current
      · exact .inr ⟨ht,rfl⟩
      · rw [Function.update_of_ne ht] at ha
        exact .inl ha
  | waitSleep hm =>
    refine h.local_goto hpc (by simp [Pc.goes_iff,Pc.waiting]) rfl ?_ rfl fun hw => absurd rfl hw
    rw [of_threadSleep hm]
    exact .of_update rfl
  | waitEnter hm | signalEnter hm | broadcastEnter hm =>
    exact h.local_disable hpc (by simp [Pc.goes_iff,Pc.waiting]) hm
  | waitLeave hm | signalLeave hm | broadcastLeave hm =>
    exact h.local_enable hpc (by simp [Pc.goes_iff,Pc.waiting]) hm
  | waitUnlock | waitLock =>
    exact h.local_goto hpc (by simp [Pc.goes_iff,Pc.waiting]) rfl (.of_update rfl) rfl
      fun hw => absurd rfl hw
  | unlocked | waitQueue | awakened | asleep | waitDequeue | signalFirst | broadcastFirst =>
    exact h.local_same hpc (by simp [Pc.goes_iff,Pc.waiting]) rfl rfl rfl
  | locked hown =>
    refine .of_goto h (by simp [hpc]) (Inv.frame_self _) rfl
      (by simp [hpc,Pc.goes_iff,Pc.waiting]) (fun _ => ⟨rfl,rfl⟩)
      (fun _ _ => ?_) (fun _ ha => .inl ha) fun _ => rfl
    exact (h.fits_self hpc).resolve_left fun hl => by simp [hown,Mutex.Pc.locks] at hl
  | signalVisit entry =>
    cases entry with
    | waiters => exact h.local_same hpc (by simp [Pc.goes_iff,Pc.waiting]) rfl rfl rfl
    | waiter w =>
      rw [signalBody_waiter]
      split
      · exact h.local_same hpc (by simp [Pc.goes_iff,Pc.waiting]) rfl rfl rfl
      · exact h.local_mark hpc (by simp [Pc.goes_iff,Pc.waiting]) (by simp)
  | broadcastVisit entry =>
    cases entry with
    | waiters => exact h.local_same hpc (by simp [Pc.goes_iff,Pc.waiting]) rfl rfl rfl
    | waiter w =>
      rw [broadcastBody_waiter]
      split
      · exact h.local_same hpc (by simp [Pc.goes_iff,Pc.waiting]) rfl rfl rfl
      · exact h.local_mark hpc (by simp [Pc.goes_iff,Pc.waiting]) (by simp)

theorem Step.local {s s' : State T} {ws : List T} (hstep : Step none s s') (h : Inv s ws) :
    Local s s' := by
  cases hstep with
  | exec next hout hx _ => exact h.exec_local hx hout
  | disable hout hm =>
    obtain ⟨hframe,-,hself⟩ := frame_disable hm
    exact .of_stay h hframe rfl rfl hself
  | enable hout hm =>
    obtain ⟨hframe,-,hself⟩ := frame_enable hm
    exact .of_stay h hframe rfl rfl hself
  | sleep next hout hm _ =>
    rw [of_threadSleep hm]
    refine .of_stay h (.of_update rfl) rfl rfl ?_
    simp [State.current,Mutex.State.modify,Mutex.State.self]
  | preempt next _ _ =>
    exact .of_stay h (.of_update (Function.update_eq_self _ _).symm) rfl rfl ⟨rfl,rfl⟩
  | wakeup t =>
    have hpc := congrArg Thread.pc (wakeup_thread s.mutex t s.current).1
    have hhold := congrArg Thread.holding (wakeup_thread s.mutex t s.current).1
    exact .of_stay h (frame_wakeup s.mutex t) rfl rfl ⟨hpc,hhold⟩

end X1.Condvar
