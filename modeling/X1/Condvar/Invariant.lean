import X1.Condvar.Model
import X1.Mutex.Threads

/-! # The invariant of a condition variable

The waiters in the list are the threads in the sleep loop of `condvar_wait`, and their
marks are those of a sound history. As in mutex.c, only the current thread can be at a
place where preemption is disabled, but for one that sleeps in the loop. A step is a
step of the mutex with a change of place, or edits the list or a mark.
-/
namespace X1.Condvar
open X1.Lib X1.Ring X1.Checked X1.Mutex
variable {T : Type}

namespace Pc

def waiting : Pc T → Bool
  | waitSleep | waitRetest | waitDequeue => true
  | _ => false

def prepared : Pc T → Bool
  | waitEnter | waitUnlock | waitUnlocking | waitQueue | waitSleep | waitRetest | waitDequeue => true
  | _ => false

def busy : Pc T → Bool
  | waitUnlock | waitUnlocking | waitQueue | waitSleep | waitDequeue | waitLeave => true
  | signalFirst | signalVisit _ | signalLeave | broadcastFirst | broadcastVisit _ | broadcastLeave =>
    true
  | _ => false

/-- What is known about the mark of the thread. -/
def expects : Pc T → Option Bool
  | waitEnter | waitUnlock | waitUnlocking | waitQueue | waitSleep => some false
  | waitDequeue => some true
  | _ => none

/-- What the place says about the thread in mutex.c. -/
def Fits (th : Thread) : Pc T → Prop
  | own => True
  | waitInit | waitEnter => th.pc = .own ∧ th.preemptLevel = 0 ∧ th.holding = true
  | waitUnlock => th.pc = .own ∧ th.preemptLevel = 1 ∧ th.holding = true
  | waitUnlocking => th.Unlocking 1
  | waitQueue | waitSleep | waitRetest | waitDequeue | waitLeave =>
    th.pc = .own ∧ th.preemptLevel = 1 ∧ th.holding = false
  | waitLock => th.pc = .own ∧ th.preemptLevel = 0 ∧ th.holding = false
  | waitLocking => th.pc.locks = true ∨ th.pc = .own ∧ th.holding = true
  | signalEnter | broadcastEnter => th.pc = .own
  | signalFirst | signalVisit _ | signalLeave | broadcastFirst | broadcastVisit _ | broadcastLeave =>
    th.pc = .own ∧ th.preemptLevel ≠ 0

/-- How far a loop over the list has come: the waiters passed are marked. -/
def Walk (ws : List T) (awaken : T → Bool) : Pc T → Prop
  | signalVisit entry | broadcastVisit entry =>
    ∃ l₁ l₂, ws = l₁ ++ l₂ ∧ (∀ t ∈ l₁, awaken t = true) ∧ entry = (l₂.map Node.waiter).headD .waiters
  | signalLeave => ∀ t ∈ ws.head?, awaken t = true
  | broadcastLeave => ∀ t ∈ ws, awaken t = true
  | _ => True

theorem walk_of_not_busy {ws : List T} {awaken : T → Bool} {pc : Pc T} (h : pc.busy = false) :
    pc.Walk ws awaken := by
  cases pc <;> trivial

theorem Walk.mono {ws : List T} {awaken awaken' : T → Bool} {pc : Pc T} (h : pc.Walk ws awaken)
    (hle : ∀ t, awaken t = true → awaken' t = true) : pc.Walk ws awaken' := by
  cases pc with
  | signalVisit entry | broadcastVisit entry =>
    obtain ⟨l₁,l₂,hws,hmarked,hentry⟩ := h
    exact ⟨l₁,l₂,hws,fun t ht => hle t (hmarked t ht),hentry⟩
  | signalLeave | broadcastLeave => exact fun t ht => hle t (h t ht)
  | _ => trivial

theorem Fits.not_busy {pc : Pc T} {th : Thread} (h : pc.Fits th) (hlevel : th.preemptLevel = 0) :
    pc.busy = false := by
  cases pc <;> first | rfl | simp_all [Fits,Thread.Unlocking]
  split at h <;> simp_all

theorem Fits.congr {pc : Pc T} {th : Thread} {st : ThreadState} (h : pc.Fits th) :
    pc.Fits { th with state := st } := by
  cases pc <;> exact h

end Pc

variable [DecidableEq T]

/-- `ws` are the threads whose waiters are linked, in the order of the list. -/
structure Inv (s : State T) (ws : List T) : Prop where
  mutex : Mutex.Reachable s.mutex
  ring : IsList s.links .waiters (ws.map .waiter)
  waiting : ∀ t, t ∈ ws ↔ (s.pc t).waiting = true
  waiterThread : ∀ t, (s.pc t).prepared = true → s.waiterThread t = t
  expects : ∀ t, ∀ b ∈ (s.pc t).expects, s.awaken t = b
  fits : ∀ t, (s.pc t).Fits (s.mutex.thread t)
  rests : ∀ t, t ≠ s.current → (s.pc t).busy = false
  awake : ∀ t ∈ ws, s.awaken t = true → (s.mutex.thread t).state = .running
  walk : (s.pc s.current).Walk ws s.awaken
  log : replay s.log = ws.map fun t => (t,s.awaken t)
  sound : Sound s.log

def State.markWaiter (s : State T) (w : T) (e : Event T) : State T :=
  { s with
    mutex := threadWakeup s.mutex (s.waiterThread w)
    awaken := Function.update s.awaken w true
    log := s.log ++ [e] }

theorem signalBody_waiter (s : State T) (w : T) : signalBody s (.waiter w) =
    if s.awaken w then s.goto (.signalVisit (listNext s.links (.waiter w)))
    else (s.markWaiter w (.signal (some w))).goto .signalLeave := by
  by_cases ha : s.awaken w = true <;>
    simp [signalBody,condvarWaiterWakeup,condvarWaiterAwaken,State.markWaiter,State.record,ha]

theorem broadcastBody_waiter (s : State T) (w : T) :
    broadcastBody s (.waiter w) = (if s.awaken w then s else s.markWaiter w (.broadcast w)).goto
    (.broadcastVisit (listNext s.links (.waiter w))) := by
  by_cases ha : s.awaken w = true <;>
    simp [broadcastBody,condvarWaiterWakeup,condvarWaiterAwaken,State.markWaiter,State.record,ha]

/-! ## Steps of the mutex -/

/-- The current thread goes on at the place `pc`, after a change that concerns no other waiter. -/
structure Update (s s' : State T) (ws ws' : List T) (pc : Pc T) : Prop where
  mutex : Mutex.Reachable s'.mutex
  frame : Frame s.mutex s'.mutex
  place : s'.pc = Function.update s.pc s.current pc
  current : s'.current = s.current ∨ pc.busy = false
  ring : IsList s'.links .waiters (ws'.map .waiter)
  waiting : s.current ∈ ws' ↔ pc.waiting = true
  waiting_others : ∀ t, t ≠ s.current → (t ∈ ws' ↔ t ∈ ws)
  prepared : pc.prepared = true → s'.waiterThread s.current = s.current
  others : ∀ t, t ≠ s.current → s'.waiterThread t = s.waiterThread t ∧ s'.awaken t = s.awaken t
  expects : ∀ b ∈ pc.expects, s'.awaken s.current = b
  fits : pc.Fits (s'.mutex.thread s.current)
  awake : s.current ∈ ws' → s'.awaken s.current = true → (s'.mutex.thread s.current).state = .running
  walk : pc.Walk ws' s'.awaken
  log : replay s'.log = ws'.map fun t => (t,s'.awaken t)
  sound : Sound s'.log

theorem Inv.update {s s' : State T} {ws ws' : List T} {pc : Pc T} (h : Inv s ws)
    (hu : Update s s' ws ws' pc) : Inv s' ws' := by
  have hpc : ∀ t, t ≠ s.current → s'.pc t = s.pc t := fun t ht => by
    rw [hu.place,Function.update_of_ne ht]
  have hself : s'.pc s.current = pc := by rw [hu.place,Function.update_self]
  refine ⟨hu.mutex,hu.ring,fun t => ?_,fun t => ?_,fun t => ?_,fun t => ?_,fun t ht => ?_,
    fun t ht ha => ?_,?_,hu.log,hu.sound⟩
  · by_cases ht : t = s.current
    · rw [ht,hself]
      exact hu.waiting
    · rw [hpc t ht,hu.waiting_others t ht]
      exact h.waiting t
  · by_cases ht : t = s.current
    · rw [ht,hself]
      exact hu.prepared
    · rw [hpc t ht,(hu.others t ht).1]
      exact h.waiterThread t
  · by_cases ht : t = s.current
    · rw [ht,hself]
      exact hu.expects
    · rw [hpc t ht,(hu.others t ht).2]
      exact h.expects t
  · by_cases ht : t = s.current
    · rw [ht,hself]
      exact hu.fits
    · rw [hpc t ht,hu.frame.thread t ht]
      exact (h.fits t).congr
  · by_cases htc : t = s.current
    · rw [htc,hself]
      exact hu.current.resolve_left fun hc => ht (htc.trans hc.symm)
    · rw [hpc t htc]
      exact h.rests t htc
  · by_cases htc : t = s.current
    · subst htc
      exact hu.awake ht ha
    · rw [(hu.others t htc).2] at ha
      exact hu.frame.running t htc (h.awake t ((hu.waiting_others t htc).mp ht) ha)
  · by_cases hc : s'.current = s.current
    · rw [hc,hself]
      exact hu.walk
    · rw [hpc _ hc]
      exact Pc.walk_of_not_busy (h.rests _ hc)

/-- The current thread can go on at this place, as far as its waiter and the list are concerned. -/
structure Pc.Follows (s : State T) (ws : List T) (pc : Pc T) : Prop where
  waiting : pc.waiting = (s.pc s.current).waiting
  prepared : pc.prepared = true → s.waiterThread s.current = s.current
  expects : ∀ b ∈ pc.expects, s.awaken s.current = b
  walk : pc.Walk ws s.awaken

omit [DecidableEq T] in
/-- The thread needs nothing of its waiter at the new place. -/
theorem Pc.Follows.idle {s : State T} {ws : List T} {pc : Pc T}
    (hwaiting : pc.waiting = (s.pc s.current).waiting) (hprepared : pc.prepared = false)
    (hexpects : pc.expects = none) (hwalk : pc.Walk ws s.awaken) : pc.Follows s ws :=
  ⟨hwaiting,by simp [hprepared],by simp [hexpects],hwalk⟩

/-- The mutex makes a step, and the current thread goes on at another place. -/
theorem Inv.advance {s : State T} {ws : List T} {m : Mutex.State T} {pc : Pc T} (h : Inv s ws)
    (hm : Mutex.Reachable m) (hframe : Frame s.mutex m)
    (hcurrent : m.current = s.current ∨ pc.busy = false)
    (hstate : s.current ∈ ws → s.awaken s.current = true → (m.thread s.current).state = .running)
    (hfits : pc.Fits (m.thread s.current)) (hpc : pc.Follows s ws) :
    Inv { s.goto pc with mutex := m } ws := by
  refine h.update ⟨hm,hframe,rfl,hcurrent,h.ring,?_,fun _ _ => Iff.rfl,hpc.prepared,
    fun _ _ => ⟨rfl,rfl⟩,hpc.expects,hfits,hstate,hpc.walk,h.log,h.sound⟩
  rw [hpc.waiting]
  exact h.waiting s.current

/-! ## What a statement leaves -/

/-- The state after the statement at each place. -/
inductive Executed (s : State T) (next : T) : Pc T → State T → Prop where
  | own {m : Mutex.State T} : Mutex.exec s.mutex next = .ok m →
    Executed s next .own { s with mutex := m }
  | waitInit : Executed s next .waitInit ((condvarWaiterInit s s.current s.current).goto .waitEnter)
  | waitEnter {m : Mutex.State T} : threadPreemptDisable s.mutex = .ok m →
      Executed s next .waitEnter (({ s with mutex := m } : State T).goto .waitUnlock)
  | waitUnlock : Executed s next .waitUnlock ((enterMutex s .unlockEnter).goto .waitUnlocking)
  | unlocked : s.mutex.self.pc = .own → Executed s next .waitUnlocking (s.goto .waitQueue)
  | unlocking {m : Mutex.State T} : s.mutex.self.pc ≠ .own → Mutex.exec s.mutex next = .ok m →
      Executed s next .waitUnlocking { s with mutex := m }
  | waitQueue :
      Executed s next .waitQueue (((condvarWaiterInsert s).record (.queued s.current)).goto .waitSleep)
  | waitSleep {m : Mutex.State T} : threadSleep s.mutex next = .ok m →
      Executed s next .waitSleep { s.goto .waitRetest with mutex := m }
  | awakened : s.awaken s.current = true → Executed s next .waitRetest (s.goto .waitDequeue)
  | asleep : s.awaken s.current = false → Executed s next .waitRetest (s.goto .waitSleep)
  | waitDequeue :
      Executed s next .waitDequeue (((condvarWaiterRemove s).record (.left s.current)).goto .waitLeave)
  | waitLeave {m : Mutex.State T} : threadPreemptEnable s.mutex = .ok m →
      Executed s next .waitLeave (({ s with mutex := m } : State T).goto .waitLock)
  | waitLock : Executed s next .waitLock ((enterMutex s .lockEnter).goto .waitLocking)
  | locked : s.mutex.self.pc = .own → Executed s next .waitLocking (s.goto .own)
  | locking {m : Mutex.State T} : s.mutex.self.pc ≠ .own → Mutex.exec s.mutex next = .ok m →
      Executed s next .waitLocking { s with mutex := m }
  | signalEnter {m : Mutex.State T} : threadPreemptDisable s.mutex = .ok m →
      Executed s next .signalEnter (({ s with mutex := m } : State T).goto .signalFirst)
  | signalFirst : Executed s next .signalFirst (s.goto (.signalVisit (listFirst s.links .waiters)))
  | signalVisit (entry : Node T) : Executed s next (.signalVisit entry) (signalBody s entry)
  | signalLeave {m : Mutex.State T} : threadPreemptEnable s.mutex = .ok m →
      Executed s next .signalLeave (({ s with mutex := m } : State T).goto .own)
  | broadcastEnter {m : Mutex.State T} : threadPreemptDisable s.mutex = .ok m →
      Executed s next .broadcastEnter (({ s with mutex := m } : State T).goto .broadcastFirst)
  | broadcastFirst : Executed s next .broadcastFirst
    (s.goto (.broadcastVisit (listFirst s.links .waiters)))
  | broadcastVisit (entry : Node T) : Executed s next (.broadcastVisit entry) (broadcastBody s entry)
  | broadcastLeave {m : Mutex.State T} : threadPreemptEnable s.mutex = .ok m →
      Executed s next .broadcastLeave (({ s with mutex := m } : State T).goto .own)

theorem Executed.of_exec {s s' : State T} {next : T} (h : exec s next = .ok s') :
    Executed s next (s.pc s.current) s' := by
  unfold exec at h
  cases hpc : s.pc s.current with
  | own | waitEnter | waitSleep | waitLeave | signalEnter | signalLeave | broadcastEnter | broadcastLeave =>
    rw [hpc] at h
    obtain ⟨m,hm,h⟩ := bind_eq_ok h
    rw [← Except.ok.inj h]
    constructor
    exact hm
  | waitUnlocking | waitLocking =>
    rw [hpc] at h
    dsimp only at h
    split at h
    · next hown =>
      rw [← Except.ok.inj h]
      constructor
      exact hown
    · next hown =>
      obtain ⟨m,hm,h⟩ := bind_eq_ok h
      rw [← Except.ok.inj h]
      constructor
      · exact hown
      · exact hm
  | waitRetest =>
    rw [hpc] at h
    rw [← Except.ok.inj h,condvarWaiterAwaken]
    cases ha : s.awaken s.current with
    | true => exact .awakened ha
    | false => exact .asleep ha
  | waitInit | waitUnlock | waitQueue | waitDequeue | waitLock | signalFirst | signalVisit
  | broadcastFirst | broadcastVisit =>
    rw [hpc] at h
    rw [← Except.ok.inj h]
    constructor

namespace Inv
variable {s s' : State T} {ws : List T}

theorem fits_self (h : Inv s ws) {pc : Pc T} (hpc : s.pc s.current = pc) : pc.Fits s.mutex.self := by
  have := h.fits s.current
  rwa [hpc] at this

theorem follows (h : Inv s ws) {p pc : Pc T} (hpc : s.pc s.current = p)
    (hwaiting : pc.waiting = p.waiting) (hprepared : pc.prepared = p.prepared)
    (hexpects : pc.expects = p.expects) (hwalk : pc.Walk ws s.awaken) : pc.Follows s ws := by
  subst hpc
  refine ⟨hwaiting,fun hp => ?_,?_,hwalk⟩
  · exact h.waiterThread _ (hprepared.symm.trans hp)
  · rw [hexpects]
    exact h.expects s.current

/-- The mutex makes a step that changes the current thread alone. -/
theorem change (h : Inv s ws) {m : Mutex.State T} {th : Thread} {pc : Pc T} (hm : Mutex.Reachable m)
    (hthread : m.thread = Function.update s.mutex.thread s.current th) (hcurrent : m.current = s.current)
    (hstate : th.state = s.mutex.self.state) (hfits : pc.Fits th) (hpc : pc.Follows s ws) :
    Inv (({ s with mutex := m } : State T).goto pc) ws := by
  have hself : m.thread s.current = th := by rw [hthread,Function.update_self]
  have hinv : Inv { s.goto pc with mutex := m } ws :=
    h.advance hm (.of_update hthread) (.inl hcurrent)
      (fun hw ha => by rw [hself,hstate]; exact h.awake _ hw ha) (by rw [hself]; exact hfits) hpc
  have heq : ({ s with mutex := m } : State T).goto pc = { s.goto pc with mutex := m } := by
    change ({ s with mutex := m, pc := Function.update s.pc m.current pc } : State T) = _
    rw [hcurrent]
    rfl
  rw [heq]
  exact hinv

theorem goto (h : Inv s ws) {pc : Pc T} (hfits : pc.Fits s.mutex.self) (hpc : pc.Follows s ws) :
    Inv (s.goto pc) ws :=
  h.change h.mutex (Function.update_eq_self _ _).symm rfl rfl hfits hpc

theorem disable (h : Inv s ws) {m : Mutex.State T} {pc : Pc T}
    (hm : threadPreemptDisable s.mutex = .ok m) (hown : s.mutex.self.pc = .own)
    (hfits : ∀ level, level ≠ 0 → level = (s.mutex.self.preemptLevel + 1) % 2 ^ 32 →
      pc.Fits { s.mutex.self with preemptLevel := level }) (hpc : pc.Follows s ws) :
    Inv (({ s with mutex := m } : State T).goto pc) ws := by
  have hreach : Mutex.Reachable m := .step h.mutex (.disable hown hm)
  obtain ⟨hne,rfl⟩ := of_threadPreemptDisable hm
  exact h.change hreach rfl rfl rfl (hfits _ hne rfl) hpc

theorem enable (h : Inv s ws) {m : Mutex.State T} {pc : Pc T}
    (hm : threadPreemptEnable s.mutex = .ok m) (hown : s.mutex.self.pc = .own)
    (hfits : pc.Fits { s.mutex.self with preemptLevel := s.mutex.self.preemptLevel - 1 })
    (hpc : pc.Follows s ws) : Inv (({ s with mutex := m } : State T).goto pc) ws := by
  have hreach : Mutex.Reachable m := .step h.mutex (.enable hown hm)
  obtain ⟨-,rfl⟩ := of_threadPreemptEnable hm
  exact h.change hreach rfl rfl rfl hfits hpc

theorem enterMutex (h : Inv s ws) {mpc : Mutex.Pc} {pc : Pc T} (hown : s.mutex.self.pc = .own)
    (hcall : Mutex.Call s.mutex.self { s.mutex.self with pc := mpc, holding := false })
    (hfits : pc.Fits { s.mutex.self with pc := mpc, holding := false }) (hpc : pc.Follows s ws) :
    Inv ((enterMutex s mpc).goto pc) ws :=
  h.change (.step h.mutex (.call hown hcall)) rfl rfl rfl hfits hpc

theorem stay (h : Inv s ws) {m : Mutex.State T} (hm : Mutex.Reachable m) (hframe : Frame s.mutex m)
    (hcurrent : m.current = s.current ∨ (s.pc s.current).busy = false)
    (hstate : s.current ∈ ws → s.awaken s.current = true → (m.thread s.current).state = .running)
    (hfits : (s.pc s.current).Fits (m.thread s.current)) : Inv { s with mutex := m } ws := by
  have hgoto : s.goto (s.pc s.current) = s := by simp [State.goto]
  have hinv := h.advance hm hframe hcurrent hstate hfits ⟨rfl,h.waiterThread _,h.expects _,h.walk⟩
  rw [hgoto] at hinv
  exact hinv

theorem mutexExec (h : Inv s ws) {m : Mutex.State T} {next : T}
    (hm : Mutex.exec s.mutex next = .ok m) (hown : s.mutex.self.pc ≠ .own)
    (hrun : m.self.state = .running) (hwaiting : (s.pc s.current).waiting = false)
    (hbusy : (s.pc s.current).busy = true → s.mutex.self.pc.locks = false)
    (hfits : s.mutex.self.Moves (m.thread s.current) → (s.pc s.current).Fits (m.thread s.current)) :
    Inv { s with mutex := m } ws := by
  obtain ⟨hframe,hmoves,hcurrent⟩ := exec_spec hm
  refine h.stay (.step h.mutex (.exec next hown hm hrun)) hframe ?_ (fun hw => ?_) (hfits hmoves)
  · rcases hcurrent with hc | hc
    · exact .inl hc
    · refine .inr ?_
      by_contra hb
      have := hbusy (by simpa using hb)
      simp [hc,Pc.locks] at this
  · rw [h.waiting,hwaiting] at hw
    cases hw

/-! ## The list and the marks -/

theorem nodup (h : Inv s ws) : ws.Nodup := List.Nodup.of_map _ (IsRing.nodup_nodes h.ring)

theorem current_not_mem (h : Inv s ws) (hpc : (s.pc s.current).waiting = false) : s.current ∉ ws := by
  rw [h.waiting,hpc]
  simp

theorem frame_self (m : Mutex.State T) : Frame m m := .of_update (Function.update_eq_self _ _).symm

theorem waiterInit (h : Inv s ws) (hpc : s.pc s.current = .waitInit) :
    Inv ((condvarWaiterInit s s.current s.current).goto .waitEnter) ws := by
  have hnot := h.current_not_mem (by rw [hpc]; rfl)
  have hfits := h.fits_self hpc
  refine h.update ⟨h.mutex,frame_self _,rfl,.inl rfl,h.ring,by simp [hnot,Pc.waiting],fun _ _ => Iff.rfl,
    fun _ => Function.update_self _ _ _,fun t ht => ⟨Function.update_of_ne ht _ _,
      Function.update_of_ne ht _ _⟩,
    fun b hb => ?_,hfits,fun hw => absurd hw hnot,trivial,?_,h.sound⟩
  · obtain rfl : false = b := by simpa [Pc.expects] using hb
    exact Function.update_self _ _ _
  · refine h.log.trans (List.map_congr_left fun t ht => ?_)
    change _ = (t,Function.update s.awaken s.current false t)
    rw [Function.update_of_ne fun he : t = s.current => hnot (he ▸ ht)]

theorem waiterInsert (h : Inv s ws) (hpc : s.pc s.current = .waitQueue) :
    Inv (((condvarWaiterInsert s).record (.queued s.current)).goto .waitSleep) (ws ++ [s.current]) := by
  have hnot := h.current_not_mem (by rw [hpc]; rfl)
  have hunmarked : s.awaken s.current = false := h.expects _ false (by rw [hpc]; rfl)
  have hfits := h.fits_self hpc
  refine h.update ⟨h.mutex,frame_self _,rfl,.inl rfl,?_,by simp [Pc.waiting],fun t ht => by simp [ht],
    fun _ => h.waiterThread _ (by rw [hpc]; rfl),fun _ _ => ⟨rfl,rfl⟩,fun b hb => ?_,hfits,
      fun _ ha => ?_,trivial,?_,?_⟩
  · rw [List.map_append]
    exact isList_listInsertTail independent_links (fun _ _ => trivial) trivial h.ring
      (by simpa using hnot)
  · obtain rfl : false = b := by simpa [Pc.expects] using hb
    exact hunmarked
  · exact absurd (hunmarked.symm.trans ha) (by simp)
  · change replay (s.log ++ [.queued s.current]) = (ws ++ [s.current]).map fun t => (t,s.awaken t)
    rw [replay_append,Event.apply,h.log,List.map_append,← hunmarked]
    rfl
  · refine sound_append.mpr ⟨h.sound,?_⟩
    change s.current ∉ (replay s.log).map Prod.fst
    rw [h.log,List.map_map]
    simpa using hnot

theorem waiterRemove (h : Inv s ws) (hpc : s.pc s.current = .waitDequeue) :
    Inv (((condvarWaiterRemove s).record (.left s.current)).goto .waitLeave) (ws.erase s.current) := by
  have hmem : s.current ∈ ws := (h.waiting _).mpr (by rw [hpc]; rfl)
  have hmarked : s.awaken s.current = true := h.expects _ true (by rw [hpc]; rfl)
  have hfits := h.fits_self hpc
  obtain ⟨l,r,hl,hws,herase⟩ := List.exists_erase_eq hmem
  have hnot : s.current ∉ ws.erase s.current := by simp [h.nodup.mem_erase_iff]
  refine h.update ⟨h.mutex,frame_self _,rfl,.inl rfl,?_,by simp [hnot,Pc.waiting],
    fun t ht => by
      simp [h.nodup.mem_erase_iff,ht],fun hp => absurd hp (by simp [Pc.prepared]),
      fun _ _ => ⟨rfl,rfl⟩,by simp [Pc.expects],
    hfits,fun hw => absurd hw hnot,trivial,?_,?_⟩
  · have hring := h.ring
    rw [hws,List.map_append,List.map_cons] at hring
    rw [herase,List.map_append]
    exact isList_listRemove independent_links (fun _ _ => trivial) hring
  · change replay (s.log ++ [.left s.current]) = (ws.erase s.current).map fun t => (t,s.awaken t)
    rw [replay_append,Event.apply,h.log,List.filter_map,h.nodup.erase_eq_filter]
    refine congrArg _ (List.filter_congr fun t _ => ?_)
    by_cases ht : t = s.current <;> simp [ht]
  · refine sound_append.mpr ⟨h.sound,?_⟩
    change (s.current,true) ∈ replay s.log
    rw [h.log,← hmarked]
    exact List.mem_map_of_mem hmem

theorem reachable_threadWakeup {m : Mutex.State T} (h : Mutex.Reachable m) (t : T) :
    Mutex.Reachable (threadWakeup m t) := by
  unfold threadWakeup
  split
  · exact h
  · exact .step h (.wakeup t)

theorem marked_update {f : T → Bool} {w t : T} (h : t ≠ w → f t = true) :
    Function.update f w true t = true := by
  by_cases htw : t = w
  · rw [htw,Function.update_self]
  · rw [Function.update_of_ne htw]
    exact h htw

theorem markWaiter (h : Inv s ws) {w : T} {e : Event T} (hw : w ∈ ws) (hne : w ≠ s.current)
    (he : e.Marks w) (hallowed : e.Allowed (replay s.log)) : Inv (s.markWaiter w e) ws := by
  have hthread : s.waiterThread w = w := h.waiterThread w (by
    have := (h.waiting w).mp hw
    revert this
    cases s.pc w <;> simp [Pc.waiting,Pc.prepared])
  have hrests := h.rests w hne
  have hwaiting := (h.waiting w).mp hw
  have hframe := frame_threadWakeup s.mutex w
  have hcurrent := current_threadWakeup s.mutex w
  have hself : (threadWakeup s.mutex w).thread s.current = s.mutex.self := by
    change (if w = s.current then s.mutex else _ : Mutex.State T).thread s.current = _
    rw [if_neg hne,Mutex.modify_thread,if_neg (Ne.symm hne)]
    rfl
  unfold State.markWaiter
  rw [hthread]
  refine ⟨reachable_threadWakeup h.mutex w,h.ring,h.waiting,h.waiterThread,fun t b hb => ?_,
    fun t => ?_,fun t ht => ?_,fun t ht ha => ?_,?_,?_,sound_append.mpr ⟨h.sound,hallowed⟩⟩
  · have htw : t ≠ w := by
      rintro rfl
      change b ∈ (s.pc t).expects at hb
      revert hb hrests hwaiting
      cases s.pc t <;> simp [Pc.waiting,Pc.busy,Pc.expects]
    change Function.update s.awaken w true t = b
    rw [Function.update_of_ne htw]
    exact h.expects t b hb
  · change (s.pc t).Fits ((threadWakeup s.mutex w).thread t)
    by_cases htc : t = s.current
    · rw [htc,hself]
      exact h.fits s.current
    · rw [hframe.thread t htc]
      exact (h.fits t).congr
  · change t ≠ (threadWakeup s.mutex w).current at ht
    rw [hcurrent] at ht
    exact h.rests t ht
  · change ((threadWakeup s.mutex w).thread t).state = .running
    by_cases htw : t = w
    · rw [htw]
      change ((if w = s.current then s.mutex else _ : Mutex.State T).thread w).state = _
      rw [if_neg hne,Mutex.modify_thread,if_pos rfl]
    · change Function.update s.awaken w true t = true at ha
      rw [Function.update_of_ne htw] at ha
      have hrun := h.awake t ht ha
      by_cases htc : t = s.current
      · rw [htc] at hrun ⊢
        rw [hself]
        exact hrun
      · exact hframe.running t htc hrun
  · change (s.pc (threadWakeup s.mutex w).current).Walk ws (Function.update s.awaken w true)
    rw [hcurrent]
    exact h.walk.mono fun t ht => marked_update fun _ => ht
  · change replay (s.log ++ [e]) = ws.map fun t => (t,Function.update s.awaken w true t)
    have happly : e.apply (replay s.log) = Condvar.mark (replay s.log) w := by
      rcases he with rfl | rfl <;> rfl
    rw [replay_append,happly,h.log,Condvar.mark,List.map_map]
    refine List.map_congr_left fun t _ => ?_
    simp only [Function.comp_apply,Function.update_apply]
    split <;> rfl

theorem unmarked_replay (h : Inv s ws) : unmarked (replay s.log) = ws.filter fun t => !s.awaken t := by
  rw [h.log,unmarked,List.filter_map,List.map_map]
  exact List.map_id' _

theorem record_none (h : Inv s ws) (hmarked : ∀ t ∈ ws, s.awaken t = true) :
    Inv (s.record (.signal none)) ws := by
  refine ⟨h.mutex,h.ring,h.waiting,h.waiterThread,h.expects,h.fits,h.rests,h.awake,h.walk,?_,
    sound_append.mpr ⟨h.sound,?_⟩⟩
  · change replay (s.log ++ [.signal none]) = _
    rw [replay_append]
    exact h.log
  · change none = (unmarked (replay s.log)).head?
    rw [h.unmarked_replay,List.filter_eq_nil_iff.mpr fun t ht => by simp [hmarked t ht]]
    rfl

/-- The loops stop at the head, or at a linked waiter, whose successor comes next. -/
theorem walk_cases (h : Inv s ws) {entry : Node T} {l₁ l₂ : List T} (hws : ws = l₁ ++ l₂)
    (hentry : entry = (l₂.map Node.waiter).headD .waiters) :
    (entry = .waiters ∧ l₂ = []) ∨ ∃ w l, entry = .waiter w ∧ l₂ = w :: l ∧
    listNext s.links (.waiter w) = (l.map Node.waiter).headD .waiters := by
  cases l₂ with
  | nil => exact .inl ⟨hentry,rfl⟩
  | cons w l =>
    refine .inr ⟨w,l,hentry,rfl,?_⟩
    have hring := h.ring
    rw [hws,List.map_append,List.map_cons] at hring
    exact IsRing.next_node hring

omit [DecidableEq T] in
theorem marked_append {f : T → Bool} {l : List T} {w : T} (h : ∀ t ∈ l, f t = true) (hw : f w = true) :
    ∀ t ∈ l ++ [w], f t = true := by
  intro t ht
  rcases List.mem_append.mp ht with ht | ht
  · exact h t ht
  · rw [List.mem_singleton.mp ht]
    exact hw

theorem signalVisit (h : Inv s ws) {entry : Node T} (hpc : s.pc s.current = .signalVisit entry) :
    Inv (signalBody s entry) ws := by
  have hfits := h.fits_self hpc
  have hnot := h.current_not_mem (by rw [hpc]; rfl)
  have hwalk := h.walk
  rw [hpc] at hwalk
  obtain ⟨l₁,l₂,hws,hmarked,hentry⟩ := hwalk
  rcases h.walk_cases hws hentry with ⟨rfl,rfl⟩ | ⟨w,l,rfl,rfl,hnext⟩
  · have hall : ∀ t ∈ ws, s.awaken t = true := by simpa [hws] using hmarked
    refine (h.record_none hall).goto hfits
      (.idle ?_ rfl rfl fun t ht => hall t (List.mem_of_mem_head? ht))
    exact (congrArg Pc.waiting hpc).symm
  · have hw : w ∈ ws := by simp [hws]
    have hne : w ≠ s.current := fun he => hnot (he ▸ hw)
    rw [signalBody_waiter]
    cases ha : s.awaken w with
    | true =>
      rw [if_pos rfl]
      refine h.goto hfits (.idle ?_ rfl rfl ⟨l₁ ++ [w],l,by simp [hws],marked_append hmarked ha,hnext⟩)
      exact (congrArg Pc.waiting hpc).symm
    | false =>
      have hallowed : Event.Allowed (replay s.log) (.signal (some w)) := by
        change some w = (unmarked (replay s.log)).head?
        rw [h.unmarked_replay,hws,List.filter_append,
          List.filter_eq_nil_iff.mpr fun t ht => by simp [hmarked t ht],
          List.nil_append,List.filter_cons_of_pos (by simp [ha])]
        rfl
      rw [if_neg (by simp)]
      have hmark := h.markWaiter hw hne (.inl rfl) hallowed
      have hpc' := (congrArg s.pc (current_threadWakeup s.mutex (s.waiterThread w))).trans hpc
      have hfits' := hmark.fits_self hpc'
      refine hmark.goto hfits' (.idle (congrArg Pc.waiting hpc').symm rfl rfl fun t ht => ?_)
      -- The first waiter of the list is behind the loop, or the one just marked.
      refine marked_update fun htw => ?_
      rw [hws] at ht
      cases l₁ with
      | nil => exact absurd (by simpa using ht.symm) htw
      | cons u l₁ =>
        obtain rfl : u = t := by simpa using ht
        exact hmarked u (by simp)

theorem broadcastVisit (h : Inv s ws) {entry : Node T} (hpc : s.pc s.current = .broadcastVisit entry) :
    Inv (broadcastBody s entry) ws := by
  have hfits := h.fits_self hpc
  have hnot := h.current_not_mem (by rw [hpc]; rfl)
  have hwalk := h.walk
  rw [hpc] at hwalk
  obtain ⟨l₁,l₂,hws,hmarked,hentry⟩ := hwalk
  rcases h.walk_cases hws hentry with ⟨rfl,rfl⟩ | ⟨w,l,rfl,rfl,hnext⟩
  · refine h.goto hfits (.idle (congrArg Pc.waiting hpc).symm rfl rfl fun t ht => hmarked t ?_)
    simpa [hws] using ht
  · have hw : w ∈ ws := by simp [hws]
    have hne : w ≠ s.current := fun he => hnot (he ▸ hw)
    have hwalk : ∀ {awaken : T → Bool}, (∀ t ∈ l₁, awaken t = true) → awaken w = true →
        (Pc.broadcastVisit (listNext s.links (.waiter w))).Walk ws awaken := by
      intro awaken hl₁ ha
      exact ⟨l₁ ++ [w],l,by simp [hws],marked_append hl₁ ha,hnext⟩
    rw [broadcastBody_waiter]
    cases ha : s.awaken w with
    | true =>
      rw [if_pos rfl]
      exact h.goto hfits (.idle (congrArg Pc.waiting hpc).symm rfl rfl (hwalk hmarked ha))
    | false =>
      have hallowed : Event.Allowed (replay s.log) (.broadcast w) := by
        change (w,false) ∈ replay s.log
        rw [h.log,← ha]
        exact List.mem_map_of_mem hw
      rw [if_neg (by simp)]
      have hmark := h.markWaiter hw hne (.inr rfl) hallowed
      have hpc' := (congrArg s.pc (current_threadWakeup s.mutex (s.waiterThread w))).trans hpc
      have hfits' := hmark.fits_self hpc'
      refine hmark.goto hfits' (.idle (congrArg Pc.waiting hpc').symm rfl rfl
        (hwalk (fun t ht => ?_) ?_))
      · exact marked_update fun _ => hmarked t ht
      · exact Function.update_self _ _ _

/-! ## Steps -/

theorem call_lock {th : Thread} (hlevel : th.preemptLevel = 0) (hhold : th.holding = false) :
    Mutex.Call th { th with pc := .lockEnter, holding := false } := by
  obtain ⟨st,level,pc,holding⟩ := th
  obtain rfl : holding = false := hhold
  exact .lock hlevel rfl

theorem sleep (h : Inv s ws) {m : Mutex.State T} {next : T} (hpc : s.pc s.current = .waitSleep)
    (hm : threadSleep s.mutex next = .ok m) (hrun : m.self.state = .running) :
    Inv { s.goto .waitRetest with mutex := m } ws := by
  have hfits := h.fits_self hpc
  have hunmarked : s.awaken s.current = false := h.expects _ false (by rw [hpc]; rfl)
  have hreach : Mutex.Reachable m := .step h.mutex (.sleep next hfits.1 hm hrun)
  rw [of_threadSleep hm] at hreach ⊢
  refine h.advance hreach (.of_update rfl) (.inr rfl) (fun _ ha => ?_) ?_
    ⟨?_,fun _ => ?_,by simp [Pc.expects],trivial⟩
  · exact absurd (hunmarked.symm.trans ha) (by simp)
  · change Pc.waitRetest.Fits (Function.update s.mutex.thread s.mutex.current _ s.mutex.current)
    rw [Function.update_self]
    exact hfits
  · rw [hpc]
    rfl
  · exact h.waiterThread _ (by rw [hpc]; rfl)

theorem exec (h : Inv s ws) {next : T} (hx : exec s next = .ok s') (hout : ¬s.Outside)
    (hrun : s'.mutex.self.state = .running) : ∃ ws', Inv s' ws' := by
  have hexec := Executed.of_exec hx
  generalize hpc : s.pc s.current = p at hexec
  cases hexec with
  | own hm =>
    have hown : s.mutex.self.pc ≠ .own := fun ho => hout ⟨hpc,ho⟩
    refine ⟨ws,h.mutexExec hm hown hrun (by rw [hpc]; rfl) (by simp [hpc,Pc.busy]) fun _ => ?_⟩
    rw [hpc]
    trivial
  | waitInit => exact ⟨ws,h.waiterInit hpc⟩
  | waitEnter hm =>
    obtain ⟨hown,hlevel,hhold⟩ := h.fits_self hpc
    refine ⟨ws,h.disable hm hown (fun level _ hl => ⟨hown,?_,hhold⟩) (h.follows hpc rfl rfl rfl trivial)⟩
    simpa [hlevel] using hl
  | waitUnlock =>
    obtain ⟨hown,hlevel,hhold⟩ := h.fits_self hpc
    exact ⟨ws,h.enterMutex hown (.unlock hhold) ⟨rfl,hlevel⟩ (h.follows hpc rfl rfl rfl trivial)⟩
  | unlocked hown =>
    have hfits : s.mutex.self.holding = false ∧ s.mutex.self.preemptLevel = 1 := by
      simpa [Pc.Fits,Thread.Unlocking,hown] using h.fits_self hpc
    exact ⟨ws,h.goto ⟨hown,hfits.2,hfits.1⟩ (h.follows hpc rfl rfl rfl trivial)⟩
  | unlocking hown hm =>
    have hfits := h.fits_self hpc
    refine ⟨ws,h.mutexExec hm hown hrun (by rw [hpc]; rfl) (fun _ => ?_) fun hmoves => ?_⟩
    · have hu := hfits.2
      revert hu
      cases s.mutex.self.pc <;> simp [Pc.locks]
    · rw [hpc]
      exact hmoves.unlocks 1 (by norm_num) hown hfits
  | waitQueue => exact ⟨_,h.waiterInsert hpc⟩
  | waitSleep hm => exact ⟨ws,h.sleep hpc hm hrun⟩
  | awakened ha | asleep ha =>
    have hfits := h.fits_self hpc
    have hprepared := h.waiterThread s.current (by rw [hpc]; rfl)
    exact ⟨ws,h.goto hfits ⟨by rw [hpc]; rfl,fun _ => hprepared,by simp [Pc.expects,ha],trivial⟩⟩
  | waitDequeue => exact ⟨_,h.waiterRemove hpc⟩
  | waitLeave hm =>
    obtain ⟨hown,hlevel,hhold⟩ := h.fits_self hpc
    exact ⟨ws,h.enable hm hown ⟨hown,by simp [hlevel],hhold⟩ (.idle (by rw [hpc]; rfl) rfl rfl trivial)⟩
  | waitLock =>
    obtain ⟨hown,hlevel,hhold⟩ := h.fits_self hpc
    exact ⟨ws,h.enterMutex hown (call_lock hlevel hhold) (.inl rfl)
      (.idle (by rw [hpc]; rfl) rfl rfl trivial)⟩
  | locked hown => exact ⟨ws,h.goto trivial (.idle (by rw [hpc]; rfl) rfl rfl trivial)⟩
  | locking hown hm =>
    have hfits := h.fits_self hpc
    refine ⟨ws,h.mutexExec hm hown hrun (by rw [hpc]; rfl) (by simp [hpc,Pc.busy]) fun hmoves => ?_⟩
    rw [hpc]
    exact hmoves.locks (hfits.resolve_right fun hr => hown hr.1)
  | signalEnter hm | broadcastEnter hm =>
    have hown := h.fits_self hpc
    exact ⟨ws,h.disable hm hown (fun _ hl _ => ⟨hown,hl⟩) (.idle (by rw [hpc]; rfl) rfl rfl trivial)⟩
  | signalFirst | broadcastFirst =>
    have hfits := h.fits_self hpc
    exact ⟨ws,h.goto hfits (.idle (by rw [hpc]; rfl) rfl rfl
      ⟨[],ws,rfl,by simp,IsRing.next_head h.ring⟩)⟩
  | signalVisit entry => exact ⟨ws,h.signalVisit hpc⟩
  | broadcastVisit entry => exact ⟨ws,h.broadcastVisit hpc⟩
  | signalLeave hm | broadcastLeave hm =>
    exact ⟨ws,h.enable hm (h.fits_self hpc).1 trivial (.idle (by rw [hpc]; rfl) rfl rfl trivial)⟩

theorem outside (h : Inv s ws) {m : Mutex.State T} (hpc : s.pc s.current = .own)
    (hm : Mutex.Step s.mutex m) (hframe : Frame s.mutex m) : Inv { s with mutex := m } ws := by
  have hnot := h.current_not_mem (by rw [hpc]; rfl)
  refine h.stay (.step h.mutex hm) hframe (.inr (by rw [hpc]; rfl)) (fun hw => absurd hw hnot) ?_
  rw [hpc]
  trivial

theorem call (h : Inv s ws) {f : Func} (hout : s.Outside) (hcall : Call f s s') : Inv s' ws := by
  obtain ⟨hpc,hown⟩ := hout
  cases hcall with
  | lock hlevel hhold => exact h.outside hpc (.call hown (call_lock hlevel hhold)) (.of_update rfl)
  | trylock => exact h.outside hpc (.call hown .trylock) (.of_update rfl)
  | unlock hhold => exact h.outside hpc (.call hown (.unlock hhold)) (.of_update rfl)
  | wait hlevel hhold => exact h.goto ⟨hown,hlevel,hhold⟩ (.idle (by rw [hpc]; rfl) rfl rfl trivial)
  | signal => exact h.goto hown (.idle (by rw [hpc]; rfl) rfl rfl trivial)
  | broadcast => exact h.goto hown (.idle (by rw [hpc]; rfl) rfl rfl trivial)

end Inv

theorem Step.call_of_some {f : Func} {s s' : State T} (hstep : Step (some f) s s') :
    s.Outside ∧ Call f s s' := by
  cases hstep with
  | call hout hcall => exact ⟨hout,hcall⟩

theorem Step.inv {f : Option Func} {s s' : State T} (hstep : Step f s s') {ws : List T} (h : Inv s ws) :
    ∃ ws', Inv s' ws' := by
  cases hstep with
  | exec next hout hx hrun => exact h.exec hx hout hrun
  | call hout hcall => exact ⟨ws,h.call hout hcall⟩
  | disable hout hm =>
    refine ⟨ws,h.outside hout.1 (.disable hout.2 hm) ?_⟩
    rw [(of_threadPreemptDisable hm).2]
    exact .of_update rfl
  | enable hout hm =>
    refine ⟨ws,h.outside hout.1 (.enable hout.2 hm) ?_⟩
    rw [(of_threadPreemptEnable hm).2]
    exact .of_update rfl
  | sleep next hout hm hrun =>
    refine ⟨ws,h.outside hout.1 (.sleep next hout.2 hm hrun) ?_⟩
    rw [of_threadSleep hm]
    exact .of_update rfl
  | preempt next hlevel hrun =>
    refine ⟨ws,h.stay (.step h.mutex (.preempt next hlevel hrun)) ?_ (.inr ?_) (h.awake _) (h.fits _)⟩
    · exact .of_update (Function.update_eq_self _ _).symm
    · exact (h.fits _).not_busy hlevel
  | wakeup t =>
    obtain ⟨hthread,hrun⟩ := wakeup_thread s.mutex t s.current
    refine ⟨ws,h.stay (.step h.mutex (.wakeup t)) (frame_wakeup s.mutex t) (.inl rfl)
      (fun hw ha => hrun (h.awake _ hw ha)) ?_⟩
    rw [hthread]
    exact (h.fits _).congr

theorem Initial.inv {s : State T} (h : Initial s) : Inv s [] := by
  obtain ⟨s₀,rfl⟩ := h.init
  refine ⟨.init h.mutex,isList_listInit independent_links trivial,fun t => ?_,fun t ht => ?_,
    fun t b hb => ?_,fun t => ?_,fun t _ => ?_,by simp,?_,?_,?_⟩
  · simp [h.own,Pc.waiting]
  · simp [h.own,Pc.prepared] at ht
  · simp [h.own,Pc.expects] at hb
  · rw [h.own]
    trivial
  · rw [h.own]
    rfl
  · rw [h.own]
    trivial
  · rw [h.log]
    rfl
  · rw [h.log]
    exact sound_nil

theorem Reachable.inv {s : State T} (h : Reachable s) : ∃ ws, Inv s ws := by
  induction h with
  | init hi => exact ⟨[],hi.inv⟩
  | step _ hstep ih =>
    obtain ⟨ws,h⟩ := ih
    exact hstep.inv h

end X1.Condvar
