import X1.Condvar.Threads

/-! # Waiters and setters

The use of a condition variable that condvar.h documents: waiters lock the mutex, wait
in a loop until the predicate is true and unlock the mutex, and setters lock the mutex,
set the predicate, signal or broadcast, and unlock the mutex. A thread does this any
number of times, and anything else in between.
-/
namespace X1.Condvar
open X1.Lib X1.Mutex
variable {T : Type}

inductive Role where
  | waiter | setter
  deriving DecidableEq

/-- What a thread does next, when it is back in its own code. -/
inductive Place where
  /-- nothing, or something else -/
  | out
  /-- `while (!predicate)` -/
  | tests
  /-- `condvar_wait` -/
  | waits
  /-- `mutex_unlock`, for a waiter -/
  | leaves
  /-- `predicate = true` -/
  | stores
  /-- `condvar_signal` or `condvar_broadcast` -/
  | wakes
  /-- `mutex_unlock`, for a setter -/
  | unlocks
  deriving DecidableEq

def Role.enters : Role → Place
  | .waiter => .tests
  | .setter => .stores

structure System (T : Type) where
  cond : State T
  place : T → Place
  predicate : Bool

variable [DecidableEq T]

def System.goto (s : System T) (cond : State T) (place : Place) : System T :=
  { s with cond := cond, place := Function.update s.place s.cond.current place }

/-- The setters wake with `wake`, which is `condvar_signal` or `condvar_broadcast`. -/
inductive System.Step (role : T → Role) (wake : Func) : System T → System T → Prop where
  | other {s : System T} {cond : State T} : Condvar.Step none s.cond cond →
      Step role wake s { s with cond := cond }
  | lock {s : System T} {cond : State T} : s.place s.cond.current = .out →
      Condvar.Step (some .lock) s.cond cond →
      Step role wake s (s.goto cond (role s.cond.current).enters)
  | test {s : System T} : s.place s.cond.current = .tests → s.cond.Outside →
      Step role wake s (s.goto s.cond (if s.predicate then .leaves else .waits))
  | wait {s : System T} {cond : State T} : s.place s.cond.current = .waits →
      Condvar.Step (some .wait) s.cond cond →
      Step role wake s (s.goto cond .tests)
  | store {s : System T} : s.place s.cond.current = .stores → s.cond.Outside →
      Step role wake s { s.goto s.cond .wakes with predicate := true }
  | wake {s : System T} {cond : State T} : s.place s.cond.current = .wakes →
      Condvar.Step (some wake) s.cond cond →
      Step role wake s (s.goto cond .unlocks)
  | unlock {s : System T} {cond : State T} : s.place s.cond.current = .leaves ∨
    s.place s.cond.current = .unlocks →
      Condvar.Step (some .unlock) s.cond cond → Step role wake s (s.goto cond .out)

structure System.Initial (s : System T) : Prop where
  cond : Condvar.Initial s.cond
  place : ∀ t, s.place t = .out
  predicate : s.predicate = false

inductive System.Reachable (role : T → Role) (wake : Func) : System T → Prop where
  | init {s : System T} : s.Initial → Reachable role wake s
  | step {s s' : System T} : Reachable role wake s → System.Step role wake s s' → Reachable role wake s'

/-- The thread has stored the predicate, and its `condvar_signal` or `condvar_broadcast` has not ended. -/
def System.InBetween (s : System T) (t : T) : Prop :=
  s.place t = .wakes ∨ s.place t = .unlocks ∧ s.cond.pc t ≠ .own

/-! ## The invariant -/

/-- What the place of a thread says about where it is in the functions. -/
def Place.Fits (wake : Func) (pc : Pc T) (th : Thread) : Place → Prop
  | out => pc = .own
  | tests => pc.inside = some .wait ∨ pc = .own ∧ Locked th
  | waits | leaves | wakes => pc = .own ∧ th.pc = .own ∧ th.holding = true
  | stores => pc = .own ∧ Locked th
  | unlocks => (pc = .own ∨ pc.inside = some wake) ∧ th.pc = .own ∧ th.holding = true

/-- A waiter does not wait for a predicate that is true: it checks the predicate with the mutex, and is in
the list before a setter can have it. -/
structure System.Inv (role : T → Role) (wake : Func) (s : System T) : Prop where
  reachable : Condvar.Reachable s.cond
  fits : ∀ t, (s.place t).Fits wake (s.cond.pc t) (s.cond.mutex.thread t)
  waiters : ∀ t, (s.cond.pc t).inside = some .wait → role t = .waiter
  waiters_place : ∀ t, s.place t = .tests ∨ s.place t = .waits → role t = .waiter
  false_of_waits : ∀ t, s.place t = .waits ∨ (s.cond.pc t).early = true → s.predicate = false
  marked : s.predicate = true → (∃ t, s.InBetween t) ∨ ∀ t, (s.cond.pc t).waiting = true →
    s.cond.awaken t = true

omit [DecidableEq T] in
theorem Place.Fits.congr {wake : Func} {p : Place} {pc : Pc T} {th : Thread} {st : ThreadState}
    (h : p.Fits wake pc th) : p.Fits wake pc { th with state := st } := by
  cases p <;> exact h

theorem holding_unique {m : Mutex.State T} (h : Mutex.Reachable m) {t u : T}
    (ht : (m.thread t).holding = true) (hu : (m.thread u).holding = true) : t = u := by
  obtain ⟨ws,hinv⟩ := h.inv
  have := ((hinv.owner t).mpr (.inl ht)).symm.trans ((hinv.owner u).mpr (.inl hu))
  exact Option.some.inj this

namespace System.Inv
variable {role : T → Role} {wake : Func} {s s' : System T}

theorem other_fits (h : s.Inv role wake) {cond : State T} (hl : Local s.cond cond)
    (hwait : wake ≠ .wait) (t : T) : (s.place t).Fits wake (cond.pc t) (cond.mutex.thread t) := by
  have hfits := h.fits t
  by_cases ht : t = s.cond.current
  · subst ht
    cases hp : s.place s.cond.current with
    | out =>
      rw [hp] at hfits
      exact (hl.own hfits).1
    | tests =>
      rw [hp] at hfits
      rcases hfits with hin | ⟨hpc,hlocked⟩
      · have hne : s.cond.pc s.cond.current ≠ .own := fun ho => by simp [ho] at hin
        rcases (hl.goes hne).inside with ho | hin'
        · have hlocking : s.cond.pc s.cond.current = .waitLocking := by
            rcases (hl.goes hne).ends ho with he | he | he
            · simp [he] at hin
            · simp [he] at hin
            · exact he
          exact .inr ⟨ho,.inr (hl.waited hlocking ho)⟩
        · exact .inl (hin'.trans hin)
      · exact .inr ⟨(hl.own hpc).1,(hl.own hpc).2.1 hlocked⟩
    | waits | leaves | wakes =>
      rw [hp] at hfits
      obtain ⟨hpc,hmpc,hhold⟩ := hfits
      obtain ⟨hpc',-,hkeep⟩ := hl.own hpc
      exact ⟨hpc',(hkeep hmpc).1,(hkeep hmpc).2.trans hhold⟩
    | stores =>
      rw [hp] at hfits
      exact ⟨(hl.own hfits.1).1,(hl.own hfits.1).2.1 hfits.2⟩
    | unlocks =>
      rw [hp] at hfits
      obtain ⟨hin,hmpc,hhold⟩ := hfits
      by_cases hpc : s.cond.pc s.cond.current = .own
      · obtain ⟨hpc',-,hkeep⟩ := hl.own hpc
        exact ⟨.inl hpc',(hkeep hmpc).1,(hkeep hmpc).2.trans hhold⟩
      · have hin := hin.resolve_left hpc
        obtain ⟨hmpc',hkeep⟩ := hl.wakes hpc (by rw [hin]; simpa using hwait)
        refine ⟨?_,hmpc',hkeep.trans hhold⟩
        rcases (hl.goes hpc).inside with ho | hin'
        · exact .inl ho
        · exact .inr (hin'.trans hin)
  · rw [hl.others t ht,hl.frame.thread t ht]
    exact hfits.congr

/-- A waiter that is in the list and not marked was so before, or has just been queued. -/
theorem other_unmarked (h : s.Inv role wake) {cond : State T} (hl : Local s.cond cond)
    (htrue : s.predicate = true) {t : T} (hw : (cond.pc t).waiting = true)
    (ha : cond.awaken t = false) : (s.cond.pc t).waiting = true ∧ s.cond.awaken t = false := by
  refine ⟨?_,hl.unmarked t hw ha⟩
  by_cases ht : t = s.cond.current
  · subst ht
    have hne : s.cond.pc s.cond.current ≠ .own := fun ho => by
      rw [(hl.own ho).1] at hw
      cases hw
    refine ((hl.goes hne).waiting hw).resolve_right fun hq => ?_
    have := h.false_of_waits s.cond.current (.inr (by rw [hq]; rfl))
    rw [htrue] at this
    cases this
  · rwa [hl.others t ht] at hw

theorem marked_of_ends (h : s.Inv role wake) {cond : State T} (hl : Local s.cond cond)
    (hwake : wake = .broadcast ∨ wake = .signal ∧ ∀ t u, role t = .waiter → role u = .waiter → t = u)
    (hin : (s.cond.pc s.cond.current).inside = some wake) (ho : cond.pc s.cond.current = .own) {t : T}
    (hw : (cond.pc t).waiting = true) : cond.awaken t = true := by
  have hne : s.cond.pc s.cond.current ≠ .own := fun ho => by simp [ho] at hin
  have htc : t ≠ s.cond.current := by
    rintro rfl
    rw [ho] at hw
    cases hw
  rw [hl.others t htc] at hw
  obtain ⟨ws,hinv⟩ := h.reachable.inv
  have hwalk := hinv.walk
  have hmem := (hinv.waiting t).mpr hw
  rw [hl.ends ho]
  rcases hwake with rfl | ⟨rfl,hone⟩
  · have hpc : s.cond.pc s.cond.current = .broadcastLeave := by
      rcases (hl.goes hne).ends ho with he | he | he
      · simp [he] at hin
      · exact he
      · simp [he] at hin
    rw [hpc] at hwalk
    exact hwalk t hmem
  · have hpc : s.cond.pc s.cond.current = .signalLeave := by
      rcases (hl.goes hne).ends ho with he | he | he
      · exact he
      · simp [he] at hin
      · simp [he] at hin
    rw [hpc] at hwalk
    -- the first waiter of the list is marked, and there is no other
    have hrole : ∀ u ∈ ws, role u = .waiter := fun u hu => h.waiters u (by
      have := (hinv.waiting u).mp hu
      revert this
      cases s.cond.pc u <;> simp [Pc.waiting])
    cases ws with
    | nil => cases hmem
    | cons w ws =>
      rw [hone t w (hrole t hmem) (hrole w (by simp))]
      exact hwalk w rfl

theorem other (h : s.Inv role wake)
    (hwake : wake = .broadcast ∨ wake = .signal ∧ ∀ t u, role t = .waiter → role u = .waiter →
      t = u) {cond : State T} (hstep : Condvar.Step none s.cond cond) :
    System.Inv role wake { s with cond := cond } := by
  obtain ⟨ws,hinv⟩ := h.reachable.inv
  have hl := hstep.local hinv
  have hwait : wake ≠ .wait := by
    rcases hwake with rfl | ⟨rfl,-⟩ <;> simp
  refine ⟨.step h.reachable hstep,h.other_fits hl hwait,fun t ht => ?_,h.waiters_place,
    fun t ht => ?_,fun htrue => ?_⟩
  · exact h.waiters t (hl.inside_of_inside ht)
  · exact h.false_of_waits t (ht.imp_right hl.early_of_early)
  · rcases h.marked htrue with ⟨t,hb⟩ | hall
    · rcases hb with hb | ⟨hb,hpc⟩
      · exact .inl ⟨t,.inl hb⟩
      · by_cases ho : cond.pc t = .own
        · refine .inr fun u hu => ?_
          have htc : t = s.cond.current := by
            by_contra htc
            exact hpc (hl.others t htc ▸ ho)
          subst htc
          have hfits := h.fits s.cond.current
          rw [hb] at hfits
          exact h.marked_of_ends hl hwake (hfits.1.resolve_left hpc) ho hu
        · exact .inl ⟨t,.inr ⟨hb,ho⟩⟩
    · refine .inr fun t hw => ?_
      by_contra ha
      obtain ⟨hw',ha'⟩ := h.other_unmarked hl htrue hw (by simpa using ha)
      rw [hall t hw'] at ha'
      cases ha'

theorem client (h : s.Inv role wake) {cond : State T} {p : Place} (hreach : Condvar.Reachable cond)
    (hframe : Frame s.cond.mutex cond.mutex)
    (hothers : ∀ t, t ≠ s.cond.current → cond.pc t = s.cond.pc t)
    (hawaken : cond.awaken = s.cond.awaken) (hown : s.cond.pc s.cond.current = .own)
    (hfits : p.Fits wake (cond.pc s.cond.current) (cond.mutex.thread s.cond.current))
    (hrole : p = .tests ∨ p = .waits ∨ (cond.pc s.cond.current).inside = some .wait →
      role s.cond.current = .waiter)
    (hwaits : p = .waits ∨ (cond.pc s.cond.current).early = true → s.predicate = false)
    (hwaiting : (cond.pc s.cond.current).waiting = false)
    (hbetween : s.place s.cond.current = .wakes → p = .unlocks ∧ cond.pc s.cond.current ≠ .own) :
    System.Inv role wake (s.goto cond p) := by
  have hplace : ∀ t, t ≠ s.cond.current → (s.goto cond p).place t = s.place t :=
    fun t ht => Function.update_of_ne ht _ _
  have hself : (s.goto cond p).place s.cond.current = p := Function.update_self _ _ _
  refine ⟨hreach,fun t => ?_,fun t ht => ?_,fun t ht => ?_,fun t ht => ?_,fun htrue => ?_⟩
  · change ((s.goto cond p).place t).Fits wake (cond.pc t) (cond.mutex.thread t)
    by_cases htc : t = s.cond.current
    · subst htc
      rw [hself]
      exact hfits
    · rw [hplace t htc,hothers t htc,hframe.thread t htc]
      exact (h.fits t).congr
  · change (cond.pc t).inside = some .wait at ht
    by_cases htc : t = s.cond.current
    · subst htc
      exact hrole (.inr (.inr ht))
    · rw [hothers t htc] at ht
      exact h.waiters t ht
  · by_cases htc : t = s.cond.current
    · subst htc
      rw [hself] at ht
      exact hrole (ht.imp_right .inl)
    · rw [hplace t htc] at ht
      exact h.waiters_place t ht
  · change (s.goto cond p).place t = .waits ∨ (cond.pc t).early = true at ht
    by_cases htc : t = s.cond.current
    · subst htc
      rw [hself] at ht
      exact hwaits ht
    · rw [hplace t htc,hothers t htc] at ht
      exact h.false_of_waits t ht
  · rcases h.marked htrue with ⟨t,hb⟩ | hall
    · refine .inl ⟨t,?_⟩
      change (s.goto cond p).place t = .wakes ∨ (s.goto cond p).place t = .unlocks ∧ cond.pc t ≠ .own
      by_cases htc : t = s.cond.current
      · subst htc
        rw [hself]
        exact .inr (hbetween (hb.resolve_right fun hr => hr.2 hown))
      · rw [hplace t htc,hothers t htc]
        exact hb
    · refine .inr fun t hw => ?_
      change (cond.pc t).waiting = true at hw
      change cond.awaken t = true
      have htc : t ≠ s.cond.current := by
        rintro rfl
        rw [hwaiting] at hw
        cases hw
      rw [hothers t htc] at hw
      rw [hawaken]
      exact hall t hw

theorem lock (h : s.Inv role wake) {cond : State T} (hplace : s.place s.cond.current = .out)
    (hstep : Condvar.Step (some .lock) s.cond cond) :
    System.Inv role wake (s.goto cond (role s.cond.current).enters) := by
  have hreach : Condvar.Reachable cond := .step h.reachable hstep
  obtain ⟨⟨hpc,hmpc⟩,hcall⟩ := hstep.call_of_some
  cases hcall with
  | lock hlevel hhold =>
    have hlocked : Locked ((enterMutex s.cond .lockEnter).mutex.thread s.cond.current) := by
      refine .inl ?_
      change (Function.update s.cond.mutex.thread s.cond.current _ s.cond.current).pc.locks = true
      rw [Function.update_self]
      rfl
    refine h.client hreach (.of_update rfl) (fun _ _ => rfl) rfl hpc ?_ (fun hr => ?_) (fun hw => ?_)
      (by rw [show (enterMutex s.cond .lockEnter).pc _ = _ from hpc]; rfl) fun hp => ?_
    · cases role s.cond.current with
      | waiter => exact .inr ⟨hpc,hlocked⟩
      | setter => exact ⟨hpc,hlocked⟩
    · change _ ∨ _ ∨ (s.cond.pc s.cond.current).inside = _ at hr
      rw [hpc] at hr
      cases hrole : role s.cond.current with
      | waiter => rfl
      | setter => simp [hrole,Role.enters] at hr
    · change _ ∨ (s.cond.pc s.cond.current).early = _ at hw
      rw [hpc] at hw
      cases hrole : role s.cond.current with
      | waiter => simp [hrole,Role.enters] at hw
      | setter => simp [hrole,Role.enters] at hw
    · rw [hplace] at hp
      cases hp

theorem test (h : s.Inv role wake) (hplace : s.place s.cond.current = .tests) (hout : s.cond.Outside) :
    System.Inv role wake (s.goto s.cond (if s.predicate then .leaves else .waits)) := by
  obtain ⟨hpc,hmpc⟩ := hout
  have hfits := h.fits s.cond.current
  rw [hplace] at hfits
  have hhold : s.cond.mutex.self.holding = true := by
    rcases hfits with hin | ⟨-,hl⟩
    · simp [hpc] at hin
    · exact hl.holding hmpc
  refine h.client h.reachable (Condvar.Inv.frame_self _) (fun _ _ => rfl) rfl hpc ?_
    (fun _ => h.waiters_place _ (.inl hplace)) (fun hw => ?_)
    (by rw [hpc]; rfl) fun hp => ?_
  · cases s.predicate with
    | true => exact ⟨hpc,hmpc,hhold⟩
    | false => exact ⟨hpc,hmpc,hhold⟩
  · rw [hpc] at hw
    cases htrue : s.predicate with
    | true => simp [htrue] at hw
    | false => rfl
  · rw [hplace] at hp
    cases hp

theorem wait (h : s.Inv role wake) {cond : State T} (hplace : s.place s.cond.current = .waits)
    (hstep : Condvar.Step (some .wait) s.cond cond) : System.Inv role wake (s.goto cond .tests) := by
  have hreach : Condvar.Reachable cond := .step h.reachable hstep
  obtain ⟨⟨hpc,hmpc⟩,hcall⟩ := hstep.call_of_some
  cases hcall with
  | wait hlevel hhold =>
    have hself : (s.cond.goto .waitInit).pc s.cond.current = .waitInit := Function.update_self _ _ _
    refine h.client hreach (Condvar.Inv.frame_self _) (fun t ht => Function.update_of_ne ht _ _) rfl
      hpc (.inl (by rw [hself]; rfl))
      (fun _ => h.waiters_place _ (.inr hplace)) (fun _ => h.false_of_waits _ (.inl hplace))
        (by rw [hself]; rfl) fun hp => ?_
    rw [hplace] at hp
    cases hp

/-- Whoever has the mutex can set the predicate: nobody is on the way into the list. -/
theorem store (h : s.Inv role wake) (hplace : s.place s.cond.current = .stores) (hout : s.cond.Outside) :
    System.Inv role wake { s.goto s.cond .wakes with predicate := true } := by
  obtain ⟨hpc,hmpc⟩ := hout
  have hfits := h.fits s.cond.current
  rw [hplace] at hfits
  have hhold : s.cond.mutex.self.holding = true := hfits.2.holding hmpc
  obtain ⟨ws,hinv⟩ := h.reachable.inv
  have hfree : ∀ t, ¬(s.place t = .waits ∨ (s.cond.pc t).early = true) := by
    intro t ht
    have htc : t ≠ s.cond.current := by
      rintro rfl
      simp [hplace,hpc] at ht
    have hholding : (s.cond.mutex.thread t).holding = true := by
      rcases ht with ht | ht
      · have := h.fits t
        rw [ht] at this
        exact this.2.2
      · have hrests := hinv.rests t htc
        have hfits := hinv.fits t
        revert ht hrests hfits
        cases s.cond.pc t <;> simp [Pc.busy,Pc.Fits]
    exact htc (holding_unique hinv.mutex hholding hhold)
  have hplace' : ∀ t, t ≠ s.cond.current → (s.goto s.cond .wakes).place t = s.place t :=
    fun t ht => Function.update_of_ne ht _ _
  have hself : (s.goto s.cond .wakes).place s.cond.current = .wakes := Function.update_self _ _ _
  refine ⟨h.reachable,fun t => ?_,h.waiters,fun t ht => ?_,fun t ht => ?_,
    fun _ => .inl ⟨s.cond.current,.inl hself⟩⟩
  · change ((s.goto s.cond .wakes).place t).Fits wake (s.cond.pc t) (s.cond.mutex.thread t)
    by_cases htc : t = s.cond.current
    · subst htc
      rw [hself]
      exact ⟨hpc,hmpc,hhold⟩
    · rw [hplace' t htc]
      exact h.fits t
  · change (s.goto s.cond .wakes).place t = .tests ∨ (s.goto s.cond .wakes).place t = .waits at ht
    by_cases htc : t = s.cond.current
    · subst htc
      simp [hself] at ht
    · rw [hplace' t htc] at ht
      exact h.waiters_place t ht
  · change (s.goto s.cond .wakes).place t = .waits ∨ (s.cond.pc t).early = true at ht
    refine absurd ?_ (hfree t)
    by_cases htc : t = s.cond.current
    · subst htc
      exact .inr (ht.resolve_left (by simp [hself]))
    · rwa [hplace' t htc] at ht

theorem wakes (h : s.Inv role wake) (hwake : wake = .signal ∨ wake = .broadcast) {cond : State T}
    (hplace : s.place s.cond.current = .wakes) (hstep : Condvar.Step (some wake) s.cond cond) :
    System.Inv role wake (s.goto cond .unlocks) := by
  have hreach : Condvar.Reachable cond := .step h.reachable hstep
  obtain ⟨⟨hpc,hmpc⟩,hcall⟩ := hstep.call_of_some
  have hfits := h.fits s.cond.current
  rw [hplace] at hfits
  obtain ⟨pc,hin,hwaiting,hearly,rfl⟩ : ∃ pc : Pc T, pc.inside = some wake ∧ pc.waiting = false ∧
    pc.early = false ∧
      cond = s.cond.goto pc := by
    rcases hwake with rfl | rfl
    · cases hcall with
      | signal => exact ⟨.signalEnter,rfl,rfl,rfl,rfl⟩
    · cases hcall with
      | broadcast => exact ⟨.broadcastEnter,rfl,rfl,rfl,rfl⟩
  have hself : (s.cond.goto pc).pc s.cond.current = pc := Function.update_self _ _ _
  refine h.client hreach (Condvar.Inv.frame_self _) (fun t ht => Function.update_of_ne ht _ _) rfl hpc
    ⟨.inr (by rw [hself]; exact hin),hmpc,hfits.2.2⟩ (fun hr => ?_) (fun hw => ?_)
      (by rw [hself]; exact hwaiting) fun _ => ⟨rfl,?_⟩
  · rw [hself,hin] at hr
    rcases hwake with rfl | rfl <;> simp at hr
  · rw [hself,hearly] at hw
    simp at hw
  · rw [hself]
    rintro rfl
    cases hin

theorem unlock (h : s.Inv role wake) {cond : State T}
    (hplace : s.place s.cond.current = .leaves ∨ s.place s.cond.current = .unlocks)
    (hstep : Condvar.Step (some .unlock) s.cond cond) :
    System.Inv role wake (s.goto cond .out) := by
  have hreach : Condvar.Reachable cond := .step h.reachable hstep
  obtain ⟨⟨hpc,hmpc⟩,hcall⟩ := hstep.call_of_some
  cases hcall with
  | unlock hhold =>
    have hpc' : (enterMutex s.cond .unlockEnter).pc s.cond.current = .own := hpc
    refine h.client hreach (.of_update rfl) (fun _ _ => rfl) rfl hpc hpc' (fun hr => ?_)
      (fun hw => ?_) (by rw [hpc']; rfl) fun hp => ?_
    · simp [hpc'] at hr
    · simp [hpc'] at hw
    · rcases hplace with hl | hl <;> rw [hl] at hp <;> cases hp

end System.Inv

theorem System.Step.inv {role : T → Role} {wake : Func} {s s' : System T}
    (hstep : System.Step role wake s s')
    (hwake : wake = .broadcast ∨ wake = .signal ∧ ∀ t u, role t = .waiter → role u = .waiter →
      t = u) (h : s.Inv role wake) : s'.Inv role wake := by
  cases hstep with
  | other hstep => exact h.other hwake hstep
  | lock hplace hstep => exact h.lock hplace hstep
  | test hplace hout => exact h.test hplace hout
  | wait hplace hstep => exact h.wait hplace hstep
  | store hplace hout => exact h.store hplace hout
  | wake hplace hstep => exact h.wakes (hwake.symm.imp_left And.left) hplace hstep
  | unlock hplace hstep => exact h.unlock hplace hstep

theorem System.Reachable.inv {role : T → Role} {wake : Func} {s : System T}
    (h : System.Reachable role wake s)
    (hwake : wake = .broadcast ∨ wake = .signal ∧ ∀ t u, role t = .waiter → role u = .waiter →
      t = u) : s.Inv role wake := by
  induction h with
  | @init s hi =>
    have hpc := hi.cond.own
    refine ⟨.init hi.cond,fun t => ?_,fun t ht => ?_,fun t ht => ?_,fun _ _ => hi.predicate,
      fun htrue => ?_⟩
    · rw [hi.place]
      exact hpc t
    · simp [hpc] at ht
    · simp [hi.place] at ht
    · rw [hi.predicate] at htrue
      cases htrue
  | step _ hstep ih => exact hstep.inv hwake ih

end X1.Condvar
