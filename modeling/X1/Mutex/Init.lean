import Mathlib.Logic.Relation
import X1.Mutex.Invariant

/-! # Mutexes in memory of any content

`mutex_init` makes the list of waiters empty and clears `locked`, but it leaves `owner`
to what the memory held before. The mutexes of the kernel are static, hence zeroed.
Elsewhere the first thread to take the mutex would fail the assertion on its owner.
-/
namespace X1.Mutex
open X1.Lib X1.Ring X1.Checked Relation

/-- Not past the test of `mutex->locked` in `mutex_lock` or `mutex_trylock`, if in a call at all. -/
def Pc.early : Pc → Bool
  | own | lockEnter | lockTest | tryEnter | tryTest => true
  | _ => false

section
variable {T : Type} [DecidableEq T]

def execN (next : T) : ℕ → State T → Except Fault (State T)
  | 0, s => .ok s
  | n + 1, s => exec s next >>= execN next n

/-- No thread has the mutex, and no call of `mutex_lock` or `mutex_trylock` has come further than the test. -/
def Untaken (s : State T) : Prop := ∀ t, (s.thread t).pc.early = true ∧ (s.thread t).holding = false

structure Acquired (s : State T) (t : T) : Prop where
  current : s.current = t
  pc : s.self.pc = .own
  holding : s.self.holding = true
  locked : s.locked = true
  owner : s.owner = some t

/-- In every run from `s` the assertions on the owner hold, and the first call that comes to the test of
`mutex->locked` acquires the mutex. -/
structure Usable (s : State T) : Prop where
  asserts : ∀ {s₁ : State T}, ReflTransGen Step s s₁ → ∀ next, exec s₁ next ≠ .error .owner
  acquires : ∀ {s₁ : State T}, ReflTransGen Step s s₁ → Untaken s₁ →
    s₁.self.pc = .lockTest ∨ s₁.self.pc = .tryTest →
    ∀ next, ∃ s₂, execN next 4 s₁ = .ok s₂ ∧ Acquired s₂ s₁.current

/-! ## Owner NULL -/

theorem Reachable.trans {s s' : State T} (h : Reachable s) (hr : ReflTransGen Step s s') :
    Reachable s' := by
  induction hr with
  | refl => exact h
  | tail _ hstep ih => exact ih.step hstep

theorem Inv.untaken_free {s : State T} {ws : List T} (h : Inv s ws) (hu : Untaken s) :
    s.owner = none ∧ s.locked = false := by
  have hnone : s.owner = none := by
    rw [Option.eq_none_iff_forall_ne_some]
    intro t ht
    obtain ⟨hearly,hholding⟩ := hu t
    rcases (h.owner t).mp ht with ho | ho
    · rw [hholding] at ho
      cases ho
    · generalize (s.thread t).pc = pc at hearly ho
      cases pc <;> simp_all [Pc.early,Pc.owns]
  refine ⟨hnone,?_⟩
  rw [h.locked,hnone]
  rfl

def State.put (s : State T) (th : Thread) (owner : Option T) : State T :=
  { s with thread := Function.update s.thread s.current th, owner := owner, locked := owner.isSome }

@[simp] theorem self_put (s : State T) (th : Thread) (owner : Option T) :
    (s.put th owner).self = th := by
  simp [State.self,State.put]

@[simp] theorem goto_put (s : State T) (th : Thread) (owner : Option T) (pc : Pc) :
    (s.put th owner).goto pc = s.put { th with pc := pc } owner := by
  simp [State.put,State.goto,State.modify]

theorem setOwner_put (s : State T) (th : Thread) :
    mutexSetOwner (s.put th none) s.current = .ok (s.put th (some s.current)) := rfl

theorem enable_put (s : State T) {th : Thread} (owner : Option T) (hlevel : th.preemptLevel ≠ 0) :
    threadPreemptEnable (s.put th owner) =
      .ok (s.put { th with preemptLevel := th.preemptLevel - 1 } owner) := by
  unfold threadPreemptEnable
  simp only [self_put,decide_eq_true hlevel]
  change Except.ok _ = _
  simp [State.put,State.setLevel,State.modify]

theorem execN_succ {s s' : State T} {next : T} (h : exec s next = .ok s') (n : ℕ) :
    execN next (n + 1) s = execN next n s' := by
  rw [execN,h]
  rfl

theorem exec_setOwner (s : State T) {th : Thread} (next : T)
    (hpc : th.pc = .lockSetOwner ∨ th.pc = .trySetOwner) :
    exec (s.put th none) next =
      .ok (s.put { th with pc := if th.pc = .lockSetOwner then .lockLeave else .tryLeave false }
        (some s.current)) := by
  have hset := setOwner_put s th
  rcases hpc with hpc | hpc
  · simp only [exec,self_put,hpc]
    rw [show (s.put th none).current = s.current from rfl,hset]
    exact congrArg Except.ok (goto_put s th _ _)
  · simp only [exec,self_put,hpc]
    rw [show (s.put th none).current = s.current from rfl,hset]
    exact congrArg Except.ok (goto_put s th _ _)

theorem exec_leave (s : State T) {th : Thread} (owner : Option T) (next : T)
    (hpc : th.pc = .lockLeave ∨ th.pc = .tryLeave false) (hlevel : th.preemptLevel ≠ 0) :
    exec (s.put th owner) next = .ok (s.put { th with
      pc := if th.pc = .lockLeave then .lockReturn else .tryReturn false
      preemptLevel := th.preemptLevel - 1 } owner) := by
  rcases hpc with hpc | hpc
  · simp only [exec,self_put,hpc,enable_put s owner hlevel]
    exact congrArg Except.ok (goto_put s _ _ _)
  · simp only [exec,self_put,hpc,enable_put s owner hlevel]
    exact congrArg Except.ok (goto_put s _ _ _)

theorem exec_return (s : State T) {th : Thread} (owner : Option T) (next : T)
    (hpc : th.pc = .lockReturn ∨ th.pc = .tryReturn false) :
    exec (s.put th owner) next = .ok (s.put { th with pc := .own, holding := true } owner) := by
  rcases hpc with hpc | hpc
  · simp [exec,hpc,State.put,State.modify,State.self,pure,Except.pure]
  · simp [exec,hpc,State.put,State.modify,State.self,pure,Except.pure]

/-- From the test to the return: the mutex is free, and preemption is disabled until it is taken. -/
theorem execN_take {s : State T} (hfree : s.owner = none ∧ s.locked = false)
    (hlevel : s.self.preemptLevel ≠ 0) (hpc : s.self.pc = .lockTest ∨ s.self.pc = .tryTest)
    (next : T) : execN next 4 s =
      .ok (s.put { s.self with pc := .own, holding := true, preemptLevel := s.self.preemptLevel - 1 }
        (some s.current)) := by
  have hgoto : ∀ pc, s.goto pc = s.put { s.self with pc := pc } none := by
    intro pc
    rw [State.put,Option.isSome_none,← hfree.1,← hfree.2]
    rfl
  rcases hpc with hpc | hpc
  · have htest : exec s next = .ok (s.put { s.self with pc := .lockSetOwner } none) := by
      rw [← hgoto,exec,hpc,hfree.2]
      rfl
    apply (execN_succ htest 3).trans
    apply (execN_succ (exec_setOwner s next (.inl rfl)) 2).trans
    apply (execN_succ (exec_leave s _ next (.inl rfl) (by exact hlevel)) 1).trans
    exact execN_succ (exec_return s _ next (.inl rfl)) 0
  · have htest : exec s next = .ok (s.put { s.self with pc := .trySetOwner } none) := by
      rw [← hgoto,exec,hpc,hfree.2]
      rfl
    apply (execN_succ htest 3).trans
    apply (execN_succ (exec_setOwner s next (.inr rfl)) 2).trans
    apply (execN_succ (exec_leave s _ next (.inr rfl) (by exact hlevel)) 1).trans
    exact execN_succ (exec_return s _ next (.inr rfl)) 0

/-- In zeroed storage the mutex starts free, and the invariant of the mutex does the rest. -/
theorem Initial.usable {s : State T} (h : Initial s) : Usable s := by
  constructor
  · intro s₁ hr next
    obtain ⟨ws,hinv⟩ := ((Reachable.init h).trans hr).inv
    exact (hinv.exec next).ne_error (by simp)
  · intro s₁ hr hu hpc next
    obtain ⟨ws,hinv⟩ := ((Reachable.init h).trans hr).inv
    have hlevel : s₁.self.preemptLevel ≠ 0 := by
      rcases hpc with hpc | hpc
      · have hone : s₁.self.preemptLevel = 1 := hinv.level_self hpc
        omega
      · exact hinv.level_self hpc
    refine ⟨_,execN_take (hinv.untaken_free hu) hlevel hpc next,rfl,?_,?_,rfl,rfl⟩
    · rw [self_put]
    · rw [self_put]

/-! ## Any other owner -/

theorem trylock_fails {s : State T} {u : T} (howner : s.owner = some u) (hlocked : s.locked = false)
    (hpc : s.self.pc = .own) (hrun : s.self.state = .running)
    (hlevel : (s.self.preemptLevel + 1) % 2 ^ 32 ≠ 0) :
    ∃ s', ReflTransGen Step s s' ∧ ∀ next, exec s' next = .error .owner := by
  let level := (s.self.preemptLevel + 1) % 2 ^ 32
  let s₁ := s.goto .tryEnter
  let s₂ := (s₁.setLevel level).goto .tryTest
  have hself₁ : s₁.self = { s.self with pc := .tryEnter } := by
    simp [s₁,State.self,State.goto,State.modify]
  have hself₂ : s₂.self = { s.self with pc := .tryTest, preemptLevel := level } := by
    simp [s₂,s₁,State.self,State.goto,State.modify,State.setLevel]
  have henter : exec s₁ s.current = .ok s₂ := by
    simp only [exec,hself₁,threadPreemptDisable,decide_eq_true hlevel]
    rfl
  have htest : exec s₂ s.current = .ok (s₂.goto .trySetOwner) := by
    simp only [exec,hself₂,show s₂.locked = false from hlocked]
    rfl
  have hself₃ : (s₂.goto .trySetOwner).self = { s₂.self with pc := .trySetOwner } := by
    simp [State.self,State.goto,State.modify]
  refine ⟨s₂.goto .trySetOwner,?_,?_⟩
  · have hcall : Step s s₁ := Step.call hpc Call.trylock
    apply ((ReflTransGen.single hcall).tail (Step.exec s.current _ henter _)).tail
      (Step.exec s.current _ htest _)
    · simp [hself₁]
    · rw [hself₂]
      exact hrun
    · simp [hself₂]
    · rw [hself₃,hself₂]
      exact hrun
  · intro next
    simp only [exec,hself₃,mutexSetOwner,show (s₂.goto .trySetOwner).owner = some u from howner]
    rfl

/-- The first call fails, after a `thread_preempt_enable` should the thread be at the highest level. -/
theorem not_usable {s : State T} {u : T} (howner : s.owner = some u) (hlocked : s.locked = false)
    (hpc : s.self.pc = .own) (hrun : s.self.state = .running) : ¬Usable s := by
  intro h
  by_cases hlevel : (s.self.preemptLevel + 1) % 2 ^ 32 = 0
  · have hne : s.self.preemptLevel ≠ 0 := by omega
    have henable : Step s (s.setLevel (s.self.preemptLevel - 1)) := by
      apply Step.enable hpc
      rw [threadPreemptEnable,decide_eq_true hne]
      rfl
    have hself : (s.setLevel (s.self.preemptLevel - 1)).self =
        { s.self with preemptLevel := s.self.preemptLevel - 1 } := by
      simp [State.self,State.setLevel,State.modify]
    obtain ⟨s',hr,he⟩ := trylock_fails (s := s.setLevel (s.self.preemptLevel - 1)) howner hlocked
      (by rw [hself]; exact hpc) (by rw [hself]; exact hrun) (by rw [hself]; simp only; omega)
    exact h.asserts (hr.head henable) s.current (he s.current)
  · obtain ⟨s',hr,he⟩ := trylock_fails howner hlocked hpc hrun hlevel
    exact h.asserts hr s.current (he s.current)

/-- `mutex_init` makes a usable mutex of the memory if and only if the owner it finds there is NULL. -/
theorem init_usable_iff (s : State T) (hown : ∀ t, (s.thread t).pc = .own ∧ (s.thread t).holding = false)
    (hrun : s.self.state = .running) : Usable (mutexInit s) ↔ s.owner = none := by
  constructor
  · intro h
    rw [Option.eq_none_iff_forall_ne_some]
    intro u hu
    exact not_usable (s := mutexInit s) hu rfl (hown _).1 hrun h
  · intro h
    exact Initial.usable ⟨hown,hrun,s,h,rfl⟩

end

def fresh (owner : Option ℕ) : State ℕ where
  thread := fun _ => ⟨.running,0,.own,false⟩
  current := 0
  waiterThread := id
  links := ⟨fun _ => .waiter 7,fun _ => .waiter 7⟩
  locked := true
  owner := owner

theorem init_usable_null : Usable (mutexInit (fresh none)) :=
  (init_usable_iff (fresh none) (fun _ => ⟨rfl,rfl⟩) rfl).mpr rfl

theorem stale_owner_unusable : ¬Usable (mutexInit (fresh (some 5))) :=
  not_usable (s := mutexInit (fresh (some 5))) rfl rfl rfl rfl

end X1.Mutex
