import X1.Create.Points
import X1.Mem.Layout
import X1.Mutex.Invariant
import X1.Sched.Preempt

/-! # A failed thread_create leaves no trace

Both allocations take `mem_mutex` and give it back, and the heap is left as it was: the first
allocation that fails changes nothing, and when the second one fails the block of the first
is merged back. On the way the preemption level comes back to what it was several times, so
that a yield that was pending is not pending any more when the call is made with preemption
enabled. All else is as before.
-/
namespace X1.Create
open X1.Lib X1.Ring X1.Sched X1.Checked

/-- What the calls below rely on. The first waiter of the mutex runs, so that no wake-up is due. -/
structure Usable (s : System) : Prop where
  level : s.sched.self.preemptLevel < 2 ^ 32
  core : s.sched.self.preemptLevel = 0 → Core s.sched
  first : ∀ w, listFirst s.mutex.waiters Mutex.Node.waiters = .waiter w →
    (s.sched.thread (s.mutex.waiterThread w)).state = .running

variable {L : Mem.Layout} {s s' s₁ : System}

theorem Usable.settled (h : Usable s) (hs : Settled s.sched s'.sched)
    (hwaiters : s'.mutex.waiters = s.mutex.waiters)
    (hthread : s'.mutex.waiterThread = s.mutex.waiterThread) : Usable s' := by
  refine ⟨?_,fun hl => ?_,fun w hw => ?_⟩
  · rw [hs.level]
    exact h.level
  · rw [hs.level] at hl
    exact hs.core (h.core hl)
  · rw [hwaiters] at hw
    rw [hthread,hs.state]
    exact h.first w hw

theorem mutexSetOwner_spec {m m' : MemMutex} {t : Tid} (h : mutexSetOwner m t = .ok m') :
    m' = { m with owner := some t, locked := true } := by
  obtain ⟨-,h⟩ := assert_ok h
  obtain ⟨-,h⟩ := assert_ok h
  cases h
  rfl

theorem mutexClearOwner_spec {m m' : MemMutex} {t : Tid} (h : mutexClearOwner m t = .ok m') :
    m' = { m with owner := none, locked := false } := by
  obtain ⟨-,h⟩ := assert_ok h
  obtain ⟨-,h⟩ := assert_ok h
  cases h
  rfl

theorem mutexLock_spec (h : Usable s) (hlock : mutexLock s = .ok s') :
    Settled s.sched s'.sched ∧ (s.sched.self.preemptLevel = 0 → s'.sched.self.yield = false) ∧
    s'.heap = s.heap ∧ s'.mutex.waiters = s.mutex.waiters ∧
    s'.mutex.waiterThread = s.mutex.waiterThread := by
  obtain ⟨sched,h₁,hlock⟩ := bind_eq_ok hlock
  split at hlock
  · cases hlock
  · obtain ⟨mutex,h₂,hlock⟩ := bind_eq_ok hlock
    obtain ⟨sched',h₃,hlock⟩ := bind_eq_ok hlock
    cases hlock
    obtain ⟨hsettled,hyield⟩ := preemptPoint_spec h.level h.core h₁ h₃
    obtain rfl := mutexSetOwner_spec h₂
    exact ⟨hsettled,hyield,rfl,rfl,rfl⟩

theorem mutexUnlock_spec (h : Usable s) (hunlock : mutexUnlock s = .ok s') :
    Settled s.sched s'.sched ∧ s'.heap = s.heap ∧
    s'.mutex = { s.mutex with owner := none, locked := false } := by
  obtain ⟨sched,h₁,hunlock⟩ := bind_eq_ok hunlock
  obtain ⟨mutex,h₂,hunlock⟩ := bind_eq_ok hunlock
  obtain ⟨sched₂,h₃,hunlock⟩ := bind_eq_ok hunlock
  obtain ⟨sched₃,h₄,hunlock⟩ := bind_eq_ok hunlock
  cases hunlock
  obtain rfl := mutexClearOwner_spec h₂
  -- The wake-up of the first waiter finds it running.
  have hsame : sched₂ = sched := by
    obtain ⟨hlt,rfl⟩ := (preemptDisable_spec h.level).of_ok h₁
    unfold mutexWakeupFirst at h₃
    split at h₃
    · cases h₃
      rfl
    · split at h₃
      · next w hw =>
        refine threadWakeup_running ?_ ?_ h₃
        · rw [setLevel_self]
          exact hlt
        · rw [setLevel_thread]
          exact h.first w hw
      · cases h₃
  subst hsame
  exact ⟨(preemptPoint_spec h.level h.core h₁ h₄).1,rfl,rfl⟩

/-- A critical section of the allocator, which leaves the heap `heap`. -/
theorem section_spec {heap : Mem.Heap} (h : Usable s) (hlock : mutexLock s = .ok s₁)
    (hunlock : mutexUnlock { s₁ with heap := heap } = .ok s') :
    Usable s' ∧ Settled s.sched s'.sched ∧
    (s.sched.self.preemptLevel = 0 → s'.sched.self.yield = false) ∧ s'.heap = heap := by
  obtain ⟨hsettled,hyield,-,hwaiters,hthread⟩ := mutexLock_spec h hlock
  have h₁ : Usable { s₁ with heap := heap } := h.settled hsettled hwaiters hthread
  obtain ⟨hsettled',hheap,hmutex⟩ := mutexUnlock_spec h₁ hunlock
  refine ⟨h₁.settled hsettled' ?_ ?_,hsettled.trans hsettled',fun hl => ?_,hheap⟩
  · rw [hmutex]
  · rw [hmutex]
  · rcases hsettled'.yield with he | ⟨-,he⟩
    · rw [he]
      exact hyield hl
    · exact he

theorem memAlloc_spec {size ptr : ℕ} (h : Usable s) (halloc : memAlloc L s size = .ok (ptr,s')) :
    Usable s' ∧ Settled s.sched s'.sched ∧
      (size ≠ 0 → s.sched.self.preemptLevel = 0 → s'.sched.self.yield = false) ∧
      ∃ m, Mem.memAlloc L s.heap.mem size = some (ptr,m) ∧
        s'.heap = ⟨m,if ptr = 0 then s.heap.live else ptr :: s.heap.live⟩ := by
  unfold memAlloc at halloc
  split at halloc
  · next hzero =>
    cases halloc
    exact ⟨h,.refl _,fun hne => absurd hzero hne,s.heap.mem,by simp [Mem.memAlloc,hzero],rfl⟩
  · obtain ⟨s₁,hlock,halloc⟩ := bind_eq_ok halloc
    have hheap := (mutexLock_spec h hlock).2.2.1
    split at halloc
    · cases halloc
    · next p m hm =>
      obtain ⟨s₂,hunlock,halloc⟩ := bind_eq_ok halloc
      cases halloc
      obtain ⟨husable,hsettled,hyield,hheap'⟩ := section_spec h hlock hunlock
      rw [hheap] at hm hheap'
      exact ⟨husable,hsettled,fun _ => hyield,m,hm,hheap'⟩

theorem memFree_spec {ptr : ℕ} (h : Usable s) (hptr : ptr ≠ 0) (hfree : memFree L s ptr = .ok s') :
    Usable s' ∧ Settled s.sched s'.sched ∧
      ∃ m, Mem.memFree L s.heap.mem ptr = some m ∧ s'.heap = ⟨m,s.heap.live.erase ptr⟩ := by
  rw [memFree,if_neg hptr] at hfree
  obtain ⟨s₁,hlock,hfree⟩ := bind_eq_ok hfree
  have hheap := (mutexLock_spec h hlock).2.2.1
  split at hfree
  · cases hfree
  · next m hm =>
    obtain ⟨husable,hsettled,-,hheap'⟩ := section_spec h hlock hfree
    rw [hheap] at hm hheap'
    exact ⟨husable,hsettled,m,hm,hheap'⟩

/-- A thread that finds the mutex locked sleeps. -/
theorem memAlloc_free {size : ℕ} {r : ℕ × System} (hsize : size ≠ 0)
    (halloc : memAlloc L s size = .ok r) : s.mutex.locked = false := by
  rw [memAlloc,if_neg hsize] at halloc
  obtain ⟨s₁,hlock,-⟩ := bind_eq_ok halloc
  obtain ⟨sched,-,hlock⟩ := bind_eq_ok hlock
  split at hlock
  · cases hlock
  · next hfree => exact Bool.eq_false_iff.mpr hfree

theorem Possible.usable (h : Possible L s) (hfree : s.mutex.locked = false) : Usable s := by
  have hsched : s.sched.self.preemptLevel < 2 ^ 32 ∧ (s.sched.self.preemptLevel = 0 → Core s.sched) := by
    rcases h.sched with hb | hr
    · refine ⟨hb.boots.level_lt _,fun hl => ?_⟩
      rw [hb.boots.level_self] at hl
      cases hl
    · exact ⟨hr.sound.1.level_lt _,fun _ => hr.sound.1.toCore⟩
  refine ⟨hsched.1,hsched.2,fun w hw => ?_⟩
  obtain ⟨m,hm,-,hpc,hmutex,hstate⟩ := h.mutex
  obtain ⟨ws,hinv⟩ := hm.inv
  rw [hmutex] at hw hfree ⊢
  have hhead : (ws.map Mutex.Node.waiter).headD Mutex.Node.waiters = .waiter w :=
    (IsRing.next_head hinv.ring).symm.trans hw
  cases ws with
  | nil => cases hhead
  | cons v ws =>
    obtain rfl : v = w := by simpa using hhead
    change (s.sched.thread (m.waiterThread v)).state = .running
    rw [hinv.waiterThread v (by simp),← hstate]
    exact hinv.first hfree (by rw [hpc]; rfl) v rfl

/-! ## The call -/

/-- The live blocks, and the blocks met by a walk through the heap, are the same. -/
structure SameHeap (L : Mem.Layout) (h h' : Mem.Heap) : Prop where
  live : h'.live = h.live
  blocks : ∀ addr size, Mem.LiveBlock h' addr size ↔ Mem.LiveBlock h addr size
  walk : Mem.heapWalk L h'.mem = Mem.heapWalk L h.mem

/-- The lists of the run queue, the number of threads, the current thread and its preemption level are the
same. -/
structure SameRunq (s s' : Sched.State) : Prop where
  lists : ∀ p < THREAD_NR_PRIORITIES, ∀ nodes,
    IsList s'.links (.head p) nodes ↔ IsList s.links (.head p) nodes
  nrThreads : s'.nrThreads = s.nrThreads
  current : s'.current = s.current
  level : s'.self.preemptLevel = s.self.preemptLevel

theorem SameHeap.refl (L : Mem.Layout) (h : Mem.Heap) : SameHeap L h h := ⟨rfl,fun _ _ => Iff.rfl,rfl⟩

theorem Settled.sameRunq {s s' : Sched.State} (h : Settled s s') : SameRunq s s' :=
  ⟨h.lists,h.nrThreads,h.current,h.level⟩

theorem Settled.yield_eq {s s' : Sched.State} (h : Settled s s')
    (hyield : s.self.preemptLevel = 0 → s'.self.yield = false) :
    s'.self.yield = (s.self.yield && decide (s.self.preemptLevel ≠ 0)) := by
  by_cases hl : s.self.preemptLevel = 0
  · rw [hyield hl]
    simp [hl]
  · rcases h.yield with he | ⟨hl',-⟩
    · rw [he]
      simp [hl]
    · exact absurd hl' hl

theorem memAlloc_null {size : ℕ} (hheap : Mem.Reachable L s.heap) (h : Usable s)
    (halloc : memAlloc L s size = .ok (0,s')) : s'.heap = s.heap := by
  obtain ⟨-,-,-,m,hm,hheap'⟩ := memAlloc_spec h halloc
  obtain ⟨bs,free,hsound⟩ := hheap.sound
  obtain rfl := hsound.alloc_null hm
  rw [hheap',if_pos rfl]

theorem alloc_free_same {size size' thread : ℕ} {s₂ s₃ : System} (hheap : Mem.Reachable L s.heap)
    (h : Usable s) (hsize : size < 2 ^ 32) (hthread : thread ≠ 0)
    (h₁ : memAlloc L s size = .ok (thread,s₁)) (h₂ : memAlloc L s₁ size' = .ok (0,s₂))
    (h₃ : memFree L s₂ thread = .ok s₃) : SameHeap L s.heap s₃.heap := by
  obtain ⟨husable,-,-,m₁,hm₁,hheap₁⟩ := memAlloc_spec h h₁
  obtain ⟨husable₂,-⟩ := memAlloc_spec husable h₂
  obtain ⟨-,-,m₃,hm₃,hheap₃⟩ := memFree_spec husable₂ hthread h₃
  rw [if_neg hthread] at hheap₁
  have hreach : Mem.Reachable L s₁.heap := by
    have hr := Mem.Reachable.alloc hheap hsize hm₁
    rw [if_neg hthread] at hr
    rwa [hheap₁]
  have hsame : s₂.heap = ⟨m₁,thread :: s.heap.live⟩ := (memAlloc_null hreach husable h₂).trans hheap₁
  rw [hsame] at hm₃ hheap₃
  obtain ⟨-,hblocks,hwalk⟩ := Mem.alloc_free_restores hheap hsize hm₁ hthread hm₃
  rw [hheap₃,List.erase_cons_head]
  exact ⟨rfl,hblocks,hwalk⟩

theorem create_nomem (L : Mem.Layout) (s : System) (threadp : Option ℕ) (fn stackSize priority : UInt32) (r : Result)
    (h : Possible L s) (hrun : threadCreate L s threadp fn stackSize priority = .ok r) (hnomem : r.error = ERROR_NOMEM) :
    SameHeap L s.heap r.system.heap ∧ SameRunq s.sched r.system.sched ∧ r.threadp = threadp ∧
      r.system.sched.self.yield = (s.sched.self.yield && decide (s.sched.self.preemptLevel ≠ 0)) := by
  obtain ⟨-,hrun⟩ := assert_ok hrun
  obtain ⟨⟨thread,s₁⟩,h₁,hrun⟩ := bind_eq_ok hrun
  have hsize : THREAD_SIZE ≠ 0 := by decide
  have husable := h.usable (memAlloc_free hsize h₁)
  obtain ⟨husable₁,hsettled,hyield,-⟩ := memAlloc_spec husable h₁
  simp only at hrun
  split at hrun
  · next hnull =>
    cases hrun
    subst hnull
    refine ⟨?_,hsettled.sameRunq,rfl,hsettled.yield_eq (hyield hsize)⟩
    rw [memAlloc_null h.heap husable h₁]
    exact .refl L s.heap
  · next hthread =>
    obtain ⟨⟨stack,s₂⟩,h₂,hrun⟩ := bind_eq_ok hrun
    simp only at hrun
    split at hrun
    · next hnull =>
      subst hnull
      obtain ⟨s₃,h₃,hrun⟩ := bind_eq_ok hrun
      cases hrun
      obtain ⟨husable₂,hsettled₂,-⟩ := memAlloc_spec husable₁ h₂
      obtain ⟨-,hsettled₃,-⟩ := memFree_spec husable₂ hthread h₃
      have hall := (hsettled.trans hsettled₂).trans hsettled₃
      refine ⟨?_,hall.sameRunq,rfl,hall.yield_eq fun hl => ?_⟩
      · exact alloc_free_same h.heap husable (by decide) hthread h₁ h₂ h₃
      · -- The flag was cleared in the first allocation, and nothing sets it.
        have hfirst : s₁.sched.self.yield = false := hyield hsize hl
        rcases (hsettled₂.trans hsettled₃).yield with he | ⟨-,he⟩
        · exact he.trans hfirst
        · exact he
    · obtain ⟨-,hrun⟩ := assert_ok hrun
      obtain ⟨sched₁,-,hrun⟩ := bind_eq_ok hrun
      obtain ⟨sched₂,-,hrun⟩ := bind_eq_ok hrun
      obtain ⟨sched₃,-,hrun⟩ := bind_eq_ok hrun
      cases hrun
      cases hnomem

/-! ## A pending yield -/

/-- The current thread is in its own code. -/
def InOwnCode (s : Sched.State) : Prop :=
  ∃ f, s.stack s.current = [f] ∧ f.fn = .main ∧ f.code = [] ∧ s.current ≠ s.idle

def freshMutex : MemMutex := ⟨listInit ⟨id,id⟩ Mutex.Node.waiters,id,false,none⟩

/-- A mutex that has not been used is in a state it can be in, whatever the threads do. -/
theorem possible_fresh {sched : Sched.State} {heap : Mem.Heap} (hheap : Mem.Reachable L heap)
    (hsched : Sched.Reachable sched) : Possible L ⟨sched,freshMutex,heap⟩ := by
  let thread : Tid → Mutex.Thread := fun t =>
    ⟨if (sched.thread t).state = .running then .running else .sleeping,0,.own,false⟩
  refine ⟨hheap,.inr hsched,Mutex.mutexInit ⟨thread,sched.current,id,⟨id,id⟩,false,none⟩,?_,rfl,rfl,
    rfl,fun t => ?_⟩
  · refine .init ⟨fun t => ⟨rfl,rfl⟩,?_,_,rfl,rfl⟩
    have hrun : (sched.thread sched.current).state = .running := hsched.sound.1.running
    simp [Mutex.mutexInit,Mutex.State.self,thread,hrun]
  · by_cases ht : (sched.thread t).state = .running <;> simp [Mutex.mutexInit,thread,ht]

/-- Thread 3 disables preemption, the clock ticks, and it enables preemption without yielding. -/
def pendingMoves : List Move :=
  List.replicate 6 Move.step ++ [.begin .preemptDisable,.step,.interrupt [.tick]] ++
    List.replicate 7 Move.step ++ [.begin .preemptEnableNoYield,.step]

theorem pendingMoves_free : ∀ m ∈ pendingMoves, m.Free := by
  simp [pendingMoves,Move.Free,Instr.Api]

def pendingSystem : Option System :=
  (sampleBoot.toOption.bind (pendingMoves.foldlM Move.run)).bind fun sched =>
    (Mem.memSetup Mem.sampleLayout ⟨fun _ => 0⟩).map fun mem => ⟨sched,freshMutex,⟨mem,[]⟩⟩

theorem pendingSystem_possible {s : System} (h : pendingSystem = some s) :
    Possible Mem.sampleLayout s := by
  rw [pendingSystem,Option.bind_eq_some_iff] at h
  obtain ⟨sched,hsched,h⟩ := h
  rw [Option.bind_eq_some_iff] at hsched
  obtain ⟨s₀,h₀,hsched⟩ := hsched
  rw [Option.map_eq_some_iff] at h
  obtain ⟨mem,hmem,rfl⟩ := h
  refine possible_fresh (.setup hmem) ?_
  exact foldlM_keeps (P := Sched.Reachable)
    (fun m hm s s' hr h => .step hr (Move.step_run ((pendingMoves_free m hm).api s) h))
    (careful_sampleBoot (ok_of_toOption h₀)).reachable hsched

/-- What is read off: the place of the current thread, its level and its flag, and then the result of the
call and the flag after it. -/
structure View where
  frames : List (Fn × List Instr)
  idle : Bool
  level : ℕ
  intr : Bool
  yield : Bool
  error : ℕ
  yieldAfter : Bool
  deriving DecidableEq

/-- The call asks for a stack larger than the heap. -/
def pendingView : Option View :=
  pendingSystem.bind fun s =>
    (threadCreate Mem.sampleLayout s none 0x100000 0x10000000 5).toOption.map fun r =>
      ⟨(s.sched.stack s.sched.current).map fun f => (f.fn,f.code),s.sched.current = s.sched.idle,
        s.sched.self.preemptLevel,s.sched.intr,s.sched.self.yield,r.error,r.system.sched.self.yield⟩

theorem pending_run : ∃ s r, Possible Mem.sampleLayout s ∧ InOwnCode s.sched ∧ s.sched.intr = true ∧
    s.sched.self.preemptLevel = 0 ∧ s.sched.self.yield = true ∧
    threadCreate Mem.sampleLayout s none 0x100000 0x10000000 5 = .ok r ∧ r.error = ERROR_NOMEM ∧
    r.system.sched.self.yield = false := by
  have hview : pendingView = some ⟨[(.main,[])],false,0,true,true,3,false⟩ := by decide +kernel
  rw [pendingView,Option.bind_eq_some_iff] at hview
  obtain ⟨s,hs,h⟩ := hview
  rw [Option.map_eq_some_iff] at h
  obtain ⟨r,hr,h⟩ := h
  simp only [View.mk.injEq,decide_eq_false_iff_not] at h
  obtain ⟨hframes,hidle,hlevel,hintr,hyield,herror,hafter⟩ := h
  obtain ⟨f,hf,hmain⟩ := List.map_eq_singleton_iff.mp hframes
  rw [Prod.mk.injEq] at hmain
  exact ⟨s,r,pendingSystem_possible hs,⟨f,hf,hmain.1,hmain.2,hidle⟩,hintr,hlevel,hyield,
    ok_of_toOption hr,herror,hafter⟩

/-- The yield that was pending before the call is not pending after it. -/
theorem pending_yield_taken : ¬∀ (L : Mem.Layout) (s : System) (threadp : Option ℕ) (fn stackSize priority : UInt32)
    (r : Result), Possible L s → InOwnCode s.sched → s.sched.intr = true →
    threadCreate L s threadp fn stackSize priority = .ok r → r.error = ERROR_NOMEM →
    SameHeap L s.heap r.system.heap ∧ SameRunq s.sched r.system.sched ∧ r.threadp = threadp ∧
      r.system.sched.self.yield = s.sched.self.yield := by
  intro h
  obtain ⟨s,r,hs,hown,hintr,-,hyield,hrun,herror,hafter⟩ := pending_run
  have := (h _ s none _ _ _ r hs hown hintr hrun herror).2.2.2
  rw [hyield,hafter] at this
  cases this

theorem create_nomem_sample : ∃ s r, Possible Mem.sampleLayout s ∧
    threadCreate Mem.sampleLayout s none 0x100000 0x10000000 5 = .ok r ∧ r.error = ERROR_NOMEM ∧
    SameHeap Mem.sampleLayout s.heap r.system.heap ∧ SameRunq s.sched r.system.sched := by
  obtain ⟨s,r,hs,-,-,-,-,hrun,herror,-⟩ := pending_run
  obtain ⟨hheap,hrunq,-⟩ := create_nomem _ s none _ _ _ r hs hrun herror
  exact ⟨s,r,hs,hrun,herror,hheap,hrunq⟩

end X1.Create
