import X1.Mutex.Invariant

/-! # Mutual exclusion and wake-ups

What a mutex promises to its users, in every run.
-/
namespace X1.Mutex
open X1.Lib X1.Ring X1.Checked

section
variable {T : Type} [DecidableEq T]

/-- At most one thread holds the mutex, `locked` and `owner` agree and name the thread that holds it or
is on its way in or out, and the assertions on the owner never fail. -/
theorem mutual_exclusion (s : State T) (h : Reachable s) :
    (∀ t u, (s.thread t).holding = true → (s.thread u).holding = true → t = u) ∧
    (s.locked = true ↔ s.owner ≠ none) ∧
    (∀ t, s.owner = some t ↔ (s.thread t).Owns) ∧
    ∀ next, exec s next ≠ .error .owner := by
  obtain ⟨ws,hinv⟩ := h.inv
  have howner : ∀ t, (s.thread t).holding = true → s.owner = some t :=
    fun t ht => (hinv.owner t).mpr (.inl ht)
  refine ⟨fun t u ht hu => ?_,?_,hinv.owner,fun next => (hinv.exec next).ne_error (by simp)⟩
  · have := (howner t ht).symm.trans (howner u hu)
    simpa using this
  · rw [hinv.locked]
    simp [Option.isSome_iff_ne_none]

/-- When the current thread is not in the middle of a function, the waiters are the threads asleep in
`mutex_lock`, and the first waiter of a free mutex runs. -/
theorem no_lost_wakeup (s : State T) (h : Reachable s) (hbusy : s.self.pc.busy = false) :
    ∃ ws : List T, IsRing s.links.nextOf s.links.prevOf .waiters (ws.map .waiter) ∧ ws.Nodup ∧
      (∀ t, t ∈ ws ↔ (s.thread t).pc = .lockRetest) ∧ (∀ t ∈ ws, s.waiterThread t = t) ∧
      (s.locked = false → ∀ t ∈ ws.head?, (s.thread t).state = .running) ∧
      (s.locked = false → ws ≠ [] → ∃ t ∈ ws, (s.thread t).state = .running) := by
  obtain ⟨ws,hinv⟩ := h.inv
  have hfirst : s.locked = false → ∀ t ∈ ws.head?, (s.thread t).state = .running :=
    fun hl => hinv.first hl (Pc.Rests.settles (.inl hbusy))
  refine ⟨ws,hinv.ring,hinv.nodup,fun t => ?_,hinv.waiterThread,hfirst,fun hl hne => ?_⟩
  · rw [hinv.waiting t]
    have hrest : (s.thread t).pc.Rests := by
      by_cases ht : t = s.current
      · rw [ht]
        exact .inl hbusy
      · exact hinv.rests t ht
    rcases hrest with hb | hb
    · generalize (s.thread t).pc = pc at hb
      cases pc <;> simp_all [Pc.waiting,Pc.busy]
    · simp [hb,Pc.waiting]
  · cases ws with
    | nil => exact absurd rfl hne
    | cons w ws => exact ⟨w,by simp,hfirst hl w (by simp)⟩

end

/-! ## A contended run -/

inductive Move where
  | exec (next : ℕ)
  | lock
  | unlock
  | preempt (next : ℕ)

def Move.run (s : State ℕ) : Move → Option (State ℕ)
  | .exec next =>
    if s.self.pc ≠ .own then
      match Mutex.exec s next with
      | .ok s' => if s'.self.state = .running then some s' else none
      | .error _ => none
    else none
  | .lock =>
    if s.self.pc = .own ∧ s.self.preemptLevel = 0 ∧ s.self.holding = false then
      some (s.modify s.current fun _ => { s.self with pc := .lockEnter })
    else none
  | .unlock =>
    if s.self.pc = .own ∧ s.self.holding = true then
      some (s.modify s.current fun _ => { s.self with pc := .unlockEnter, holding := false })
    else none
  | .preempt next =>
    if s.self.preemptLevel = 0 ∧ (s.thread next).state = .running then
      some { s with current := next }
    else none

theorem Move.step_run {s s' : State ℕ} {m : Move} (h : m.run s = some s') : Step s s' := by
  cases m with
  | exec next =>
    simp only [Move.run] at h
    split at h
    · next hpc =>
      split at h
      · next hexec =>
        split at h
        · next hrun =>
          cases h
          exact .exec next hpc hexec hrun
        · cases h
      · cases h
    · cases h
  | lock =>
    simp only [Move.run] at h
    split at h
    · next hc =>
      cases h
      exact .call hc.1 (.lock hc.2.1 hc.2.2)
    · cases h
  | unlock =>
    simp only [Move.run] at h
    split at h
    · next hc =>
      cases h
      exact .call hc.1 (.unlock hc.2)
    · cases h
  | preempt next =>
    simp only [Move.run] at h
    split at h
    · next hc =>
      cases h
      exact .preempt next hc.1 hc.2
    · cases h

def sampleInit : State ℕ :=
  mutexInit ⟨fun _ => ⟨.running,0,.own,false⟩,0,id,⟨id,id⟩,true,none⟩

theorem sampleInit_reachable : Reachable sampleInit :=
  .init ⟨fun _ => ⟨rfl,rfl⟩,rfl,_,rfl,rfl⟩

/-- Thread 0 locks the mutex and is preempted, 1 finds it locked and sleeps. -/
def contendMoves : List Move :=
  [.lock,.exec 0,.exec 0,.exec 0,.exec 0,.exec 0,.preempt 1,.lock,.exec 0,.exec 0,.exec 0,.exec 0]

def releaseMoves : List Move := contendMoves ++ [.unlock,.exec 0,.exec 0,.exec 0,.exec 0]

def State.view (s : State ℕ) : Pc × Bool × Bool × Pc := (s.self.pc,s.locked,(s.thread 0).holding,(s.thread 1).pc)

theorem reachable_view {ms : List Move} {v : Pc × Bool × Bool × Pc}
    (h : (ms.foldlM Move.run sampleInit).map State.view = some v) : ∃ s, Reachable s ∧ s.view = v := by
  obtain ⟨s,hs,hv⟩ := Option.map_eq_some_iff.mp h
  exact ⟨s,foldlM_keeps (P := Reachable) (fun _ _ _ _ hr h => .step hr (Move.step_run h))
    sampleInit_reachable hs,hv⟩

theorem mutual_exclusion_sample : ∃ s : State ℕ, Reachable s ∧ (s.thread 0).holding = true ∧
    (s.thread 1).pc = .lockRetest ∧ s.locked = true ∧ s.owner = some 0 := by
  have hrun : (contendMoves.foldlM Move.run sampleInit).map State.view =
      some (.own,true,true,.lockRetest) := by
    decide +kernel
  obtain ⟨s,hreach,hv⟩ := reachable_view hrun
  simp only [State.view,Prod.mk.injEq] at hv
  obtain ⟨-,-,hhold,hpc⟩ := hv
  obtain ⟨-,hlocked,howner,-⟩ := mutual_exclusion s hreach
  have h₀ := (howner 0).mpr (.inl hhold)
  exact ⟨s,hreach,hhold,hpc,hlocked.mpr (by simp [h₀]),h₀⟩

theorem no_lost_wakeup_sample : ∃ s : State ℕ, Reachable s ∧ s.self.pc.busy = false ∧ s.locked = false ∧
    (s.thread 1).pc = .lockRetest ∧ ∃ t, (s.thread t).pc = .lockRetest ∧ (s.thread t).state = .running := by
  have hrun : (releaseMoves.foldlM Move.run sampleInit).map State.view =
      some (.own,false,false,.lockRetest) := by
    decide +kernel
  obtain ⟨s,hreach,hv⟩ := reachable_view hrun
  simp only [State.view,Prod.mk.injEq] at hv
  obtain ⟨hown,hlocked,-,hpc⟩ := hv
  have hbusy : s.self.pc.busy = false := by
    rw [hown]
    rfl
  obtain ⟨ws,-,-,hmem,-,-,hrun⟩ := no_lost_wakeup s hreach hbusy
  obtain ⟨t,ht,hstate⟩ := hrun hlocked (List.ne_nil_of_mem ((hmem 1).mpr hpc))
  exact ⟨s,hreach,hbusy,hlocked,hpc,t,(hmem t).mp ht,hstate⟩

end X1.Mutex
