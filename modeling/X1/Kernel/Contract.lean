import X1.Base.Checked
import X1.Kernel.Calls

/-! # What holds across switches

In every run of any number of threads: threads that do not run were left with level 1
and interrupts off, so that the assertions of the scheduler never fail; a function
gives its caller back the level and the interrupt flag of the call, whatever ran in
between; and no stack holds two frames of an interrupt.
-/
namespace X1.Kernel
open X1.Flow X1.Checked

variable {T : Type} [DecidableEq T] {s : State T} {f : Frame} {fs : List Frame}

theorem locked_setStack (hoff : s.intr = false) (hne : s.self.level ≠ 0) :
    threadSchedulerLocked (s.setStack fs) = true := by
  have hoff : (s.setStack fs).intr = false := hoff
  simp [threadSchedulerLocked,hoff,hne]

omit [DecidableEq T] in
theorem assert_bind_ne {fault : Fault} {b : Bool} {x : Except Fault (State T)}
    (hb : fault = .scheduler → b = true) (hx : x ≠ .error .scheduler) :
    (assert fault b >>= fun _ => x) ≠ .error .scheduler := by
  cases b with
  | true => exact hx
  | false => cases fault <;> simp_all [assert,bind,Except.bind]

/-- The assertions of the scheduler hold in the frame that runs. -/
theorem exec_ne_scheduler {a : Act} {k : List Code} {t : T} (h : Inv s) (hs : s.self.stack = f :: fs)
    (hcode : f.code = .act a :: k) (hpick : a.Picks s t) :
    exec (s.setStack ({ f with code := k } :: fs)) t a ≠ .error .scheduler := by
  have hsafe := (h.typed hs).safe hcode
  have hreturn : ∀ r : State T, (pure r : Except Fault (State T)) ≠ .error .scheduler := by
    intro r
    simp [pure,Except.pure]
  cases a with
  | runqAdd => exact assert_bind_ne (fun _ => locked_setStack hsafe.1 hsafe.2) (hreturn _)
  | runqSchedule =>
    obtain ⟨hoff,hone,-⟩ := hsafe
    have hone : s.self.level = 1 := hone
    refine assert_bind_ne (fun _ => locked_setStack hoff (by simp [hone])) ?_
    exact assert_bind_ne (fun _ => by simp [hone]) (hreturn _)
  | assertMain =>
    obtain ⟨hoff,hone⟩ := hsafe
    have hone : s.self.level = 1 := hone
    refine assert_bind_ne (fun _ => locked_setStack hoff (by simp [hone])) ?_
    exact assert_bind_ne (fun _ => by simp [hone]) (hreturn _)
  | enableScheduler =>
    have ht : t ≠ s.current := by
      rintro rfl
      have hdummy := h.dummy hsafe
      rw [hpick.1] at hdummy
      cases hdummy
    have hone : ((s.setStack ({ f with code := k } :: fs)).thread t).level = 1 := by
      rw [State.thread_setStack _ ht]
      exact (h.others t hpick.1 ht).level
    exact assert_bind_ne (fun _ => by simp [hone]) (hreturn _)
  | preemptDisable | preemptEnableNoYield | assertIntrDisabled | assertPreemptEnabled | assertRunning
  | assertDead | setRunning => exact assert_bind_ne (by simp) (hreturn _)
  | panic => nofun
  | _ => exact hreturn _

/-- In every reachable state: a thread other than the current one has level 1 and interrupts off in the flags
on its stack; whatever the current thread executes next, no assertion of the scheduler fails; a function that
the current thread calls now ends, in whatever run, with the level and the flag of the call; and a stack holds
at most one frame of `cpu_intr_main`, and none when an interrupt can be delivered on it. -/
theorem level_discipline (s : State T) (h : Reachable s) :
    (∀ t, s.live t = true → t ≠ s.current → (s.thread t).level = 1 ∧ (s.thread t).saved = false) ∧
    (∀ f fs a k t, s.self.stack = f :: fs → f.code = .act a :: k → a.Picks s t →
      exec (s.setStack ({ f with code := k } :: fs)) t a ≠ .error .scheduler) ∧
    (∀ f fs fn k, s.self.stack = f :: fs → f.code = .call fn :: k → fn ≠ .timerFn →
      ∀ s', Within s.current ({ f with code := k } :: fs)
      ((s.setStack ({ f with code := k } :: fs)).push fn) s' → s'.current = s.current →
      ∀ g, s'.self.stack = g :: { f with code := k } :: fs → g.code = [] →
      s'.self.level = s.self.level ∧ s'.intr = s.intr) ∧
    (∀ t, s.live t = true ∨ t = s.current → (s.thread t).stack.countP (·.fn = .cpuIntrMain) ≤ 1) ∧
    (s.intr = true → ∀ f ∈ s.self.stack, f.fn ≠ .cpuIntrMain) := by
  have hinv := h.inv
  refine ⟨fun t hlive ht => ?_,fun f fs a k t hs hcode hpick => ?_,?_,fun t ht => ?_,?_⟩
  · exact ⟨(hinv.others t hlive ht).level,(hinv.others t hlive ht).saved⟩
  · exact exec_ne_scheduler hinv hs hcode hpick
  · intro f fs fn k hs hcode hfn s' hrun hcurrent g hs' hend
    exact call_returns h hs hcode hfn hrun hcurrent hs' hend
  · by_cases hc : t = s.current
    · rw [hc]
      exact hinv.current.interrupts_le_one
    · exact (hinv.others t (ht.resolve_right hc) hc).stack.interrupts_le_one
  · intro hintr
    have hst := hinv.current
    rw [hintr] at hst
    exact hst.outside.2

/-! ## A run -/

/-- What is left of the code after one unfolding, `b` deciding what is left open. -/
def unfolded (b : Bool) (l : Local) : List Code → Option (List Code)
  | .skip :: k => some k
  | .seq p q :: k => some (p :: q :: k)
  | .choice p q :: k => some ((if b then p else q) :: k)
  | .ite c p q :: k => some ((if spec.holds c l then p else q) :: k)
  | .loop p :: k => some (if b then p :: .loop p :: k else k)
  | .forever p :: k => some (p :: .forever p :: k)
  | _ => none

theorem unfolds_unfolded {b : Bool} {l : Local} {k k' : List Code} (h : unfolded b l k = some k') :
    Unfolds spec l k k' := by
  unfold unfolded at h
  split at h
  all_goals cases h
  · exact .skip
  · exact .seq
  · cases b
    · exact .right
    · exact .left
  · exact .ite
  · cases b
    · exact .done
    · exact .again
  · exact .forever

def Act.picks (s : State T) (t : T) : Act → Bool
  | runqSchedule | enableScheduler => s.live t && (s.thread t).state = .running
  | threadInit => !s.live t && t ≠ s.current
  | _ => s.live t || t = s.current

theorem Act.picks_picks {a : Act} {t : T} (h : a.picks s t = true) : a.Picks s t := by
  cases a <;> simpa [Act.picks,Act.Picks] using h

/-- The current thread goes on, or begins something in its own code, or is interrupted. -/
inductive Move where
  | go (b : Bool) (t : Fin 3)
  | create
  | enableScheduler
  | interrupt

def Move.run (s : State (Fin 3)) (m : Move) : Option (State (Fin 3)) :=
  match m,s.self.stack with
  | .interrupt,_ => if s.intr then some { s.push .cpuIntrMain with intr := false } else none
  | .create,f :: fs =>
    if f.code.isEmpty ∧ f.fn = .boot ∧ s.booting then
      some (s.setStack ({ f with code := [.call .threadCreate] } :: fs))
    else none
  | .enableScheduler,f :: fs =>
    if f.code.isEmpty ∧ f.fn = .boot then
      some (s.setStack ({ f with code := [.act .enableScheduler] } :: fs))
    else none
  | .go b t,f :: fs =>
    match f.code with
    | [] =>
      if f.fn.isUser then none
      else some { s.setStack fs with intr := if f.fn = .cpuIntrMain then f.callIntr else s.intr }
    | .act a :: k =>
      if a.picks s t then (exec (s.setStack ({ f with code := k } :: fs)) t a).toOption else none
    | .call g :: k => some ((s.setStack ({ f with code := k } :: fs)).push g)
    | k => (unfolded b (s.view f) k).map fun k => s.setStack ({ f with code := k } :: fs)
  | _,[] => none

theorem Move.step_run {s s' : State (Fin 3)} {m : Move} (h : m.run s = some s') : Step s s' := by
  unfold Move.run at h
  split at h
  case h_1 =>
    split at h
    · cases h
      exact .interrupt ‹_›
    · cases h
  case h_2 f fs hs =>
    split at h
    · next hc =>
      cases h
      obtain ⟨hcode,hfn,hboot⟩ := hc
      refine .user _ hs (List.isEmpty_iff.1 hcode) (by rw [hfn]; rfl) (.call rfl (.inr hboot))
    · cases h
  case h_3 f fs hs =>
    split at h
    · next hc =>
      cases h
      obtain ⟨hcode,hfn⟩ := hc
      refine .user _ hs (List.isEmpty_iff.1 hcode) (by rw [hfn]; rfl) ?_
      rw [hfn]
      exact .enableScheduler
    · cases h
  case h_4 b t f fs hs =>
    split at h
    · next hcode =>
      split at h
      · cases h
      · next huser =>
        cases h
        refine .ret hs hcode ?_ ?_ ?_ <;> intro hfn <;> rw [hfn] at huser <;> exact absurd rfl huser
    · next a k hcode =>
      split at h
      · next hpick =>
        refine .act t hs hcode (Act.picks_picks hpick) ?_
        generalize exec (s.setStack ({ f with code := k } :: fs)) t a = r at h ⊢
        cases r with
        | ok s₁ => cases h; rfl
        | error e => cases h
      · cases h
    · next g k hcode =>
      cases h
      exact .call hs hcode
    · obtain ⟨k,hk,rfl⟩ := Option.map_eq_some_iff.1 h
      exact .unfold hs (unfolds_unfolded hk)
  case h_5 => cases h

/-- The dummy thread is 0 and the idle thread 1. -/
def sampleInit : State (Fin 3) :=
  ⟨fun t => if t = 0 then ⟨1,false,.running,[⟨.boot,1,false,false,[]⟩]⟩ else forged,(· = 1),0,false,true⟩

theorem sampleInit_initial : Initial sampleInit :=
  ⟨⟨rfl,rfl,rfl⟩,rfl,rfl,⟨1,by decide⟩,fun t ht => by
    have ht : t = 1 := by simpa [sampleInit] using ht
    subst ht
    rfl⟩

/-- Thread 2 is created at boot, enables interrupts, is interrupted, and the interrupt yields to the idle
thread. -/
def yieldMoves : List Move :=
  let go (n : ℕ) (b : Bool) (t : Fin 3) : List Move := List.replicate n (.go b t)
  [.create] ++ go 5 true 0 ++ go 1 false 0 ++ go 5 true 0 ++ go 3 false 0 ++ go 26 true 2 ++
    [.enableScheduler] ++ go 1 true 2 ++ go 8 false 2 ++ [.interrupt] ++ go 18 true 1

theorem level_discipline_sample : ∃ s : State (Fin 3), Reachable s ∧ s.current = 1 ∧ s.live 2 = true ∧
    (s.thread 2).stack.map Frame.fn = [.threadYield,.cpuIntrMain,.threadMain] ∧
    (s.thread 2).level = 1 ∧ (s.thread 2).saved = false := by
  have hrun : (yieldMoves.foldlM Move.run sampleInit).map (fun s =>
      (s.current,s.live 2,(s.thread 2).stack.map Frame.fn)) =
      some (1,true,[.threadYield,.cpuIntrMain,.threadMain]) := by
    decide +kernel
  obtain ⟨s,hs,hv⟩ := Option.map_eq_some_iff.mp hrun
  simp only [Prod.mk.injEq] at hv
  obtain ⟨hcurrent,hlive,hstack⟩ := hv
  have hreach : Reachable s := foldlM_keeps (P := Reachable)
    (fun _ _ _ _ hr h => .step hr (Move.step_run h)) (.init sampleInit_initial) hs
  have hparked := (level_discipline s hreach).1 2 hlive (by rw [hcurrent]; decide)
  exact ⟨s,hreach,hcurrent,hlive,hstack,hparked⟩

end X1.Kernel
