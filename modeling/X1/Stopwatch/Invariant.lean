import X1.Stopwatch.Model
import X1.Timer.Lists

/-! # Who has the timer of the stopwatch

The timer is linked, or in the hands of the timer thread, from the moment it is taken until
its callback links it again or finds the stopwatch stopped, or in the hands of the shell,
which is about to link it. The list of timers stays well formed as long as no two of these
hold at a time. The code keeps it so in every step but one: the call of `timer_schedule` by the
shell.
-/
namespace X1.Stopwatch
open X1.Timer X1.Owner

namespace RunPc

def holds : RunPc → Bool
  | test | count | getTime | schedule | out => true
  | _ => false

/-- Where the callback can be in timer.c. -/
def allows : RunPc → Pc Unit → Bool
  | _,.idle => true
  | getTime,.getTimeLock _ | getTime,.getTimeRead _ | getTime,.unlock => true
  | schedule,.scheduleLock _ _ | schedule,.scheduleInsert _ _ | schedule,.schedulePublish | schedule,.unlock =>
    true
  | _,_ => false

/-- The callback can still link the timer. -/
def hand : RunPc → Pc Unit → Bool
  | lock,_ | test,_ | count,_ | getTime,_ => true
  | schedule,pc => pc.pending
  | _,_ => false

theorem allows_next {run : RunPc} {pc : Pc Unit} (h : run.allows pc = true) :
    run.allows pc.next = true := by
  revert h
  cases run <;> cases pc <;> simp [allows,Pc.next]

theorem hand_of_next {run : RunPc} {pc : Pc Unit} (h : run.hand pc.next = true) :
    run.hand pc = true := by
  revert h
  cases run <;> cases pc <;> simp [hand,Pc.next,Pc.pending]

end RunPc

namespace ShellPc

def holds : ShellPc → Bool
  | startTest | stopClear | resumeSet | schedule | scheduling | waitTest _ | condvarWait | waitRetest | out =>
    true
  | _ => false

def allows : ShellPc → Pc Unit → Bool
  | _,.idle => true
  | scheduling,.scheduleLock _ _ | scheduling,.scheduleInsert _ _ | scheduling,.schedulePublish |
    scheduling,.unlock => true
  | _,_ => false

theorem allows_next {shell : ShellPc} {pc : Pc Unit} (h : shell.allows pc = true) :
    shell.allows pc.next = true := by
  revert h
  cases shell <;> cases pc <;> simp [allows,Pc.next]

end ShellPc

theorem pending_of_next {pc : Pc Unit} (h : pc.next.pending = true) : pc.pending = true := by
  revert h
  cases pc <;> simp [Pc.next,Pc.pending]

namespace State

def holds (s : State) : Actor Unit → Bool
  | .timer => s.run.holds
  | .thread _ => s.shell.holds

def runHand (s : State) : Bool := s.timer.pc.taken.isSome || s.run.hand s.timer.pc.inner

def shellHand (s : State) : Bool := (s.timer.thread ()).pending

end State

/-- The timer is not linked, and no expiry of it waits for `sw_mutex`. -/
structure Spare (s : State) : Prop where
  unlinked : ¬Linked s.timer.toData ()
  taken : s.timer.pc.taken = none
  callback : s.run ≠ .lock

structure Exclusive (s : State) : Prop where
  run : s.runHand = true → ¬Linked s.timer.toData () ∧ s.shellHand = false
  shell : s.shellHand = true → ¬Linked s.timer.toData ()

structure Inv (s : State) : Prop where
  timer : ∃ ks, Timer.Inv s.timer ks
  callback : s.timer.Calls .timer ↔ s.run ≠ .off
  inner : s.run.allows (s.timer.at .timer) = true
  thread : s.shell.allows (s.timer.at (.thread ())) = true
  held : Owned s.mutex s.holds
  exclusive : Exclusive s

variable {s s' : State}

theorem Linked.congr {K : Type} [DecidableEq K] {d d' : Data K} {k : K} (h : Linked d' k)
    (hlinks : d'.links = d.links) : Linked d k := by
  rw [Linked,← hlinks]
  exact h

namespace Exclusive

theorem mono (h : Exclusive s) (hlinked : Linked s'.timer.toData () → Linked s.timer.toData ())
    (hrun : s'.runHand = true → s.runHand = true) (hshell : s'.shellHand = true → s.shellHand = true) :
    Exclusive s' := by
  constructor
  · intro hr
    obtain ⟨hl,hs⟩ := h.run (hrun hr)
    refine ⟨fun hl' => hl (hlinked hl'),?_⟩
    rw [Bool.eq_false_iff] at hs ⊢
    exact fun hs' => hs (hshell hs')
  · exact fun hs hl' => h.shell (hshell hs) (hlinked hl')

theorem of_free (hrun : s.runHand = false) (hshell : s.shellHand = false) : Exclusive s := by
  constructor
  · intro h
    rw [hrun] at h
    cases h
  · intro h
    rw [hshell] at h
    cases h

end Exclusive

/-! ## The steps of the timer thread -/

/-- What a step of the timer thread does. -/
inductive RunMove (fuel : ℕ) (s : State) : State → Prop where
  | outside {t : Timer.State Unit Unit} : s.run = .off → timerRun fuel s.timer = some t →
      ¬t.Calls .timer →
      RunMove fuel s { s with timer := t }
  | callback {t : Timer.State Unit Unit} : s.run = .off → timerRun fuel s.timer = some t →
      t.Calls .timer →
      RunMove fuel s { s with timer := t, run := .lock }
  | lock : s.run = .lock → s.mutex = none → RunMove fuel s { s with mutex := some .timer, run := .test }
  | test : s.run = .test → RunMove fuel s { s with run := if s.timerScheduled then .count else .out }
  | count : s.run = .count → RunMove fuel s { (swCount s).timerCall (.getTimeLock ()) with run :=
    .getTime }
  | gotTime : s.run = .getTime → s.timer.at .timer = .idle →
      RunMove fuel s { s.timerCall (.scheduleLock () (.ofNat (s.time + 1))) with run := .schedule }
  | read {t : Timer.State Unit Unit} : s.run = .getTime → s.timer.at .timer = .getTimeRead () →
      timerRun fuel s.timer = some t → RunMove fuel s { s with timer := t, time := s.timer.ticks () }
  | call {t : Timer.State Unit Unit} : s.run = .getTime ∨ s.run = .schedule → s.timer.at .timer ≠ .idle →
      (s.run = .getTime → s.timer.at .timer ≠ .getTimeRead ()) → timerRun fuel s.timer = some t →
      RunMove fuel s { s with timer := t }
  | scheduled : s.run = .schedule → s.timer.at .timer = .idle → RunMove fuel s { s with run := .out }
  | out : s.run = .out → RunMove fuel s { s with mutex := none, run := .return }
  | return {t : Timer.State Unit Unit} : s.run = .return → timerRun fuel s.timer = some t →
      RunMove fuel s { s with timer := t, run := .off }

theorem swTimerRun_move {fuel : ℕ} (hstep : swTimerRun fuel s = some s') : RunMove fuel s s' := by
  unfold swTimerRun at hstep
  cases hrun : s.run with
  | off =>
    simp only [hrun] at hstep
    obtain ⟨r,hr,rfl⟩ := Option.map_eq_some_iff.mp hstep
    obtain ⟨t,ht,rfl⟩ := Option.map_eq_some_iff.mp hr
    simp only
    split
    · next hpc => exact .callback hrun ht ⟨_,_,_,_,_,hpc⟩
    · next hpc =>
      refine .outside hrun ht ?_
      rintro ⟨now,asof,k,c,pc,hc⟩
      exact hpc _ _ _ _ _ hc
  | lock =>
    simp only [hrun,mutexLock] at hstep
    cases hm : s.mutex with
    | some a => simp [hm] at hstep
    | none =>
      simp only [hm,Option.map_some,Option.some.injEq] at hstep
      rw [← hstep]
      exact .lock hrun hm
  | test =>
    simp only [hrun,Option.some.injEq] at hstep
    rw [← hstep]
    exact .test hrun
  | count =>
    simp only [hrun,Option.some.injEq] at hstep
    rw [← hstep]
    exact .count hrun
  | getTime =>
    simp only [hrun] at hstep
    split at hstep
    · next hidle =>
      cases hstep
      exact .gotTime hrun hidle
    · next k hread =>
      obtain ⟨r,hr,rfl⟩ := Option.map_eq_some_iff.mp hstep
      obtain ⟨t,ht,rfl⟩ := Option.map_eq_some_iff.mp hr
      exact .read hrun hread ht
    · next hidle hread =>
      obtain ⟨t,ht,rfl⟩ := Option.map_eq_some_iff.mp hstep
      exact .call (.inl hrun) hidle (fun _ => hread ()) ht
  | schedule =>
    simp only [hrun] at hstep
    split at hstep
    · next hidle =>
      cases hstep
      exact .scheduled hrun hidle
    · next hidle =>
      obtain ⟨t,ht,rfl⟩ := Option.map_eq_some_iff.mp hstep
      exact .call (.inr hrun) hidle (by simp [hrun]) ht
  | out =>
    simp only [hrun] at hstep
    cases hstep
    exact .out hrun
  | «return» =>
    simp only [hrun] at hstep
    obtain ⟨r,hr,rfl⟩ := Option.map_eq_some_iff.mp hstep
    obtain ⟨t,ht,rfl⟩ := Option.map_eq_some_iff.mp hr
    exact .return hrun ht

theorem swCount_places (s : State) : (swCount s).timer = s.timer ∧ (swCount s).mutex = s.mutex ∧
    (swCount s).run = s.run ∧ (swCount s).shell = s.shell := by
  unfold swCount
  simp only
  split <;> exact ⟨rfl,rfl,rfl,rfl⟩

/-! ## The steps of the shell -/

inductive ShellPc.Locks : ShellPc → ShellPc → Prop where
  | start : Locks .startLock .startTest
  | stop : Locks .stopLock .stopClear
  | resume : Locks .resumeLock .resumeSet
  | read : Locks .readLock .out
  | wait (seconds : UInt32) : Locks (.waitLock seconds) (.waitTest seconds)
  | condvar : Locks .condvarLock .waitRetest

theorem ShellPc.Locks.holds {a b : ShellPc} (h : Locks a b) : a ≠ .scheduling ∧ b.holds = true := by
  cases h <;> exact ⟨nofun,rfl⟩

/-- Where the shell goes when it changes nothing. -/
inductive ShellPc.Goes (s : State) : ShellPc → Prop where
  | started : s.shell = .startTest → s.timerScheduled = true → Goes s .out
  | scheduled : s.shell = .scheduling → s.timer.at (.thread ()) = .idle → Goes s .out
  | refuse {seconds : Option UInt32} : s.shell = .wait seconds → Goes s .idle
  | accept {seconds : UInt32} : s.shell = .wait (some seconds) → seconds.toNat ≤ SW_MAX_WAIT →
      Goes s (.waitLock seconds)
  | disabled {seconds : UInt32} : s.shell = .waitTest seconds → Goes s .out
  | again : s.shell = .waitRetest → s.shellWaiting = true → Goes s .condvarWait
  | done : s.shell = .waitRetest → s.shellWaiting = false → Goes s .out

inductive ShellMove (fuel : ℕ) (s : State) : State → Prop where
  | lock {shell : ShellPc} : ShellPc.Locks s.shell shell → s.mutex = none →
      ShellMove fuel s { s with mutex := some (.thread ()), shell := shell }
  | goto {shell : ShellPc} : ShellPc.Goes s shell → ShellMove fuel s { s with shell := shell }
  | start : s.shell = .startTest → s.timerScheduled = false →
      ShellMove fuel s { s with ticks := 0, timerScheduled := true, shell := .schedule }
  | stop : s.shell = .stopClear → ShellMove fuel s { s with timerScheduled := false, shell := .out }
  | resume : s.shell = .resumeSet →
      ShellMove fuel s { s with timerScheduled := true, shell := .schedule }
  | schedule : s.shell = .schedule → ShellMove fuel s { s with
      timer := s.timer.setThread () (.scheduleLock () (.ofNat (timerNow s.timer.toData + 1)))
      shell := .scheduling }
  | call {r : Timer.State Unit Unit} : s.shell = .scheduling →
      callStep fuel (.thread ()) s.timer (s.timer.thread ()) = some (r,(s.timer.thread ()).next) →
      ShellMove fuel s { s with timer := r.setThread () (s.timer.thread ()).next }
  | wait {seconds : UInt32} : s.shell = .waitTest seconds → ShellMove fuel s { s with
      shellWaiting := true
      waitTicks := (s.ticks + seconds.toNat * THREAD_SCHED_FREQ) % 2 ^ 32
      shell := .condvarWait }
  | sleep : s.shell = .condvarWait →
      ShellMove fuel s { s with mutex := none, waiter := some false, shell := .condvarSleep }
  | wakeup : s.shell = .condvarSleep → ShellMove fuel s { s with waiter := none, shell := .condvarLock }
  | out : s.shell = .out → ShellMove fuel s { s with mutex := none, shell := .idle }

theorem swShell_move {fuel : ℕ} (hstep : swShell fuel s = some s') : ShellMove fuel s s' := by
  have hlock : ∀ {shell : ShellPc}, ShellPc.Locks s.shell shell →
      (mutexLock s (.thread ())).map (fun s => { s with shell := shell }) = some s' →
        ShellMove fuel s s' := by
    intro shell hlocks hl
    cases hm : s.mutex with
    | some a => simp [mutexLock,hm] at hl
    | none =>
      simp only [mutexLock,hm,Option.map_some,Option.some.injEq] at hl
      rw [← hl]
      exact .lock hlocks hm
  unfold swShell at hstep
  cases hshell : s.shell with
  | idle => simp [hshell] at hstep
  | startLock | stopLock | resumeLock | readLock | waitLock | condvarLock =>
    simp only [hshell] at hstep
    apply hlock _ hstep
    rw [hshell]
    constructor
  | startTest =>
    simp only [hshell] at hstep
    split at hstep
    · next hscheduled =>
      cases hstep
      exact .goto (.started hshell hscheduled)
    · next hscheduled =>
      cases hstep
      exact .start hshell (Bool.eq_false_iff.mpr hscheduled)
  | stopClear =>
    simp only [hshell] at hstep
    cases hstep
    exact .stop hshell
  | resumeSet =>
    simp only [hshell] at hstep
    cases hstep
    exact .resume hshell
  | schedule =>
    simp only [hshell] at hstep
    cases hstep
    exact .schedule hshell
  | scheduling =>
    simp only [hshell] at hstep
    split at hstep
    · next hidle =>
      cases hstep
      exact .goto (.scheduled hshell hidle)
    · obtain ⟨⟨r,pc⟩,hr,rfl⟩ := Option.map_eq_some_iff.mp hstep
      obtain rfl := callStep_next hr
      rw [← hshell]
      exact .call hshell hr
  | wait seconds =>
    cases seconds with
    | none =>
      simp only [hshell] at hstep
      cases hstep
      exact .goto (.refuse hshell)
    | some seconds =>
      simp only [hshell] at hstep
      split at hstep
      · cases hstep
        exact .goto (.refuse hshell)
      · next hle =>
        cases hstep
        exact .goto (.accept hshell (not_lt.mp hle))
  | waitTest seconds =>
    simp only [hshell] at hstep
    split at hstep
    · cases hstep
      exact .wait hshell
    · cases hstep
      exact .goto (.disabled hshell)
  | condvarWait =>
    simp only [hshell] at hstep
    cases hstep
    exact .sleep hshell
  | condvarSleep =>
    simp only [hshell] at hstep
    split at hstep
    · cases hstep
      exact .wakeup hshell
    · cases hstep
  | waitRetest =>
    simp only [hshell,Option.some.injEq] at hstep
    rw [← hstep]
    split
    · next hw => exact .goto (.again hshell hw)
    · next hw => exact .goto (.done hshell (Bool.eq_false_iff.mpr hw))
  | out =>
    simp only [hshell] at hstep
    cases hstep
    exact .out hshell

namespace Inv

theorem taken_none (h : Inv s) (hrun : s.run ≠ .off) : s.timer.pc.taken = none := by
  obtain ⟨now,asof,k,c,pc,hpc⟩ := h.callback.mpr hrun
  rw [hpc]
  rfl

theorem hand_of_pending (h : Inv s) (hpending : (s.timer.at .timer).pending = true) :
    s.runHand = true := by
  have hin := h.inner
  rw [State.runHand,Bool.or_eq_true]
  right
  change s.run.hand (s.timer.at .timer) = true
  revert hpending hin
  cases s.run <;> cases s.timer.at .timer <;> simp [RunPc.allows,RunPc.hand,Pc.pending]

theorem unlinked (h : Inv s) : ∀ a, (s.timer.at a).pending = true → ¬Linked s.timer.toData () := by
  intro a ha
  cases a with
  | timer => exact (h.exclusive.run (h.hand_of_pending ha)).1
  | thread t => exact h.exclusive.shell ha

theorem timer_step (h : Inv s) {t : Timer.State Unit Unit} (hstep : Timer.Step s.timer t) :
    ∃ ks, Timer.Inv t ks := by
  obtain ⟨ks,hi⟩ := h.timer
  refine hstep.inv hi fun a k ticks hat => ?_
  refine h.unlinked a ?_
  rw [hat]
  rfl

theorem held_run (h : Inv s) (hshell : s'.shell = s.shell)
    (hself : (s'.mutex = s.mutex ∧ s'.run.holds = s.run.holds) ∨
      (s.mutex = none ∧ s'.mutex = some .timer ∧ s'.run.holds = true) ∨
      (s.run.holds = true ∧ s'.mutex = none ∧ s'.run.holds = false)) : Owned s'.mutex s'.holds := by
  refine h.held.update (a := .timer) (fun b hb => ?_) hself
  cases b with
  | timer => exact absurd rfl hb
  | thread t => rw [State.holds,State.holds,hshell]

theorem held_shell (h : Inv s) (hrun : s'.run = s.run)
    (hself : (s'.mutex = s.mutex ∧ s'.shell.holds = s.shell.holds) ∨
      (s.mutex = none ∧ s'.mutex = some (.thread ()) ∧ s'.shell.holds = true) ∨
      (s.shell.holds = true ∧ s'.mutex = none ∧ s'.shell.holds = false)) : Owned s'.mutex s'.holds := by
  refine h.held.update (a := .thread ()) (fun b hb => ?_) hself
  cases b with
  | timer => rw [State.holds,State.holds,hrun]
  | thread t => exact absurd rfl hb

theorem congr (h : Inv s) (htimer : s'.timer = s.timer) (hmutex : s'.mutex = s.mutex)
    (hrun : s'.run = s.run) (hshell : s'.shell = s.shell) : Inv s' := by
  have hholds : s'.holds = s.holds := by
    funext a
    cases a with
    | timer => simp [State.holds,hrun]
    | thread t => simp [State.holds,hshell]
  refine ⟨?_,?_,?_,?_,?_,?_⟩
  · rw [htimer]
    exact h.timer
  · rw [htimer,hrun]
    exact h.callback
  · rw [htimer,hrun]
    exact h.inner
  · rw [htimer,hshell]
    exact h.thread
  · rw [hmutex,hholds]
    exact h.held
  · refine h.exclusive.mono ?_ ?_ ?_
    · rw [htimer]
      exact id
    · rw [State.runHand,State.runHand,htimer,hrun]
      exact id
    · rw [State.shellHand,State.shellHand,htimer]
      exact id

theorem runGoto (h : Inv s) {mutex : Option (Actor Unit)} {run : RunPc} (hoff : s.run ≠ .off)
    (hoff' : run ≠ .off) (hidle : s.timer.at .timer = .idle)
    (hhand : run.hand .idle = true → s.run.hand .idle = true)
    (hself : (mutex = s.mutex ∧ run.holds = s.run.holds) ∨
      (s.mutex = none ∧ mutex = some .timer ∧ run.holds = true) ∨
      (s.run.holds = true ∧ mutex = none ∧ run.holds = false)) :
    Inv { s with mutex := mutex, run := run } := by
  have hinner : s.timer.pc.inner = .idle := hidle
  refine ⟨h.timer,?_,?_,h.thread,?_,?_⟩
  · exact h.callback.trans ⟨fun _ => hoff',fun _ => hoff⟩
  · change run.allows (s.timer.at .timer) = true
    rw [hidle]
    cases run <;> rfl
  · exact h.held_run rfl hself
  · refine h.exclusive.mono id ?_ id
    rw [State.runHand,State.runHand,Bool.or_eq_true,Bool.or_eq_true,hinner]
    exact Or.imp id hhand

theorem shellGoto (h : Inv s) {mutex : Option (Actor Unit)} {shell : ShellPc}
    (hidle : s.timer.at (.thread ()) = .idle)
    (hself : (mutex = s.mutex ∧ shell.holds = s.shell.holds) ∨
      (s.mutex = none ∧ mutex = some (.thread ()) ∧ shell.holds = true) ∨
      (s.shell.holds = true ∧ mutex = none ∧ shell.holds = false)) :
    Inv { s with mutex := mutex, shell := shell } := by
  refine ⟨h.timer,h.callback,h.inner,?_,?_,h.exclusive.mono id id id⟩
  · change shell.allows (s.timer.at (.thread ())) = true
    rw [hidle]
    cases shell <;> rfl
  · exact h.held_shell rfl hself

theorem runCall (h : Inv s) (hrunning : s.timer.running = true) {pc : Pc Unit} {run : RunPc}
    (hb : Begins pc) (hoff : s.run ≠ .off) (hidle : s.timer.at .timer = .idle)
    (hallows : run.allows pc = true) (hhand : s.run.hand .idle = true)
    (hholds : run.holds = s.run.holds) : Inv { s.timerCall pc with run := run } := by
  obtain ⟨now,asof,k,c,pc',hpc⟩ := h.callback.mpr hoff
  have hpc' : pc' = .idle := by
    rw [State.at,hpc] at hidle
    exact hidle
  subst hpc'
  have htimer : { s.timer with pc := s.timer.pc.setInner pc } =
      { s.timer with pc := .callback now asof k c pc } := by
    rw [hpc]
    rfl
  have hoff' : run ≠ .off := by
    rintro rfl
    cases hb <;> cases hallows
  have hhand' : s.runHand = true := by
    rw [State.runHand,hpc,Bool.or_eq_true]
    exact .inr hhand
  refine ⟨?_,?_,?_,h.thread,?_,?_⟩
  · change ∃ ks, Timer.Inv { s.timer with pc := s.timer.pc.setInner pc } ks
    rw [htimer]
    exact h.timer_step (.timerBegin hrunning hpc hb)
  · refine ⟨fun _ => hoff',fun _ => ⟨now,asof,k,c,pc,?_⟩⟩
    simp [State.timerCall,hpc,TimerPc.setInner]
  · simpa [State.timerCall,State.at,hpc,TimerPc.setInner,TimerPc.inner] using hallows
  · exact h.held_run rfl (.inl ⟨rfl,hholds⟩)
  · exact h.exclusive.mono id (fun _ => hhand') id

/-- A step of the callback in timer.c is a step of the function it has called. -/
theorem callback_call (h : Inv s) {fuel : ℕ} {t : Timer.State Unit Unit} (hoff : s.run ≠ .off)
    (hbusy : s.timer.at .timer ≠ .idle) (ht : timerRun fuel s.timer = some t) :
    ∃ r, callStep fuel .timer s.timer (s.timer.at .timer) = some (r,(s.timer.at .timer).next) ∧
      t = r.put .timer (s.timer.at .timer).next := by
  obtain ⟨now,asof,k,c,pc,hpc⟩ := h.callback.mpr hoff
  have hat : s.timer.at .timer = pc := by
    rw [State.at,hpc]
    rfl
  obtain ⟨r,pc',hcall,hput⟩ := timerRun_callback hpc (by rwa [← hat]) ht
  obtain rfl := callStep_next hcall
  exact ⟨r,hcall,hput⟩

theorem runStep (h : Inv s) (hrunning : s.timer.running = true) {fuel : ℕ} {t : Timer.State Unit Unit}
    (hoff : s.run ≠ .off) (hbusy : s.timer.at .timer ≠ .idle) (ht : timerRun fuel s.timer = some t) :
    Inv { s with timer := t } := by
  obtain ⟨now,asof,k,c,pc,hpc⟩ := h.callback.mpr hoff
  obtain ⟨r,hcall,hput⟩ := h.callback_call hoff hbusy ht
  have hinv := h.timer_step (.timer fuel hrunning ht)
  subst hput
  obtain ⟨hrpc,hrthread⟩ := callStep_pc hcall
  have hcalls : r.Calls .timer := ⟨now,asof,k,c,pc,hrpc.trans hpc⟩
  have hthread : (r.put .timer (s.timer.at .timer).next).thread = s.timer.thread := hrthread
  have hinner : (r.put .timer (s.timer.at .timer).next).pc.inner = (s.timer.at .timer).next :=
    at_put_self hcalls
  have hrunHand : ({ s with timer := r.put .timer (s.timer.at .timer).next } : State).runHand =
      s.run.hand (s.timer.at .timer).next := by
    rw [State.runHand,taken_put,hrpc,h.taken_none hoff,hinner]
    rfl
  refine ⟨hinv,?_,?_,?_,h.held,?_⟩
  · refine ⟨fun _ => hoff,fun _ => ⟨now,asof,k,c,(s.timer.at .timer).next,?_⟩⟩
    simp [State.put,hrpc,hpc,TimerPc.setInner]
  · rw [at_put_self hcalls]
    exact RunPc.allows_next h.inner
  · change s.shell.allows ((r.put .timer _).thread ()) = true
    rw [hthread]
    exact h.thread
  · have hshell : ({ s with timer := r.put .timer (s.timer.at .timer).next } : State).shellHand =
        s.shellHand := by
      rw [State.shellHand,hthread]
      rfl
    rcases callStep_links hcall with ⟨j,ticks,hinsert⟩ | ⟨hlinks,-⟩
    · -- The callback links the timer: before it had the timer in hand, and after it no one has.
      have hin := h.inner
      rw [hinsert] at hin
      have hhand : s.runHand = true := by
        change (s.timer.pc.taken.isSome || s.run.hand (s.timer.at .timer)) = true
        rw [hinsert,Bool.or_eq_true]
        right
        revert hin
        cases s.run <;> simp [RunPc.allows,RunPc.hand,Pc.pending]
      refine Exclusive.of_free (hrunHand.trans ?_) (hshell.trans (h.exclusive.run hhand).2)
      rw [hinsert]
      revert hin
      cases s.run <;> simp [RunPc.allows,RunPc.hand,Pc.pending,Pc.next]
    · refine h.exclusive.mono (fun hl => Linked.congr hl hlinks) ?_ (by rw [hshell]; exact id)
      intro hr
      rw [hrunHand] at hr
      rw [State.runHand,Bool.or_eq_true]
      exact .inr (RunPc.hand_of_next hr)

theorem shellStep (h : Inv s) {fuel : ℕ} {r : Timer.State Unit Unit} {pc : Pc Unit}
    (hcall : callStep fuel (.thread ()) s.timer (s.timer.thread ()) = some (r,pc)) :
    Inv { s with timer := r.setThread () pc } := by
  obtain rfl := callStep_next hcall
  have hinv := h.timer_step (.thread fuel hcall)
  obtain ⟨hrpc,hrthread⟩ := callStep_pc hcall
  have hrunHand : ({ s with timer := r.setThread () (s.timer.thread ()).next } : State).runHand =
      s.runHand := by
    change (r.pc.taken.isSome || s.run.hand r.pc.inner) = s.runHand
    rw [hrpc]
    rfl
  have hthread : (r.setThread () (s.timer.thread ()).next).thread () = (s.timer.thread ()).next := by
    simp [State.setThread]
  refine ⟨hinv,?_,?_,?_,h.held,?_⟩
  · change (∃ now asof k c pc, r.pc = .callback now asof k c pc) ↔ s.run ≠ .off
    rw [hrpc]
    exact h.callback
  · change s.run.allows r.pc.inner = true
    rw [hrpc]
    exact h.inner
  · change s.shell.allows ((r.setThread () _).thread ()) = true
    rw [hthread]
    exact ShellPc.allows_next h.thread
  · rcases callStep_links hcall with ⟨j,ticks,hinsert⟩ | ⟨hlinks,-⟩
    · refine Exclusive.of_free (hrunHand.trans ?_) ?_
      · rw [Bool.eq_false_iff]
        intro hr
        have := (h.exclusive.run hr).2
        rw [State.shellHand,hinsert] at this
        cases this
      · rw [State.shellHand,hthread,hinsert]
        rfl
    · refine h.exclusive.mono (fun hl => Linked.congr hl hlinks) (by rw [hrunHand]; exact id) ?_
      intro hs
      rw [State.shellHand,hthread] at hs
      exact pending_of_next hs

theorem outside (h : Inv s) (hrunning : s.timer.running = true) {fuel : ℕ}
    {t : Timer.State Unit Unit} (hoff : s.run = .off) (hstep : timerRun fuel s.timer = some t) :
    (¬t.Calls .timer ∧ Inv { s with timer := t }) ∨
    (t.Calls .timer ∧ Inv { s with timer := t, run := .lock }) := by
  obtain ⟨ks,hi⟩ := h.timer
  have hout : ¬s.timer.Calls .timer := fun hc => h.callback.mp hc hoff
  have hinv := h.timer_step (.timer fuel hrunning hstep)
  have hhand : ∀ {u : Timer.State Unit Unit}, ({ s with timer := u } : State).runHand =
      u.pc.taken.isSome := by
    intro u
    simp [State.runHand,hoff,RunPc.hand]
  have hallows : ∀ {run : RunPc} {u : Timer.State Unit Unit}, u.pc.inner = .idle →
      run.allows (u.at .timer) = true := by
    intro run u hu
    rw [State.at,hu]
    cases run <;> rfl
  obtain ⟨hthread,-,⟨hlinks,htaken,hout'⟩ | ⟨k,ks',rfl,hlisted,-,hout'⟩ | ⟨hlinks,htaken,-,hin',
    hidle'⟩⟩ :=
    timerRun_outside hi hout hstep
  · left
    refine ⟨hout',hinv,?_,hallows (inner_of_not_calls hout'),?_,h.held,?_⟩
    · exact ⟨fun hc => absurd hc hout',fun hc => absurd hoff hc⟩
    · change s.shell.allows (t.thread ()) = true
      rw [hthread]
      exact h.thread
    · refine h.exclusive.mono (fun hl => Linked.congr hl hlinks) ?_ ?_
      · rw [hhand,htaken,State.runHand,Bool.or_eq_true]
        exact .inl
      · rw [State.shellHand,State.shellHand,hthread]
        exact id
  · -- The timer thread takes the only timer of the list.
    left
    refine ⟨hout',hinv,?_,hallows (inner_of_not_calls hout'),?_,h.held,?_⟩
    · exact ⟨fun hc => absurd hc hout',fun hc => absurd hoff hc⟩
    · change s.shell.allows (t.thread ()) = true
      rw [hthread]
      exact h.thread
    · have hlinked : Linked s.timer.toData () := (linked_iff hi.listed.ring ()).mpr (by simp)
      have hempty : ks' = [] := by
        cases ks' with
        | nil => rfl
        | cons j ks' =>
          have := hi.listed.nodup
          simp at this
      have hunlinked : ¬Linked t.toData () := by
        rw [linked_iff hlisted.ring,hempty]
        simp
      have hshell : ({ s with timer := t } : State).shellHand = s.shellHand := by
        rw [State.shellHand,hthread]
        rfl
      refine ⟨fun _ => ⟨hunlinked,?_⟩,fun _ => hunlinked⟩
      rw [hshell,Bool.eq_false_iff]
      exact fun hs => h.exclusive.shell hs hlinked
  · right
    refine ⟨hin',hinv,?_,hallows hidle',?_,?_,?_⟩
    · exact ⟨fun _ => by simp,fun _ => hin'⟩
    · change s.shell.allows (t.thread ()) = true
      rw [hthread]
      exact h.thread
    · refine h.held_run rfl (.inl ⟨rfl,?_⟩)
      rw [hoff]
      rfl
    · refine h.exclusive.mono (fun hl => Linked.congr hl hlinks) (fun _ => ?_) ?_
      · rw [State.runHand,htaken]
        rfl
      · rw [State.shellHand,State.shellHand,hthread]
        exact id

theorem idle_of_run (h : Inv s) (hrun : s.run ≠ .getTime ∧ s.run ≠ .schedule) :
    s.timer.at .timer = .idle := by
  have hin := h.inner
  revert hin hrun
  cases s.run <;> cases s.timer.at .timer <;> simp [RunPc.allows]

theorem idle_of_shell (h : Inv s) (hshell : s.shell ≠ .scheduling) :
    s.timer.at (.thread ()) = .idle := by
  have hin := h.thread
  revert hin hshell
  cases s.shell <;> cases s.timer.at (.thread ()) <;> simp [ShellPc.allows]

theorem return_lock (h : Inv s) (hrun : s.run = .return) {fuel : ℕ} {t : Timer.State Unit Unit}
    (ht : timerRun fuel s.timer = some t) : ∃ now asof, t = { s.timer with pc := .lock now asof } := by
  obtain ⟨now,asof,k,c,pc,hpc⟩ := h.callback.mpr (by simp [hrun])
  have hidle := h.idle_of_run (by simp [hrun])
  rw [State.at,hpc] at hidle
  simp only [TimerPc.inner] at hidle
  subst hidle
  simp only [timerRun,hpc,Option.some.injEq] at ht
  exact ⟨now,asof,ht.symm⟩

theorem swTimerRun (h : Inv s) (hrunning : s.timer.running = true) {fuel : ℕ}
    (hstep : swTimerRun fuel s = some s') : Inv s' := by
  cases swTimerRun_move hstep with
  | outside hrun ht hout =>
    rcases h.outside hrunning hrun ht with ⟨-,hi⟩ | ⟨hin,-⟩
    · exact hi
    · exact absurd hin hout
  | callback hrun ht hin =>
    rcases h.outside hrunning hrun ht with ⟨hout,-⟩ | ⟨-,hi⟩
    · exact absurd hin hout
    · exact hi
  | lock hrun hm =>
    exact h.runGoto (by simp [hrun]) (by simp) (h.idle_of_run (by simp [hrun]))
      (by simp [hrun,RunPc.hand])
      (.inr (.inl ⟨hm,rfl,rfl⟩))
  | test hrun =>
    refine h.runGoto (by simp [hrun]) ?_ (h.idle_of_run (by simp [hrun]))
      (by simp [hrun,RunPc.hand]) (.inl ⟨rfl,?_⟩)
    · split <;> simp
    · rw [hrun]
      split <;> rfl
  | count hrun =>
    obtain ⟨htimer,hmutex,hrun',hshell⟩ := swCount_places s
    have hi : Inv (swCount s) := h.congr htimer hmutex hrun' hshell
    rw [hrun] at hrun'
    exact hi.runCall (by rw [htimer]; exact hrunning) (.getTime ()) (by simp [hrun'])
      (hi.idle_of_run (by simp [hrun']))
      rfl (by rw [hrun']; rfl) (by rw [hrun']; rfl)
  | gotTime hrun hidle =>
    exact h.runCall hrunning (.schedule () _) (by simp [hrun]) hidle rfl (by rw [hrun]; rfl)
      (by rw [hrun]; rfl)
  | read hrun hread ht =>
    exact (h.runStep hrunning (by simp [hrun]) (by simp [hread]) ht).congr rfl rfl rfl rfl
  | call hrun hbusy _ ht =>
    refine h.runStep hrunning ?_ hbusy ht
    rcases hrun with hrun | hrun <;> simp [hrun]
  | scheduled hrun hidle =>
    exact h.runGoto (by simp [hrun]) (by simp) hidle (by simp [RunPc.hand])
      (.inl ⟨rfl,by rw [hrun]; rfl⟩)
  | out hrun =>
    exact h.runGoto (by simp [hrun]) (by simp) (h.idle_of_run (by simp [hrun])) (by simp [RunPc.hand])
      (.inr (.inr ⟨by rw [hrun]; rfl,rfl,rfl⟩))
  | «return» hrun ht =>
    have hinv := h.timer_step (.timer fuel hrunning ht)
    obtain ⟨now,asof,rfl⟩ := h.return_lock hrun ht
    refine ⟨hinv,?_,rfl,h.thread,?_,?_⟩
    · simp [State.Calls]
    · exact h.held_run rfl (.inl ⟨rfl,by rw [hrun]; rfl⟩)
    · refine h.exclusive.mono id (fun hr => ?_) id
      simp [State.runHand,TimerPc.taken,RunPc.hand] at hr

theorem shellCall (h : Inv s) (hspare : Spare s) (hshell : s.shell = .schedule) (ticks : UInt32) :
    Inv { s with timer := s.timer.setThread () (.scheduleLock () ticks), shell := .scheduling } := by
  have hidle := h.idle_of_shell (by simp [hshell])
  have hinv := h.timer_step (.threadBegin hidle (.schedule () ticks))
  -- The shell has `sw_mutex`, so that the callback is not past its `mutex_lock`.
  have hrun : s.run.holds = false := by
    rw [Bool.eq_false_iff]
    intro hr
    have heq : Actor.timer = Actor.thread () := h.held.unique hr (by rw [State.holds,hshell]; rfl)
    cases heq
  have hhand : s.run.hand s.timer.pc.inner = false := by
    have hlock := hspare.callback
    revert hrun hlock
    cases s.run <;> simp [RunPc.holds,RunPc.hand]
  refine ⟨hinv,h.callback,h.inner,?_,?_,?_,fun _ => hspare.unlinked⟩
  · simp [State.at,State.setThread,ShellPc.allows]
  · exact h.held_shell rfl (.inl ⟨rfl,by rw [hshell]; rfl⟩)
  · intro hr
    change (s.timer.pc.taken.isSome || s.run.hand s.timer.pc.inner) = true at hr
    rw [hspare.taken,hhand] at hr
    cases hr

theorem swShell (h : Inv s) {fuel : ℕ} (hspare : s.shell = .schedule → Spare s)
    (hstep : swShell fuel s = some s') : Inv s' := by
  have hgoto : ∀ shell : ShellPc, s.shell ≠ .scheduling → shell.holds = s.shell.holds →
      Inv { s with shell := shell } := fun _ hne hholds => h.shellGoto (h.idle_of_shell hne) (.inl ⟨rfl,hholds⟩)
  cases swShell_move hstep with
  | lock hlocks hm =>
    exact h.shellGoto (h.idle_of_shell hlocks.holds.1) (.inr (.inl ⟨hm,rfl,hlocks.holds.2⟩))
  | goto hgoes =>
    cases hgoes with
    | scheduled hshell hidle => exact h.shellGoto hidle (.inl ⟨rfl,by rw [hshell]; rfl⟩)
    | started hshell _ | refuse hshell | accept hshell _ | disabled hshell | again hshell _ | done hshell _ =>
      exact hgoto _ (by simp [hshell]) (by rw [hshell]; rfl)
  | start hshell _ | resume hshell =>
    exact (hgoto .schedule (by simp [hshell]) (by rw [hshell]; rfl)).congr rfl rfl rfl rfl
  | stop hshell => exact (hgoto .out (by simp [hshell]) (by rw [hshell]; rfl)).congr rfl rfl rfl rfl
  | schedule hshell => exact h.shellCall (hspare hshell) hshell _
  | call hshell hcall => exact h.shellStep hcall
  | wait hshell =>
    exact (hgoto .condvarWait (by simp [hshell]) (by rw [hshell]; rfl)).congr rfl rfl rfl rfl
  | sleep hshell =>
    have hi : Inv { s with mutex := none, shell := .condvarSleep } :=
      h.shellGoto (h.idle_of_shell (by simp [hshell])) (.inr (.inr ⟨by rw [hshell]; rfl,rfl,rfl⟩))
    exact hi.congr rfl rfl rfl rfl
  | wakeup hshell =>
    exact (hgoto .condvarLock (by simp [hshell]) (by rw [hshell]; rfl)).congr rfl rfl rfl rfl
  | out hshell =>
    exact h.shellGoto (h.idle_of_shell (by simp [hshell])) (.inr (.inr ⟨by rw [hshell]; rfl,rfl,rfl⟩))

end Inv

/-- The steps other than the call of `timer_schedule` by the shell need no condition. -/
theorem Step.inv (hstep : Step s s') (h : Inv s)
    (hspare : s.shell = .schedule → s'.shell = .scheduling → Spare s) : Inv s' := by
  have hkeep : ∀ {t : Timer.State Unit Unit}, Timer.Step s.timer t → t.links = s.timer.links →
      t.pc = s.timer.pc →
      t.thread = s.timer.thread → Inv { s with timer := t } := by
    intro t ht hlinks hpc hthread
    refine ⟨h.timer_step ht,?_,?_,?_,h.held,h.exclusive.mono (fun hl => Linked.congr hl hlinks) ?_ ?_⟩
    · simpa [State.Calls,hpc] using h.callback
    · simpa [State.at,hpc] using h.inner
    · simpa [State.at,hthread] using h.thread
    · simp [State.runHand,hpc]
    · simp [State.shellHand,hthread]
  cases hstep with
  | tick =>
    have htick : Timer.Step s.timer (timerReportTick s.timer) := .tick
    obtain ⟨running,he⟩ := timerReportTick_eq s.timer
    rw [he] at htick ⊢
    exact hkeep htick rfl rfl rfl
  | timer fuel hrunning hrun => exact h.swTimerRun hrunning hrun
  | timerBlock hblocks => exact hkeep (.timerBlock hblocks) rfl rfl rfl
  | timerWakeup => exact hkeep .timerWakeup rfl rfl rfl
  | shell fuel hrun =>
    refine h.swShell (fun hshell => hspare hshell ?_) hrun
    simp only [swShell,hshell,Option.some.injEq] at hrun
    rw [← hrun]
  | command hidle hc =>
    refine h.shellGoto (h.idle_of_shell (by simp [hidle])) (.inl ⟨rfl,?_⟩)
    rw [hidle]
    cases hc <;> rfl

theorem Initial.inv (h : Initial s) : Inv s := by
  refine ⟨⟨[],h.timer.inv⟩,?_,?_,?_,?_,?_⟩
  · simp [State.Calls,h.timer.pc,h.pcs.1]
  · simp [State.at,h.timer.pc,h.pcs.1,TimerPc.inner,RunPc.allows]
  · simp [State.at,h.timer.thread,h.pcs.2,ShellPc.allows]
  · intro a
    rw [h.mutex]
    cases a with
    | timer =>
      rw [State.holds,h.pcs.1]
      simp [RunPc.holds]
    | thread t =>
      change none = some (Actor.thread t) ↔ s.shell.holds = true
      rw [h.pcs.2]
      constructor
      · intro he
        cases he
      · intro he
        cases he
  · have hrun : s.runHand = false := by
      rw [State.runHand,h.timer.pc,h.pcs.1]
      rfl
    have hshell : s.shellHand = false := by
      rw [State.shellHand,h.timer.thread]
      rfl
    exact Exclusive.of_free hrun hshell

end X1.Stopwatch
