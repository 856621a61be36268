import X1.Stopwatch.Signalled

/-! # Counting and waiting are exact

The runs whose commands are `sw_start`, `sw_read` and `sw_wait`. The timer is scheduled once
by the shell, for the tick after the one `timer_now` gave, and from then on by its callback,
for the tick after its own. So at any time the timer has been given, or is about to be given,
the tick that `sw_ticks` calls for, and it is linked unless the timer thread has it in hand.
The counter comes up to `sw_wait_ticks` tick by tick, so that it cannot pass it while the
shell waits.
-/
namespace X1.Stopwatch
open X1 X1.Lib X1.Ring X1.Timer X1.Checked

/-- The list is a ring through its head, in which `sw_timer` is met exactly once. -/
def LinkedOnce (d : Data Unit) : Prop :=
  ∃ nodes, IsRing d.links.nextOf d.links.prevOf .head nodes ∧ nodes.count (.timer ()) = 1

/-- The timer thread has taken the timer, and its callback has not got `sw_mutex`. -/
def Taken (s : State) : Prop := s.timer.pc.taken.isSome = true ∨ s.run = .lock

/-- What the first `sw_start` got from `timer_now`, after a step. -/
def startRead (s s' : State) (first : Option ℕ) : Option ℕ :=
  first.or
    (if s.shell = .schedule ∧ s'.shell = .scheduling then some (timerNow s.timer.toData) else none)

/-- The runs without `sw_stop` and `sw_resume`, with what the first `sw_start` got from `timer_now`. -/
inductive Started : State → Option ℕ → Prop where
  | init {s : State} : Initial s → Started s none
  | step {s s' : State} {first : Option ℕ} : Started s first → Step s s' → s'.shell ≠ .stopLock →
      s'.shell ≠ .resumeLock → Started s' (startRead s s' first)

namespace ShellPc

def counted : ShellPc → Bool
  | stopLock | stopClear | resumeLock | resumeSet => false
  | waitLock seconds | waitTest seconds => decide (seconds.toNat ≤ SW_MAX_WAIT)
  | _ => true

def waits : ShellPc → Bool
  | condvarWait | condvarSleep | condvarLock | waitRetest => true
  | _ => false

end ShellPc

variable {s s' : State} {first : ℕ}

/-! ## Waiting -/

structure Waits (s : State) : Prop where
  place : s.shell.counted = true
  waiting : s.shellWaiting = true →
    s.shell.waits = true ∧ Word.sub s.waitTicks s.ticks ≤ SW_MAX_WAIT * THREAD_SCHED_FREQ

/-- A tick that brings the counter to `sw_wait_ticks`, or past it, clears `sw_shell_waiting`. -/
theorem swCount_waiting (h : (swCount s).shellWaiting = true) : s.shellWaiting = true ∧
    (Word.sub s.waitTicks s.ticks ≤ SW_MAX_WAIT * THREAD_SCHED_FREQ →
      Word.sub (swCount s).waitTicks (swCount s).ticks ≤ SW_MAX_WAIT * THREAD_SCHED_FREQ) := by
  unfold swCount at h ⊢
  simp only at h ⊢
  split at h
  · cases h
  · next hnot =>
    rw [if_neg hnot]
    change s.shellWaiting = true at h
    refine ⟨h,fun hle => ?_⟩
    -- The distance was not 0, or the target would have expired.
    have hnot' : Word.sub s.waitTicks ((s.ticks + 1) % 2 ^ 32) ≤ TIMER_THRESHOLD := by
      simp only [h,Bool.true_and,timerTicksOccurred,timerTicksExpired,Bool.or_eq_true,
        decide_eq_true_iff,not_or] at hnot
      exact not_lt.mp hnot.2
    simp only [Word.sub,SW_MAX_WAIT,THREAD_SCHED_FREQ,TIMER_THRESHOLD] at hle hnot' ⊢
    omega

theorem swCount_counts (s : State) : (swCount s).ticks = (s.ticks + 1) % 2 ^ 32 ∧
    (swCount s).timerScheduled = s.timerScheduled := by
  unfold swCount
  simp only
  split <;> exact ⟨rfl,rfl⟩

theorem swCount_clears (h : s.shellWaiting = true) (h' : (swCount s).shellWaiting = false) :
    timerTicksOccurred (swCount s).waitTicks (swCount s).ticks = true := by
  unfold swCount at h' ⊢
  simp only at h' ⊢
  split
  · next hif =>
    rw [Bool.and_eq_true] at hif
    exact hif.2
  · next hif =>
    rw [if_neg hif] at h'
    change s.shellWaiting = false at h'
    rw [h] at h'
    cases h'

theorem swTimerRun_waiting {fuel : ℕ} (hstep : swTimerRun fuel s = some s') :
    s'.shell = s.shell ∧
    ((s'.shellWaiting = s.shellWaiting ∧ s'.waitTicks = s.waitTicks ∧ s'.ticks = s.ticks) ∨
      (s'.shellWaiting = (swCount s).shellWaiting ∧ s'.waitTicks = (swCount s).waitTicks ∧
        s'.ticks = (swCount s).ticks)) := by
  cases swTimerRun_move hstep with
  | count _ => exact ⟨(swCount_places s).2.2.2,.inr ⟨rfl,rfl,rfl⟩⟩
  | _ => exact ⟨rfl,.inl ⟨rfl,rfl,rfl⟩⟩

theorem ShellPc.Locks.waits {a b : ShellPc} (h : Locks a b) : b.waits = a.waits := by
  cases h <;> rfl

theorem ShellPc.Locks.counted {a b : ShellPc} (h : Locks a b) (ha : a.counted = true) : b.counted = true := by
  cases h with
  | stop | resume => cases ha
  | wait seconds => exact ha
  | _ => rfl

theorem waits_same (hwaits : s'.shell.waits = s.shell.waits) :
    (s.shell.waits = false → s'.shell.waits = true → s'.shellWaiting = true) ∧
    (s.shell.waits = true → s'.shell.waits = false → s.shellWaiting = false) := by
  rw [hwaits]
  constructor
  · intro h h'
    rw [h] at h'
    cases h'
  · intro h h'
    rw [h] at h'
    cases h'

theorem swShell_waiting {fuel : ℕ} (hstep : swShell fuel s = some s') :
    (s.shell.waits = false → s'.shell.waits = true → s'.shellWaiting = true) ∧
    (s.shell.waits = true → s'.shell.waits = false → s.shellWaiting = false) ∧
    (s.shellWaiting = true → s'.shellWaiting = true) := by
  have hsame : s'.shell.waits = s.shell.waits → s'.shellWaiting = s.shellWaiting →
      (s.shell.waits = false → s'.shell.waits = true → s'.shellWaiting = true) ∧
      (s.shell.waits = true → s'.shell.waits = false → s.shellWaiting = false) ∧
      (s.shellWaiting = true → s'.shellWaiting = true) := by
    intro hwaits hwaiting
    obtain ⟨henter,hleave⟩ := waits_same hwaits
    exact ⟨henter,hleave,fun hw => hwaiting.trans hw⟩
  cases swShell_move hstep with
  | lock hlocks _ => exact hsame hlocks.waits rfl
  | goto hgoes =>
    cases hgoes with
    | again hshell hw | done hshell hw => simp [hshell,hw,ShellPc.waits]
    | started hshell _ | scheduled hshell _ | refuse hshell | accept hshell _ | disabled hshell =>
      exact hsame (by rw [hshell]; rfl) rfl
  | call hshell _ => exact hsame rfl rfl
  | wait hshell => simp [hshell,ShellPc.waits]
  | start hshell _ | stop hshell | resume hshell | schedule hshell | sleep hshell | wakeup hshell | out hshell =>
    exact hsame (by rw [hshell]; rfl) rfl

namespace Waits

theorem goto (h : Waits s) (hplace : s'.shell.counted = true)
    (hwaiting : s'.shellWaiting = s.shellWaiting)
    (hloop : s.shellWaiting = true → s.shell.waits = true → s'.shell.waits = true ∧
      s'.waitTicks = s.waitTicks ∧ s'.ticks = s.ticks) : Waits s' := by
  refine ⟨hplace,fun hw => ?_⟩
  rw [hwaiting] at hw
  obtain ⟨hwaits,hle⟩ := h.waiting hw
  obtain ⟨hwaits',htarget,hticks⟩ := hloop hw hwaits
  rw [htarget,hticks]
  exact ⟨hwaits',hle⟩

theorem swTimerRun (h : Waits s) {fuel : ℕ} (hstep : swTimerRun fuel s = some s') : Waits s' := by
  obtain ⟨hshell,⟨hwaiting,htarget,hticks⟩ | ⟨hwaiting,htarget,hticks⟩⟩ := swTimerRun_waiting hstep
  · refine h.goto ?_ hwaiting fun _ hwaits => ⟨?_,htarget,hticks⟩
    · rw [hshell]
      exact h.place
    · rw [hshell]
      exact hwaits
  · constructor
    · rw [hshell]
      exact h.place
    · intro hw
      rw [hwaiting] at hw
      rw [hshell,htarget,hticks]
      obtain ⟨hwaits,hle⟩ := h.waiting (swCount_waiting hw).1
      exact ⟨hwaits,(swCount_waiting hw).2 hle⟩

theorem swShell (h : Waits s) {fuel : ℕ} (hstep : swShell fuel s = some s') : Waits s' := by
  cases swShell_move hstep with
  | lock hlocks _ =>
    refine h.goto (hlocks.counted h.place) rfl fun _ hwaits => ⟨?_,rfl,rfl⟩
    rw [← hwaits]
    exact hlocks.waits
  | goto hgoes =>
    cases hgoes with
    | again hshell hw => exact h.goto rfl rfl fun _ _ => ⟨rfl,rfl,rfl⟩
    | done hshell hw => exact h.goto rfl rfl fun hs => by simp [hw] at hs
    | accept hshell hle =>
      exact h.goto (by simpa [ShellPc.counted] using hle) rfl (by simp [hshell,ShellPc.waits])
    | started hshell _ | scheduled hshell _ | refuse hshell | disabled hshell =>
      exact h.goto rfl rfl (by simp [hshell,ShellPc.waits])
  | start hshell _ | schedule hshell | out hshell =>
    exact h.goto rfl rfl (by simp [hshell,ShellPc.waits])
  | call hshell _ => exact h.goto h.place rfl fun _ hwaits => ⟨hwaits,rfl,rfl⟩
  | stop hshell | resume hshell =>
    have hplace := h.place
    rw [hshell] at hplace
    cases hplace
  | @wait seconds hshell =>
    have hle : seconds.toNat ≤ SW_MAX_WAIT := by
      have hplace := h.place
      rw [hshell] at hplace
      exact of_decide_eq_true hplace
    refine ⟨rfl,fun _ => ⟨rfl,?_⟩⟩
    rw [Word.sub_add_left]
    exact (Nat.mod_le _ _).trans (Nat.mul_le_mul_right _ hle)
  | sleep hshell | wakeup hshell => exact h.goto rfl rfl fun _ _ => ⟨rfl,rfl,rfl⟩

theorem step (h : Waits s) (hstep : Step s s') (hstop : s'.shell ≠ .stopLock)
    (hresume : s'.shell ≠ .resumeLock) : Waits s' := by
  cases hstep with
  | tick | timerBlock _ | timerWakeup => exact h.goto h.place rfl fun _ hwaits => ⟨hwaits,rfl,rfl⟩
  | timer fuel _ hrun => exact h.swTimerRun hrun
  | shell fuel hrun => exact h.swShell hrun
  | command hidle hc =>
    cases hc with
    | stop => exact absurd rfl hstop
    | resume => exact absurd rfl hresume
    | start | read | wait seconds => exact h.goto rfl rfl (by simp [hidle,ShellPc.waits])

end Waits

/-! ## Counting -/

/-- The ticks `timer_schedule` was called with, as long as it has not set the timer. -/
def given : Pc Unit → Option ℕ
  | .scheduleLock _ ticks | .scheduleInsert _ ticks => some ticks.toNat
  | _ => none

theorem given_eq_none {pc : Pc Unit} (h : pc.pending = false) : given pc = none := by
  cases pc with
  | scheduleLock k ticks | scheduleInsert k ticks => cases h
  | _ => rfl

theorem given_next {pc : Pc Unit} (h : ∀ k ticks, pc ≠ .scheduleInsert k ticks) :
    given pc.next = given pc := by
  cases pc with
  | scheduleInsert k ticks => exact absurd rfl (h k ticks)
  | _ => rfl

theorem pending_next {pc : Pc Unit} (h : ∀ k ticks, pc ≠ .scheduleInsert k ticks) :
    pc.next.pending = pc.pending := by
  cases pc with
  | scheduleInsert k ticks => exact absurd rfl (h k ticks)
  | _ => rfl

theorem RunPc.hand_next {run : RunPc} {pc : Pc Unit} (h : ∀ k ticks, pc ≠ .scheduleInsert k ticks) :
    run.hand pc.next = run.hand pc := by
  cases run with
  | schedule => exact pending_next h
  | _ => rfl

/-- The ticks that the timer has, or is about to be given. -/
def State.aim (s : State) : ℕ :=
  ((given (s.timer.thread ())).or (given s.timer.pc.inner)).getD
    (if s.run = .getTime then (s.timer.ticks () + 1) % 2 ^ 32 else s.timer.ticks ())

theorem aim_congr (hthread : given (s'.timer.thread ()) = given (s.timer.thread ()))
    (hinner : given s'.timer.pc.inner = given s.timer.pc.inner) (hticks : s'.timer.ticks = s.timer.ticks)
    (hrun : s'.run = .getTime ↔ s.run = .getTime) : s'.aim = s.aim := by
  simp only [State.aim,hthread,hinner,hticks,hrun]

theorem aim_eq_ticks (hthread : given (s.timer.thread ()) = none)
    (hinner : given s.timer.pc.inner = none) (hrun : s.run ≠ .getTime) :
    s.aim = s.timer.ticks () := by
  simp [State.aim,hthread,hinner,hrun]

theorem aim_getTime (hthread : given (s.timer.thread ()) = none) (hinner : given s.timer.pc.inner = none)
    (hrun : s.run = .getTime) : s.aim = (s.timer.ticks () + 1) % 2 ^ 32 := by
  simp [State.aim,hthread,hinner,hrun]

theorem aim_inner {n : ℕ} (hthread : given (s.timer.thread ()) = none)
    (hinner : given s.timer.pc.inner = some n) : s.aim = n := by
  simp [State.aim,hthread,hinner]

theorem aim_thread {n : ℕ} (hthread : given (s.timer.thread ()) = some n) : s.aim = n := by
  simp [State.aim,hthread]

structure Before (s : State) : Prop where
  unlinked : ¬Linked s.timer.toData ()
  taken : s.timer.pc.taken = none
  run : s.run = .off
  shell : s.shell ≠ .scheduling
  scheduled : s.timerScheduled = true ↔ s.shell = .schedule
  ticks : s.shell = .schedule → s.ticks = 0

/-- The timer has been scheduled, for the first time when `timer_now` gave `first`. -/
structure After (first : ℕ) (s : State) : Prop where
  scheduled : s.timerScheduled = true
  shell : s.shell ≠ .schedule
  present : Linked s.timer.toData () ∨ s.runHand = true ∨ s.shellHand = true
  aim : s.aim = (first + 1 + s.ticks) % 2 ^ 32
  time : s.run = .getTime → s.timer.at .timer = .unlock ∨ s.timer.at .timer = .idle →
    s.time = s.timer.ticks ()

theorem Before.spare (h : Before s) : Spare s := ⟨h.unlinked,h.taken,by simp [h.run]⟩

theorem callStep_insert (h : Inv s) {fuel : ℕ} {a : Actor Unit} {r : Timer.State Unit Unit} {ticks : UInt32} {pc : Pc Unit}
    (hunlinked : ¬Linked s.timer.toData ()) (hcall : callStep fuel a s.timer
      (.scheduleInsert () ticks) = some (r,pc)) :
    Linked r.toData () ∧ r.ticks () = ticks.toNat := by
  obtain ⟨ks,hi⟩ := h.timer
  obtain ⟨d,hd,he⟩ := Option.map_eq_some_iff.mp hcall
  cases he
  have hk : () ∉ ks := fun hk => hunlinked ((linked_iff hi.listed.ring ()).mpr hk)
  obtain ⟨l,r,-,hring,hticks,-⟩ := timerInsert_spec hi.listed.ring hk hd
  constructor
  · exact (linked_iff (d := d) hring ()).mpr (by simp)
  · change d.ticks () = ticks.toNat
    rw [hticks]
    simp

namespace ShellPc

def Away (pc : ShellPc) : Prop := pc ≠ .schedule ∧ pc ≠ .scheduling

theorem Locks.away {a b : ShellPc} (h : Locks a b) : a.Away ∧ b.Away := by
  cases h <;> simp [Away]

theorem Goes.away {pc : ShellPc} (h : Goes s pc) : s.shell ≠ .schedule ∧ pc.Away := by
  cases h with
  | started hshell _ | scheduled hshell _ | refuse hshell | accept hshell _ | disabled hshell | again hshell _
  | done hshell _ => simp [hshell,Away]

end ShellPc

namespace Before

theorem timer (h : Before s) {t : Timer.State Unit Unit} (hlinks : t.links = s.timer.links)
    (htaken : t.pc.taken = s.timer.pc.taken) : Before { s with timer := t } :=
  ⟨fun hl => h.unlinked (Linked.congr hl hlinks),htaken.trans h.taken,h.run,h.shell,h.scheduled,h.ticks⟩

theorem goto (h : Before s) (htimer : s'.timer = s.timer) (hrun : s'.run = s.run)
    (hscheduled : s'.timerScheduled = s.timerScheduled) (hne : s.shell ≠ .schedule)
    (haway : s'.shell.Away) : Before s' := by
  refine ⟨?_,?_,hrun.trans h.run,haway.2,⟨fun hs => ?_,fun hs => absurd hs haway.1⟩,
    fun hs => absurd hs haway.1⟩
  · rw [htimer]
    exact h.unlinked
  · rw [htimer]
    exact h.taken
  · rw [hscheduled] at hs
    exact absurd (h.scheduled.mp hs) hne

theorem swTimerRun (h : Before s) (hi : Inv s) {fuel : ℕ} (hstep : swTimerRun fuel s = some s') : Before s' := by
  obtain ⟨ks,htimer⟩ := hi.timer
  have hout : ¬s.timer.Calls .timer := fun hc => hi.callback.mp hc h.run
  have hoff : ∀ {t : Timer.State Unit Unit}, timerRun fuel s.timer = some t →
      ¬t.Calls .timer ∧ Before { s with timer := t } := by
    intro t ht
    obtain ⟨-,-,⟨hlinks,htaken,hout'⟩ | ⟨k,ks',rfl,-⟩ | ⟨-,htaken,-⟩⟩ := timerRun_outside htimer hout ht
    · exact ⟨hout',h.timer hlinks htaken⟩
    · exact absurd ((linked_iff htimer.listed.ring ()).mpr (by simp)) h.unlinked
    · rw [h.taken] at htaken
      cases htaken
  cases swTimerRun_move hstep with
  | outside _ ht _ => exact (hoff ht).2
  | callback _ ht hin => exact absurd hin (hoff ht).1
  | lock hrun _ | test hrun | count hrun | gotTime hrun _ | read hrun _ _ | scheduled hrun _ | out hrun | «return» hrun _ =>
    rw [h.run] at hrun
    cases hrun
  | call hrun _ _ _ =>
    rw [h.run] at hrun
    rcases hrun with hrun | hrun <;> cases hrun

theorem call (h : Before s) (hshell : s.shell = .schedule) :
    After (timerNow s.timer.toData) { s with
      timer := s.timer.setThread () (.scheduleLock () (.ofNat (timerNow s.timer.toData + 1)))
      shell := .scheduling } := by
  refine ⟨h.scheduled.mpr hshell,by simp,.inr (.inr ?_),?_,fun hrun => ?_⟩
  · simp [State.shellHand,State.setThread,Pc.pending]
  · simp [State.aim,State.setThread,given,h.ticks hshell]
  · change s.run = .getTime at hrun
    rw [h.run] at hrun
    cases hrun

theorem swShell (h : Before s) (hw : Waits s) {fuel : ℕ} (hstep : swShell fuel s = some s') :
    Before s' ∨ (s.shell = .schedule ∧ s'.shell = .scheduling ∧ After (timerNow s.timer.toData) s') := by
  cases swShell_move hstep with
  | lock hlocks _ => exact .inl (h.goto rfl rfl rfl hlocks.away.1.1 hlocks.away.2)
  | goto hgoes => exact .inl (h.goto rfl rfl rfl hgoes.away.1 hgoes.away.2)
  | start hshell _ =>
    left
    exact ⟨h.unlinked,h.taken,h.run,by simp,by simp,fun _ => rfl⟩
  | stop hshell | resume hshell =>
    have hplace := hw.place
    rw [hshell] at hplace
    cases hplace
  | schedule hshell => exact .inr ⟨hshell,rfl,h.call hshell⟩
  | call hshell _ => exact absurd hshell h.shell
  | wait hshell | sleep hshell | wakeup hshell | out hshell =>
    exact .inl (h.goto rfl rfl rfl (by simp [hshell]) (by simp [ShellPc.Away]))

theorem step (h : Before s) (hi : Inv s) (hw : Waits s) (hstep : Step s s') :
    Before s' ∨ (s.shell = .schedule ∧ s'.shell = .scheduling ∧ After (timerNow s.timer.toData) s') := by
  cases hstep with
  | tick =>
    obtain ⟨running,he⟩ := timerReportTick_eq s.timer
    rw [he]
    exact .inl (h.timer rfl rfl)
  | timer fuel _ hrun => exact .inl (h.swTimerRun hi hrun)
  | timerBlock _ | timerWakeup => exact .inl (h.timer rfl rfl)
  | shell fuel hrun => exact h.swShell hw hrun
  | command hidle hc =>
    left
    refine h.goto rfl rfl rfl (by simp [hidle]) ?_
    cases hc <;> simp [ShellPc.Away]

end Before

namespace After

theorem goto (h : After first s) (htimer : s'.timer = s.timer) (hrun : s'.run = s.run)
    (hticks : s'.ticks = s.ticks) (htime : s'.time = s.time)
    (hscheduled : s'.timerScheduled = s.timerScheduled) (hshell : s'.shell ≠ .schedule) :
    After first s' := by
  refine ⟨hscheduled.trans h.scheduled,hshell,?_,?_,?_⟩
  · simpa only [State.runHand,State.shellHand,htimer,hrun] using h.present
  · rw [hticks,← h.aim]
    refine aim_congr ?_ ?_ ?_ ?_ <;> simp only [htimer,hrun]
  · rw [htimer,hrun,htime]
    exact h.time

theorem runGoto (h : After first s) {mutex : Option (Actor Unit)} {run : RunPc}
    (hget : s.run ≠ .getTime) (hget' : run ≠ .getTime)
    (hhand : s.run.hand s.timer.pc.inner = true → run.hand s.timer.pc.inner = true) :
    After first { s with mutex := mutex, run := run } := by
  refine ⟨h.scheduled,h.shell,h.present.imp id (Or.imp (fun hr => ?_) id),?_,fun hr => absurd hr hget'⟩
  · rw [State.runHand,Bool.or_eq_true] at hr ⊢
    exact hr.imp id hhand
  · refine Eq.trans ?_ h.aim
    exact aim_congr rfl rfl rfl ⟨fun hr => absurd hr hget',fun hr => absurd hr hget⟩

theorem timer (h : After first s) {t : Timer.State Unit Unit} (hlinks : t.links = s.timer.links)
    (hticks : t.ticks = s.timer.ticks) (hpc : t.pc = s.timer.pc) (hthread : t.thread = s.timer.thread) :
    After first { s with timer := t } := by
  refine ⟨h.scheduled,h.shell,?_,?_,?_⟩
  · refine h.present.imp (fun hl => Linked.congr hl hlinks.symm) ?_
    simp only [State.runHand,State.shellHand,hpc,hthread]
    exact id
  · refine Eq.trans (aim_congr ?_ ?_ hticks Iff.rfl) h.aim
    · rw [hthread]
    · rw [hpc]
  · simpa only [State.at,hpc,hticks] using h.time

theorem outside (h : After first s) (hi : Inv s) {fuel : ℕ} {t : Timer.State Unit Unit}
    (hoff : s.run = .off) (ht : timerRun fuel s.timer = some t) :
    (¬t.Calls .timer → After first { s with timer := t }) ∧
    (t.Calls .timer → After first { s with timer := t, run := .lock }) := by
  obtain ⟨ks,htimer⟩ := hi.timer
  have hout : ¬s.timer.Calls .timer := fun hc => hi.callback.mp hc hoff
  obtain ⟨hthread,hticks,hcases⟩ := timerRun_outside htimer hout ht
  have haim : ∀ {r : State}, r.timer = t → t.pc.inner = .idle → r.run ≠ .getTime → r.aim = s.aim := by
    intro r hr hidle hrun
    refine aim_congr ?_ ?_ ?_ ⟨fun hr => absurd hr hrun,fun hr => by simp [hoff] at hr⟩
    · rw [hr,hthread]
    · rw [hr,hidle,inner_of_not_calls hout]
    · rw [hr,hticks]
  constructor
  · intro hout'
    have haim' := haim (r := { s with timer := t }) rfl (inner_of_not_calls hout') (by simp [hoff])
    refine ⟨h.scheduled,h.shell,?_,haim'.trans h.aim,by simp [hoff]⟩
    rcases hcases with ⟨hlinks,htaken,-⟩ | ⟨k,ks',-,-,htaken,-⟩ | ⟨-,-,-,hin',-⟩
    · refine h.present.imp (fun hl => Linked.congr hl hlinks.symm) ?_
      simp [State.runHand,State.shellHand,hoff,RunPc.hand,htaken,hthread]
    · right
      left
      rw [State.runHand,htaken]
      rfl
    · exact absurd hin' hout'
  · intro hin'
    have hidle : t.pc.inner = .idle := by
      rcases hcases with ⟨-,-,hout'⟩ | ⟨_,_,-,-,-,hout'⟩ | ⟨-,-,-,-,hidle⟩
      · exact absurd hin' hout'
      · exact absurd hin' hout'
      · exact hidle
    refine ⟨h.scheduled,h.shell,.inr (.inl ?_),(haim rfl hidle (by simp)).trans h.aim,by simp⟩
    simp [State.runHand,RunPc.hand]

theorem given_thread (hi : Inv s) (hhand : s.runHand = true) : given (s.timer.thread ()) = none :=
  given_eq_none (hi.exclusive.run hhand).2

theorem inner_timerCall (hi : Inv s) (hoff : s.run ≠ .off) (pc : Pc Unit) :
    (s.timerCall pc).timer.pc.inner = pc := by
  obtain ⟨now,asof,k,c,pc',hpc⟩ := hi.callback.mpr hoff
  simp [State.timerCall,hpc,TimerPc.setInner,TimerPc.inner]

theorem count (h : After first s) (hi : Inv s) (hrun : s.run = .count) :
    After first { (swCount s).timerCall (.getTimeLock ()) with run := .getTime } := by
  obtain ⟨htimer,hmutex,hrun',hshell⟩ := swCount_places s
  obtain ⟨hticks,hscheduled⟩ := swCount_counts s
  have hhand : s.runHand = true := by simp [State.runHand,hrun,RunPc.hand]
  have hthread := given_thread hi hhand
  have hidle : s.timer.pc.inner = .idle := hi.idle_of_run (by simp [hrun])
  have hi' : Inv (swCount s) := hi.congr htimer hmutex hrun' hshell
  have hinner := inner_timerCall hi' (by simp [hrun',hrun]) (.getTimeLock ())
  refine ⟨hscheduled.trans h.scheduled,?_,.inr (.inl ?_),?_,fun _ hpc => ?_⟩
  · change (swCount s).shell ≠ .schedule
    rw [hshell]
    exact h.shell
  · simp [State.runHand,RunPc.hand]
  · have haim := h.aim
    rw [aim_eq_ticks hthread (by rw [hidle]; rfl) (by simp [hrun])] at haim
    refine (aim_getTime ?_ ?_ rfl).trans ?_
    · change given ((swCount s).timer.thread ()) = none
      rw [htimer]
      exact hthread
    · change given ((swCount s).timerCall (.getTimeLock ())).timer.pc.inner = none
      rw [hinner]
      rfl
    · change ((swCount s).timer.ticks () + 1) % 2 ^ 32 = (first + 1 + (swCount s).ticks) % 2 ^ 32
      rw [htimer,hticks]
      omega
  · change ((swCount s).timerCall (.getTimeLock ())).timer.pc.inner = .unlock ∨
      ((swCount s).timerCall (.getTimeLock ())).timer.pc.inner = .idle at hpc
    rw [hinner] at hpc
    rcases hpc with hpc | hpc <;> cases hpc

theorem gotTime (h : After first s) (hi : Inv s) (hrun : s.run = .getTime)
    (hidle : s.timer.at .timer = .idle) :
    After first { s.timerCall (.scheduleLock () (.ofNat (s.time + 1))) with run := .schedule } := by
  have hhand : s.runHand = true := by simp [State.runHand,hrun,RunPc.hand]
  have hthread := given_thread hi hhand
  have hinner := inner_timerCall hi (by simp [hrun]) (.scheduleLock () (.ofNat (s.time + 1)))
  have hgiven : given s.timer.pc.inner = none := by
    rw [show s.timer.pc.inner = .idle from hidle]
    rfl
  refine ⟨h.scheduled,h.shell,.inr (.inl ?_),?_,by simp⟩
  · rw [State.runHand,Bool.or_eq_true]
    right
    change RunPc.schedule.hand (s.timerCall (.scheduleLock ()
      (.ofNat (s.time + 1)))).timer.pc.inner = true
    rw [hinner]
    rfl
  · have haim := h.aim
    rw [aim_getTime hthread hgiven hrun] at haim
    refine (aim_inner (n := (s.time + 1) % 2 ^ 32) ?_ ?_).trans ?_
    · exact hthread
    · change given (s.timerCall (.scheduleLock () (.ofNat (s.time + 1)))).timer.pc.inner = _
      rw [hinner]
      simp [given]
    · rw [h.time hrun (.inr hidle)]
      exact haim

theorem runStep (h : After first s) (hi : Inv s) {fuel time : ℕ} {t : Timer.State Unit Unit}
    (hrun : s.run = .getTime ∨ s.run = .schedule) (hbusy : s.timer.at .timer ≠ .idle)
    (ht : timerRun fuel s.timer = some t)
    (htime : s.run = .getTime → (s.timer.at .timer).next = .unlock ∨ (s.timer.at .timer).next = .idle →
      time = s.timer.ticks ()) : After first { s with timer := t, time := time } := by
  have hoff : s.run ≠ .off := by rcases hrun with hrun | hrun <;> simp [hrun]
  obtain ⟨now,asof,k,c,pc,hpc⟩ := hi.callback.mpr hoff
  obtain ⟨r,hcall,rfl⟩ := hi.callback_call hoff hbusy ht
  obtain ⟨hrpc,hrthread⟩ := callStep_pc hcall
  have hcalls : r.Calls .timer := ⟨now,asof,k,c,pc,hrpc.trans hpc⟩
  have hinner : (r.put .timer (s.timer.at .timer).next).pc.inner = (s.timer.at .timer).next :=
    at_put_self hcalls
  have hthread : (r.put .timer (s.timer.at .timer).next).thread = s.timer.thread := hrthread
  have hallows := hi.inner
  rcases callStep_links hcall with ⟨⟨⟩,ticks,hinsert⟩ | ⟨hlinks,hticks,hne⟩
  · -- The callback links the timer.
    have hschedule : s.run = .schedule := by
      rcases hrun with hrun | hrun
      · rw [hrun,hinsert] at hallows
        cases hallows
      · exact hrun
    have hinsert' : s.timer.pc.inner = .scheduleInsert () ticks := hinsert
    have hhand : s.runHand = true := hi.hand_of_pending (by rw [hinsert]; rfl)
    rw [hinsert] at hcall
    obtain ⟨hlinked,hset⟩ := callStep_insert hi (hi.exclusive.run hhand).1 hcall
    have hgiven := given_thread hi hhand
    have haim : s.aim = ticks.toNat := aim_inner hgiven (by rw [hinsert']; rfl)
    refine ⟨h.scheduled,h.shell,.inl hlinked,?_,by simp [hschedule]⟩
    refine Eq.trans ((aim_eq_ticks ?_ ?_ (by simp [hschedule])).trans hset) (haim.symm.trans h.aim)
    · change given ((r.put .timer _).thread ()) = none
      rw [hthread]
      exact hgiven
    · change given (r.put .timer _).pc.inner = none
      rw [hinner,hinsert]
      rfl
  · refine ⟨h.scheduled,h.shell,?_,?_,fun hget hpc => ?_⟩
    · refine h.present.imp (fun hl => Linked.congr hl hlinks.symm) (Or.imp (fun hr => ?_) fun hs => ?_)
      · rw [State.runHand,hi.taken_none hoff] at hr
        change (_ || s.run.hand (r.put .timer _).pc.inner) = true
        rw [hinner,Bool.or_eq_true]
        right
        rw [RunPc.hand_next hne]
        exact hr
      · change ((r.put .timer _).thread ()).pending = true
        rw [hthread]
        exact hs
    · refine Eq.trans (aim_congr ?_ ?_ hticks Iff.rfl) h.aim
      · change given ((r.put .timer _).thread ()) = _
        rw [hthread]
      · change given (r.put .timer _).pc.inner = _
        rw [hinner]
        exact given_next hne
    · change (r.put .timer _).pc.inner = .unlock ∨ (r.put .timer _).pc.inner = .idle at hpc
      rw [hinner] at hpc
      change time = r.ticks ()
      rw [hticks]
      exact htime hget hpc

theorem shellStep (h : After first s) (hi : Inv s) {fuel : ℕ} {r : Timer.State Unit Unit}
    (hcall : callStep fuel (.thread ()) s.timer (s.timer.thread ()) =
      some (r,(s.timer.thread ()).next)) :
    After first { s with timer := r.setThread () (s.timer.thread ()).next } := by
  obtain ⟨hrpc,-⟩ := callStep_pc hcall
  have hthread : (r.setThread () (s.timer.thread ()).next).thread () = (s.timer.thread ()).next := by
    simp [State.setThread]
  rcases callStep_links hcall with ⟨⟨⟩,ticks,hinsert⟩ | ⟨hlinks,hticks,hne⟩
  · -- The shell links the timer.
    have hhand : s.shellHand = true := by
      rw [State.shellHand,hinsert]
      rfl
    have hrunHand : s.runHand = false := by
      rw [Bool.eq_false_iff]
      intro hr
      rw [(hi.exclusive.run hr).2] at hhand
      cases hhand
    have hget : s.run ≠ .getTime := by
      intro hget
      simp [State.runHand,hget,RunPc.hand] at hrunHand
    have hgiven : given s.timer.pc.inner = none := by
      refine given_eq_none (Bool.eq_false_iff.mpr fun hp => ?_)
      rw [hi.hand_of_pending hp] at hrunHand
      cases hrunHand
    have haim : s.aim = ticks.toNat := aim_thread (by rw [hinsert]; rfl)
    rw [hinsert] at hcall
    obtain ⟨hlinked,hset⟩ := callStep_insert hi (hi.exclusive.shell hhand) hcall
    refine ⟨h.scheduled,h.shell,.inl hlinked,?_,fun hr => absurd hr hget⟩
    refine Eq.trans ((aim_eq_ticks ?_ ?_ ?_).trans hset) (haim.symm.trans h.aim)
    · change given ((r.setThread () _).thread ()) = none
      rw [hthread,hinsert]
      rfl
    · change given r.pc.inner = none
      rw [hrpc]
      exact hgiven
    · exact hget
  · refine ⟨h.scheduled,h.shell,?_,?_,?_⟩
    · refine h.present.imp (fun hl => Linked.congr hl hlinks.symm) (Or.imp (fun hr => ?_) fun hs => ?_)
      · change (r.pc.taken.isSome || s.run.hand r.pc.inner) = true
        rw [hrpc]
        exact hr
      · change ((r.setThread () _).thread ()).pending = true
        rw [hthread,pending_next hne]
        exact hs
    · refine Eq.trans (aim_congr ?_ ?_ hticks Iff.rfl) h.aim
      · change given ((r.setThread () _).thread ()) = _
        rw [hthread]
        exact given_next hne
      · change given r.pc.inner = _
        rw [hrpc]
    · change s.run = .getTime → r.pc.inner = .unlock ∨ r.pc.inner = .idle → s.time = r.ticks ()
      rw [hrpc,hticks]
      exact h.time

theorem swTimerRun (h : After first s) (hi : Inv s) {fuel : ℕ} (hstep : swTimerRun fuel s = some s') :
    After first s' := by
  cases swTimerRun_move hstep with
  | outside hrun ht hout => exact (h.outside hi hrun ht).1 hout
  | callback hrun ht hin => exact (h.outside hi hrun ht).2 hin
  | lock hrun _ => exact h.runGoto (by simp [hrun]) (by simp) fun _ => rfl
  | test hrun =>
    rw [if_pos h.scheduled]
    exact h.runGoto (by simp [hrun]) (by simp) fun _ => rfl
  | count hrun => exact h.count hi hrun
  | gotTime hrun hidle => exact h.gotTime hi hrun hidle
  | read hrun hread ht => exact h.runStep hi (.inl hrun) (by simp [hread]) ht fun _ _ => rfl
  | call hrun hbusy hread ht =>
    refine h.runStep hi hrun hbusy ht fun hget hnext => h.time hget ?_
    -- In `timer_get_time` only `mutex_unlock` is left.
    have hallows := hi.inner
    have hread := hread hget
    rw [hget] at hallows
    revert hnext hbusy hread hallows
    cases s.timer.at .timer <;> simp [RunPc.allows,Pc.next]
  | scheduled hrun hidle =>
    refine h.runGoto (by simp [hrun]) (by simp) fun hhand => ?_
    rw [hrun,show s.timer.pc.inner = .idle from hidle] at hhand
    cases hhand
  | out hrun =>
    refine h.runGoto (by simp [hrun]) (by simp) fun hhand => ?_
    rw [hrun] at hhand
    cases hhand
  | «return» hrun ht =>
    obtain ⟨now,asof,rfl⟩ := hi.return_lock hrun ht
    have hidle : s.timer.pc.inner = .idle := hi.idle_of_run (by simp [hrun])
    refine ⟨h.scheduled,h.shell,h.present.imp id (Or.imp (fun hr => ?_) id),?_,by simp⟩
    · rw [State.runHand,hi.taken_none (by simp [hrun]),hrun] at hr
      cases hr
    · refine Eq.trans (aim_congr (s := s) rfl ?_ rfl (by simp [hrun])) h.aim
      rw [hidle]
      rfl

theorem swShell (h : After first s) (hi : Inv s) (hw : Waits s) {fuel : ℕ}
    (hstep : swShell fuel s = some s') : After first s' := by
  cases swShell_move hstep with
  | lock hlocks _ => exact h.goto rfl rfl rfl rfl rfl hlocks.away.2.1
  | goto hgoes => exact h.goto rfl rfl rfl rfl rfl hgoes.away.2.1
  | start _ hscheduled =>
    rw [h.scheduled] at hscheduled
    cases hscheduled
  | stop hshell | resume hshell =>
    have hplace := hw.place
    rw [hshell] at hplace
    cases hplace
  | schedule hshell => exact absurd hshell h.shell
  | call _ hcall => exact h.shellStep hi hcall
  | wait _ | sleep _ | wakeup _ | out _ => exact h.goto rfl rfl rfl rfl rfl (by simp)

theorem step (h : After first s) (hi : Inv s) (hw : Waits s) (hstep : Step s s') : After first s' := by
  cases hstep with
  | tick =>
    obtain ⟨running,he⟩ := timerReportTick_eq s.timer
    rw [he]
    exact h.timer rfl rfl rfl rfl
  | timer fuel _ hrun => exact h.swTimerRun hi hrun
  | timerBlock _ | timerWakeup => exact h.timer rfl rfl rfl rfl
  | shell fuel hrun => exact h.swShell hi hw hrun
  | command _ hc =>
    refine h.goto rfl rfl rfl rfl rfl ?_
    cases hc <;> simp

end After

/-! ## Whole runs -/

def Phase (s : State) : Option ℕ → Prop
  | none => Before s
  | some first => After first s

structure Exact (s : State) (first : Option ℕ) : Prop where
  inv : Inv s
  signalled : Signalled s
  waits : Waits s
  phase : Phase s first

theorem Initial.exact (h : Initial s) : Exact s none := by
  refine ⟨h.inv,h.signalled,⟨?_,?_⟩,?_,?_,h.pcs.1,?_,?_,?_⟩
  · rw [h.pcs.2]
    rfl
  · simp [h.flags.2]
  · rw [linked_iff h.timer.inv.listed.ring]
    simp
  · rw [h.timer.pc]
    rfl
  · simp [h.pcs.2]
  · simp [h.flags.1,h.pcs.2]
  · simp [h.pcs.2]

theorem Exact.step {first : Option ℕ} (h : Exact s first) (hstep : Step s s')
    (hstop : s'.shell ≠ .stopLock) (hresume : s'.shell ≠ .resumeLock) :
    Exact s' (startRead s s' first) := by
  have hsignalled := h.signalled.step h.inv hstep
  have hwaits := h.waits.step hstep hstop hresume
  have hphase := h.phase
  cases first with
  | none =>
    have hinv := hstep.inv h.inv fun _ _ => Before.spare hphase
    rcases Before.step hphase h.inv h.waits hstep with hb | ⟨hshell,hshell',ha⟩
    · have hread : startRead s s' none = none := by simp [startRead,hb.shell]
      rw [hread]
      exact ⟨hinv,hsignalled,hwaits,hb⟩
    · have hread : startRead s s' none = some (timerNow s.timer.toData) := by
        simp [startRead,hshell,hshell']
      rw [hread]
      exact ⟨hinv,hsignalled,hwaits,ha⟩
  | some first =>
    have hinv := hstep.inv h.inv fun hshell _ => absurd hshell (After.shell hphase)
    exact ⟨hinv,hsignalled,hwaits,After.step hphase h.inv h.waits hstep⟩

theorem Started.exact {first : Option ℕ} (h : Started s first) : Exact s first := by
  induction h with
  | init hi => exact hi.exact
  | step _ hstep hstop hresume ih => exact ih.step hstep hstop hresume

/-- The steps at which the shell begins to wait, at which it is told to stop waiting, and at which it stops. -/
theorem Step.waiting (hstep : Step s s') :
    (s.shell.waits = false → s'.shell.waits = true → s'.shellWaiting = true) ∧
    (s.shell.waits = true → s'.shell.waits = false → s.shellWaiting = false) ∧
    (s.shellWaiting = true → s'.shellWaiting = false →
      timerTicksOccurred s'.waitTicks s'.ticks = true) := by
  -- A step that keeps the place and the flag has nothing to show.
  have hsame : s'.shell.waits = s.shell.waits →
      (s.shellWaiting = true → s'.shellWaiting = false →
        timerTicksOccurred s'.waitTicks s'.ticks = true) →
      (s.shell.waits = false → s'.shell.waits = true → s'.shellWaiting = true) ∧
      (s.shell.waits = true → s'.shell.waits = false → s.shellWaiting = false) ∧
      (s.shellWaiting = true → s'.shellWaiting = false →
        timerTicksOccurred s'.waitTicks s'.ticks = true) := by
    intro hwaits hclears
    obtain ⟨henter,hleave⟩ := waits_same hwaits
    exact ⟨henter,hleave,hclears⟩
  cases hstep with
  | tick | timerBlock _ | timerWakeup => exact hsame rfl (by simp +contextual)
  | timer fuel _ hrun =>
    obtain ⟨hshell,⟨hwaiting,-,-⟩ | ⟨hwaiting,htarget,hticks⟩⟩ := swTimerRun_waiting hrun
    · refine hsame (by rw [hshell]) ?_
      rw [hwaiting]
      simp +contextual
    · refine hsame (by rw [hshell]) ?_
      rw [hwaiting,htarget,hticks]
      exact swCount_clears
  | shell fuel hrun =>
    obtain ⟨henter,hleave,hkeep⟩ := swShell_waiting hrun
    refine ⟨henter,hleave,fun hw hw' => ?_⟩
    rw [hkeep hw] at hw'
    cases hw'
  | command hidle hc =>
    refine hsame ?_ (by simp +contextual)
    rw [hidle]
    cases hc <;> rfl

theorem linkedOnce_iff (hi : Inv s) : LinkedOnce s.timer.toData ↔ Linked s.timer.toData () := by
  constructor
  · rintro ⟨nodes,hring,hcount⟩
    rw [Linked,← hring.mem_iff_iterate]
    exact List.mem_cons_of_mem _ (List.count_pos_iff.mp (by omega))
  · intro hl
    obtain ⟨ks,hks⟩ := hi.timer
    have hmem : () ∈ ks := (linked_iff hks.listed.ring ()).mp hl
    refine ⟨ks.map .timer,hks.listed.ring,List.count_eq_one_of_mem
      (IsRing.nodup_nodes hks.listed.ring) ?_⟩
    exact List.mem_map_of_mem hmem

/-- While `sw_mutex` is free, the timer is linked for the next tick, or the timer thread has it. -/
theorem After.free (h : After first s) (hi : Inv s) (hfree : s.mutex = none) :
    Xor (Linked s.timer.toData ()) (Taken s) ∧ s.timer.ticks () = (first + 1 + s.ticks) % 2 ^ 32 := by
  have hholds : ∀ a, s.holds a = false := by
    intro a
    rw [Bool.eq_false_iff]
    intro ha
    rw [(hi.held a).mpr ha] at hfree
    cases hfree
  have hrun : s.run.holds = false := hholds .timer
  have hshell : s.shell ≠ .scheduling := by
    intro hshell
    have := hholds (.thread ())
    rw [State.holds,hshell] at this
    cases this
  have hget : s.run ≠ .getTime ∧ s.run ≠ .schedule := by
    constructor <;> (intro hr; rw [hr] at hrun; cases hrun)
  have hthread : s.timer.thread () = .idle := hi.idle_of_shell hshell
  have hinner : s.timer.pc.inner = .idle := hi.idle_of_run hget
  have htaken : Taken s ↔ s.runHand = true := by
    rw [Taken,State.runHand,Bool.or_eq_true]
    refine or_congr_right ?_
    revert hrun
    cases s.run <;> simp [RunPc.holds,RunPc.hand,hinner]
  constructor
  · rw [htaken]
    rcases h.present with hl | hr | hs
    · exact .inl ⟨hl,fun hr => (hi.exclusive.run hr).1 hl⟩
    · exact .inr ⟨hr,(hi.exclusive.run hr).1⟩
    · rw [State.shellHand,hthread] at hs
      cases hs
  · rw [← h.aim]
    exact (aim_eq_ticks (by rw [hthread]; rfl) (by rw [hinner]; rfl) hget.1).symm

theorem stopwatch_exact (s : State) (first : Option ℕ) (h : Started s first) :
    (∀ t₀, first = some t₀ → s.mutex = none → Xor (LinkedOnce s.timer.toData) (Taken s) ∧
      (Linked s.timer.toData () → s.timer.ticks () = (t₀ + 1 + s.ticks) % 2 ^ 32)) ∧
    (s.shellWaiting = true → s.shell.waits = true) ∧
    (s.shell = .condvarSleep → s.shellWaiting = false → s.waiter = some true) ∧
    (∀ s', Step s s' →
      (s.shell.waits = false → s'.shell.waits = true → s'.shellWaiting = true) ∧
      (s.shell.waits = true → s'.shell.waits = false → s.shellWaiting = false) ∧
      (s.shellWaiting = true → s'.shellWaiting = false → timerTicksOccurred s'.waitTicks s'.ticks = true)) ∧
    ¬(s.mutex = none ∧ s.shellWaiting = true ∧ timerTicksExpired s.waitTicks s.ticks = true) := by
  have hexact := h.exact
  refine ⟨?_,fun hw => (hexact.waits.waiting hw).1,hexact.signalled.awaken,?_,?_⟩
  · rintro t₀ rfl hfree
    have hphase : After t₀ s := hexact.phase
    obtain ⟨hxor,hticks⟩ := hphase.free hexact.inv hfree
    rw [linkedOnce_iff hexact.inv]
    exact ⟨hxor,fun _ => hticks⟩
  · intro s' hstep
    exact hstep.waiting
  · rintro ⟨-,hw,hexpired⟩
    have hle := (hexact.waits.waiting hw).2
    have hlt := of_decide_eq_true hexpired
    simp only [SW_MAX_WAIT,THREAD_SCHED_FREQ,TIMER_THRESHOLD] at hle hlt
    omega

/-! ## A run -/

def startedMove (p : State × Option ℕ) (m : Option Move) : Option (State × Option ℕ) :=
  let next := match m with
    | some m => m.next p.1
    | none => Move.command p.1 (.wait (some 0))
  next.bind fun s =>
    if s.shell = .stopLock ∨ s.shell = .resumeLock then none else some (s,startRead p.1 s p.2)

theorem startedMove_started {m : Option Move} {p p' : State × Option ℕ} (hp : Started p.1 p.2)
    (h : startedMove p m = some p') : Started p'.1 p'.2 := by
  obtain ⟨s,hs,hif⟩ := Option.bind_eq_some_iff.mp h
  have hstep : Step p.1 s := by
    cases m with
    | some m => exact Move.step_next hs
    | none =>
      simp only [Move.command] at hs
      split at hs
      · next hidle =>
        cases hs
        exact .command hidle (.wait _)
      · cases hs
  split at hif
  · cases hif
  · next hnot =>
    cases hif
    exact .step hp hstep (fun hs => hnot (.inl hs)) fun hs => hnot (.inr hs)

/-- `sw_start` and `sw_wait 0`, and the callback at the next tick. -/
def startedMoves : List (Option Move) :=
  some .timer :: some .start :: List.replicate 9 (some .shell) ++
    none :: List.replicate 4 (some .shell) ++ some .tick :: List.replicate 18 (some .timer)

def startedView (p : State × Option ℕ) : Option ℕ × Bool × ℕ × Bool × Bool × Bool :=
  (p.2,p.1.mutex.isNone,p.1.ticks,decide (p.1.timer.links.nextOf .head = .timer ()),
    p.1.timer.pc.taken.isNone,decide (p.1.run = .return))

theorem stopwatch_exact_sample : ∃ s : State, Started s (some 0) ∧ s.mutex = none ∧ s.ticks = 1 ∧
    LinkedOnce s.timer.toData ∧ s.timer.ticks () = 2 := by
  have hrun : (startedMoves.foldlM startedMove (sampleInit,none)).map startedView =
      some (some 0,true,1,true,true,true) := by
    decide +kernel
  obtain ⟨⟨s,first⟩,hs,hv⟩ := Option.map_eq_some_iff.mp hrun
  simp only [startedView,Prod.mk.injEq,decide_eq_true_iff,Option.isNone_iff_eq_none] at hv
  obtain ⟨rfl,hfree,hticks,hnext,htaken,hreturn⟩ := hv
  have hstarted : Started s (some 0) :=
    foldlM_keeps (P := fun p => Started p.1 p.2) (fun m _ p p' => startedMove_started)
      (.init sampleInit_initial) hs
  obtain ⟨hxor,hdue⟩ := (stopwatch_exact s (some 0) hstarted).1 0 rfl hfree
  refine ⟨s,hstarted,hfree,hticks,?_,?_⟩
  · rcases hxor with ⟨honce,-⟩ | ⟨ht,-⟩
    · exact honce
    · simp [Taken,htaken,hreturn] at ht
  · rw [hdue ⟨1,hnext⟩,hticks]
    norm_num

end X1.Stopwatch
