import X1.Base.Checked
import X1.Timer.Timed

/-! # No timer is lost, early or duplicated

In every run in which no linked timer is scheduled again and the ticks in use lie in one
window, a callback starts only when its time has come, every call of `timer_schedule` has at
most one callback and is pending until then, and a tick that finds the mutex free and the
first timer due leaves the timer thread runnable.
-/
set_option linter.unusedSectionVars false

namespace X1.Timer
open X1 X1.Lib X1.Owner X1.Ring X1.Circular X1.Checked

section
variable {K T : Type} [DecidableEq K] [DecidableEq T] {s s' : State K T}

/-- The runs the module is made for. -/
inductive Runs : State K T → Prop where
  | init {s : State K T} : Initial s → Runs s
  | step {s s' : State K T} : Runs s → Step s s' → Fair s' → Runs s'

theorem Initial.fair (h : Initial s) : Fair s := by
  refine ⟨fun a k ticks hat => ?_,0,fun v hv => ?_⟩
  · cases a with
    | timer => simp [State.at,h.pc,TimerPc.inner] at hat
    | thread t => simp [State.at,h.thread] at hat
  · cases hv with
    | clock => simp [h.data.1,Word.sub]
    | linked hk =>
      rw [linked_iff h.inv.listed.ring] at hk
      simp at hk
    | taken hc => simp [h.pc,TimerPc.taken] at hc
    | wakeup he => simp [h.data.2] at he

theorem Runs.fair (h : Runs s) : Fair s := by
  cases h with
  | init hi => exact hi.fair
  | step _ _ hf => exact hf

theorem Runs.timed (h : Runs s) : ∃ ks, Inv s ks ∧ Timed s ks := by
  induction h with
  | init hi => exact ⟨[],hi.inv,hi.timed⟩
  | step hr hstep hf ih =>
    obtain ⟨ks,hi,ht⟩ := ih
    exact hstep.timed hi ht hr.fair hf.window

theorem Step.started (h : Step s s') : s'.started = s.started ∨
    ∃ now asof k c, s.pc = .process now asof k c ∧ s'.started = c :: s.started := by
  have hcallStep : ∀ {fuel : ℕ} {a : Actor T} {r : State K T} {pc pc' : Pc K},
      callStep fuel a s pc = some (r,pc') → r.started = s.started := by
    intro fuel a r pc pc' hcall
    rcases callStep_cases hcall with ⟨-,-,rfl,-⟩ | ⟨k,ticks,d,-,-,rfl,-⟩ | ⟨d,-,-,rfl,-⟩ |
      ⟨k,-,rfl,-⟩ | ⟨-,rfl,-⟩ <;> rfl
  cases h with
  | tick =>
    left
    obtain ⟨running,he⟩ := timerReportTick_eq s
    rw [he]
  | timer fuel _ hrun =>
    have hran := Ran.of_timerRun hrun
    generalize hpc : s.pc = p at hran
    cases hran with
    | process => exact .inr ⟨_,_,_,_,rfl,rfl⟩
    | call hcall =>
      have hr := hcallStep hcall
      exact .inl hr
    | work | rest | lock | stop | take | unlock | back | finish | finishUnlock => exact .inl rfl
  | timerBegin _ _ _ => exact .inl rfl
  | timerBlock _ => exact .inl rfl
  | timerWakeup => exact .inl rfl
  | thread fuel hcall =>
    have hr := hcallStep hcall
    exact .inl hr
  | threadBegin _ _ => exact .inl rfl

/-- While the mutex is free nobody has anything to publish. -/
theorem none_publishing (h : Owned s.mutex s.holds) (hm : s.mutex = none) :
    ∀ a, s.at a ≠ .schedulePublish := by
  intro a hat
  have hholds : s.holds a = true := by
    cases a with
    | timer =>
      cases hpc : s.pc with
      | callback now asof k c pc =>
        rw [State.at,hpc] at hat
        rw [State.holds,hpc]
        change pc.holds = true
        rw [show pc = .schedulePublish from hat]
        rfl
      | _ =>
        rw [State.at,hpc] at hat
        cases hat
    | thread t =>
      rw [State.at] at hat
      rw [State.holds,hat]
      rfl
  have := (h a).mpr hholds
  rw [hm] at this
  cases this

/-- What the handler knows is enough to wake the timer thread for the first timer. -/
theorem Timed.pending {ks : List K} (h : Timed s ks) (hi : Inv s ks) (hm : s.mutex = none) {k : K}
    (hfirst : listFirst s.links Node.head = .timer k) :
    k ∈ ks.head? ∧ s.listEmpty = false ∧
    place s.elapsed s.wakeupTicks ≤ place s.elapsed (s.ticks k) := by
  have hk : k ∈ ks.head? := by
    have hnext : listFirst s.links Node.head = (ks.map Node.timer).headD .head :=
      IsRing.next_head hi.listed.ring
    rw [hnext] at hfirst
    cases ks with
    | nil => cases hfirst
    | cons j ks => simpa using hfirst
  exact ⟨hk,h.first (none_publishing hi.held hm) k hk⟩

theorem running_of_pending (h : timerWorkPending (timerReportTick s).toData = true) :
    (timerReportTick s).running = true := by
  unfold timerReportTick at h ⊢
  simp only at h ⊢
  split
  · rfl
  · next hn =>
    rw [if_neg hn] at h
    exact absurd h hn

/-- The ticks of a call are what it was given, and it is pending until its callback starts. -/
theorem timers_kept (s : State K T) (h : Runs s) :
    (∀ s' c, Step s s' → s'.started = c :: s.started → timerTicksOccurred (s.due c) s.timerTicks = true) ∧
    s.started.Nodup ∧
    (∀ c, c < s.issued ↔ c ∈ s.started ∨ s.pc.taken = some c ∨
      ∃ k, Linked s.toData k ∧ s.call k = c ∧ s.ticks k = s.due c) ∧
    (s.mutex = none → Fair (timerReportTick s) → ∀ k, listFirst (timerReportTick s).links .head = .timer k →
      timerOccurred (timerReportTick s).toData k (timerReportTick s).timerTicks = true →
      (timerReportTick s).running = true) ∧
    (s.mutex = none → ∀ k, listFirst s.links .head = .timer k →
      s.listEmpty = false ∧ timerTicksOccurred s.wakeupTicks (s.ticks k) = true) := by
  obtain ⟨ks,hi,ht⟩ := h.timed
  refine ⟨fun s' c hstep hstart => ?_,?_,fun c => ?_,fun hm hf k hfirst hocc => ?_,fun hm k hfirst => ?_⟩
  · rcases hstep.started with hsame | ⟨now,asof,k,c',hpc,hstart'⟩
    · rw [hsame] at hstart
      exact absurd hstart.symm (List.cons_ne_self _ _)
    · obtain rfl : c = c' := by
        have := hstart.symm.trans hstart'
        simpa using this
      obtain ⟨hlt,hle⟩ := ht.taken c (by rw [hpc]; rfl)
      rw [ht.clock]
      exact occurred_of_place hlt hle
  · have := hi.listed.calls.nodup_iff.mpr List.nodup_range
    rw [List.nodup_append] at this
    exact this.2.1
  · have := hi.listed.calls.mem_iff (a := c)
    simp only [List.mem_append,Option.mem_toList,List.mem_map,List.mem_range] at this
    rw [← this]
    have hlinked : (∃ k ∈ ks, s.call k = c) ↔ ∃ k, Linked s.toData k ∧ s.call k = c ∧
        s.ticks k = s.due c := by
      refine exists_congr fun k => ?_
      rw [linked_iff hi.listed.ring]
      refine and_congr_right fun hk => ⟨fun hc => ⟨hc,?_⟩,And.left⟩
      rw [← hc,hi.listed.due k hk]
    rw [hlinked]
    exact or_comm
  · obtain ⟨ks',hi'⟩ := Step.tick.inv hi h.fair.unlinked
    have ht' : Timed (timerReportTick s) ks := ht.tick hi.listed h.fair.window
    have hfields : (timerReportTick s).links = s.links ∧ (timerReportTick s).mutex = s.mutex := by
      obtain ⟨running,he⟩ := timerReportTick_eq s
      rw [he]
      exact ⟨rfl,rfl⟩
    obtain rfl := hi.listed.unique hi'.listed hfields.1
    obtain ⟨hk,he,hle⟩ := ht'.pending hi' (hfields.2.trans hm) hfirst
    refine running_of_pending ?_
    rw [timerOccurred,ht'.clock] at hocc
    rw [timerWorkPending,he,ht'.clock]
    exact occurred_of_place (ht'.wakeup_lt he) (hle.trans (place_of_occurred hocc))
  · obtain ⟨hk,he,hle⟩ := ht.pending hi hm hfirst
    have hmem := List.mem_of_mem_head? hk
    refine ⟨he,occurred_of_le (ht.wakeup_lt he) (hi.listed.ticks_lt k hmem) hle ?_⟩
    exact ht.close h.fair.window (.linked ((linked_iff hi.listed.ring k).mpr hmem)) (.wakeup he)

end

/-! ## A run with one timer -/

inductive Move where
  | tick
  | timer
  | thread
  | schedule (ticks : UInt32)

def Move.next (s : State Unit Unit) : Move → Option (State Unit Unit)
  | .tick => some (timerReportTick s)
  | .timer => if s.running then timerRun 2 s else none
  | .thread => (callStep 2 (.thread ()) s (s.thread ())).map fun r => r.1.setThread () r.2
  | .schedule ticks =>
    match s.thread () with
    | .idle => some (s.setThread () (.scheduleLock () ticks))
    | _ => none

def Pc.inserts : Pc Unit → Bool
  | .scheduleInsert _ _ => true
  | _ => false

/-- The first seconds after `timer_setup`, in which a timer is linked into an empty list only. -/
def State.early (s : State Unit Unit) : Bool :=
  decide (s.timerTicks < 2 ^ 31) && decide (s.ticks () < 2 ^ 31) && decide (s.wakeupTicks < 2 ^ 31) &&
    (s.pc.taken.all fun c => decide (s.due c < 2 ^ 31)) &&
    ((!(s.thread ()).inserts && !s.pc.inner.inserts) || Lib.listEmpty s.links Node.head)

def Move.run (s : State Unit Unit) (m : Move) : Option (State Unit Unit) :=
  (m.next s).bind fun s' => if s'.early then some s' else none

theorem Move.step_next {s s' : State Unit Unit} {m : Move} (h : m.next s = some s') : Step s s' := by
  cases m with
  | tick =>
    cases h
    exact .tick
  | timer =>
    simp only [Move.next] at h
    split at h
    · next hr => exact .timer 2 hr h
    · cases h
  | thread =>
    obtain ⟨⟨r,pc⟩,hr,rfl⟩ := Option.map_eq_some_iff.mp h
    exact .thread 2 hr
  | schedule ticks =>
    simp only [Move.next] at h
    split at h
    · next hidle =>
      cases h
      exact .threadBegin hidle (.schedule () ticks)
    · cases h

theorem fair_of_early {s : State Unit Unit} (h : s.early = true) : Fair s := by
  simp only [State.early,Bool.and_eq_true,decide_eq_true_iff,Bool.or_eq_true,Bool.not_eq_true'] at h
  obtain ⟨⟨⟨⟨hclock,hticks⟩,hwake⟩,hdue⟩,hinsert⟩ := h
  have hsub : ∀ {v : ℕ}, v < 2 ^ 31 → Word.sub v 0 < 2 ^ 31 := by
    intro v hv
    unfold Word.sub
    omega
  refine ⟨fun a k ticks hat hk => ?_,0,fun v hv => ?_⟩
  · rcases hinsert with ⟨hthread,htimer⟩ | hempty
    · cases a with
      | timer =>
        rw [State.at] at hat
        rw [hat] at htimer
        cases htimer
      | thread t =>
        rw [State.at] at hat
        rw [hat] at hthread
        cases hthread
    · obtain ⟨n,hn⟩ := hk
      have hfix : s.links.nextOf Node.head = .head := (of_decide_eq_true hempty).symm
      rw [Function.iterate_fixed hfix] at hn
      cases hn
  · cases hv with
    | clock => exact hsub hclock
    | linked _ => exact hsub hticks
    | taken hc =>
      rw [hc] at hdue
      exact hsub (by simpa using hdue)
    | wakeup _ => exact hsub hwake

def sampleInit : State Unit Unit where
  ticks := fun _ => 0
  links := listInit ⟨id,id⟩ .head
  timerTicks := 0
  listEmpty := true
  wakeupTicks := 0
  mutex := none
  running := true
  pc := .check
  thread := fun _ => .idle
  elapsed := 0
  issued := 0
  call := fun _ => 0
  due := fun _ => 0
  started := []

theorem sampleInit_runs : Runs sampleInit :=
  .init ⟨⟨rfl,rfl⟩,⟨_,rfl⟩,rfl,rfl,fun _ => rfl,⟨rfl,rfl,rfl⟩⟩

/-- The timer thread goes to sleep, a thread schedules the timer for tick 1, the tick comes, and the
timer thread takes the timer. -/
def dueMoves : List Move :=
  [.timer,.schedule 1,.thread,.thread,.thread,.thread,.tick,.timer,.timer,.timer,.timer]

def State.view (s : State Unit Unit) : ℕ × Option ℕ × Bool × List ℕ :=
  (s.timerTicks,s.pc.taken,s.running,s.started)

theorem timers_kept_sample : ∃ s : State Unit Unit, Runs s ∧ s.timerTicks = 1 ∧ s.pc.taken = some 0 ∧
    s.started.Nodup ∧ 0 < s.issued := by
  have hrun : (dueMoves.foldlM Move.run sampleInit).map State.view = some (1,some 0,true,[]) := by
    decide +kernel
  obtain ⟨s,hs,hv⟩ := Option.map_eq_some_iff.mp hrun
  simp only [State.view,Prod.mk.injEq] at hv
  have hruns : Runs s := foldlM_keeps (P := Runs) (fun m _ s s' hr h => by
    obtain ⟨r,hr',h⟩ := Option.bind_eq_some_iff.mp h
    split at h
    · next hearly =>
      cases h
      exact .step hr (Move.step_next hr') (fair_of_early hearly)
    · cases h) sampleInit_runs hs
  obtain ⟨-,hnodup,hcalls,-⟩ := timers_kept s hruns
  exact ⟨s,hruns,hv.1,hv.2.1,hnodup,(hcalls 0).mpr (.inr (.inl hv.2.1))⟩

end X1.Timer
