import X1.Condvar.Client
import X1.Condvar.Signals

/-! # Signals and waits

What a condition variable promises to its users, in every run.
-/
namespace X1.Condvar
open X1.Lib X1.Ring X1.Checked X1.Mutex

section
variable {T : Type} [DecidableEq T]

def State.Listed (s : State T) (t : T) : Prop :=
  ∃ ws : List T, IsRing s.links.nextOf s.links.prevOf .waiters (ws.map .waiter) ∧ t ∈ ws

theorem Inv.listed_iff {s : State T} {ws : List T} (h : Inv s ws) {t : T} :
    s.Listed t ↔ (s.pc t).waiting = true := by
  refine ⟨fun ht => ?_,fun ht => ⟨ws,h.ring,(h.waiting t).mpr ht⟩⟩
  obtain ⟨ws',hring,hmem⟩ := ht
  have hmap := IsRing.unique h.ring hring
  have hws : ws = ws' := List.map_injective_iff.mpr (fun a b hab => by cases hab; rfl) hmap
  exact (h.waiting t).mp (hws ▸ hmem)

/-- The predicate is true, no setter has yet to wake the waiters, and one of them waits in vain. -/
def System.Missed (s : System T) : Prop :=
  s.predicate = true ∧ (∀ t, ¬s.InBetween t) ∧ ∃ t, s.cond.Listed t ∧ s.cond.awaken t = false

theorem System.Inv.not_missed {role : T → Role} {wake : Func} {s : System T} (h : s.Inv role wake) :
    ¬s.Missed := by
  rintro ⟨htrue,hbetween,t,hlisted,ha⟩
  obtain ⟨ws,hinv⟩ := h.reachable.inv
  rcases h.marked htrue with ⟨u,hu⟩ | hall
  · exact hbetween u hu
  · rw [hall t (hinv.listed_iff.mp hlisted)] at ha
    cases ha

/-- Waiters and setters that follow the documentation miss no wake-up, when the setters broadcast, or when
there is exactly one waiter and they signal. -/
theorem wait_atomic (role : T → Role) :
    (∀ s, System.Reachable role .broadcast s → ¬s.Missed) ∧
    ((∃! w, role w = .waiter) → ∀ s, System.Reachable role .signal s → ¬s.Missed) := by
  refine ⟨fun s hs => (hs.inv (.inl rfl)).not_missed,fun hone s hs => ?_⟩
  obtain ⟨w,-,hw⟩ := hone
  exact (hs.inv (.inr ⟨rfl,fun t u ht hu => (hw t ht).trans (hw u hu).symm⟩)).not_missed

/-! ## Waiters and a setter -/

/-- A statement that does not fault, and leaves a thread that runs. -/
def State.execute (s : State T) (next : T) : Option (State T) :=
  if s.Outside then none
  else
    match Condvar.exec s next with
    | .ok s' => if s'.mutex.self.state = .running then some s' else none
    | .error _ => none

theorem State.step_execute {s s' : State T} {next : T} (h : s.execute next = some s') : Step none s s' := by
  unfold State.execute at h
  split at h
  · cases h
  · next hout =>
    split at h
    · next hexec =>
      split at h
      · next hrun =>
        cases h
        exact .exec next hout hexec hrun
      · cases h
    · cases h

inductive Move (T : Type) where
  | exec (next : T)
  | preempt (next : T)
  /-- what the current thread does in its own code -/
  | client

def Move.run (role : T → Role) (wake : Func) (s : System T) : Move T → Option (System T)
  | .exec next => (s.cond.execute next).map fun cond => { s with cond := cond }
  | .preempt next =>
    if s.cond.mutex.self.preemptLevel = 0 ∧ (s.cond.mutex.thread next).state = .running then
      some { s with cond := { s.cond with mutex := { s.cond.mutex with current := next } } }
    else none
  | .client =>
    if s.cond.Outside ∧ s.cond.mutex.self.preemptLevel = 0 then
      match s.place s.cond.current with
      | .out =>
        if s.cond.mutex.self.holding = false then
          some (s.goto (enterMutex s.cond .lockEnter) (role s.cond.current).enters)
        else none
      | .tests => some (s.goto s.cond (if s.predicate then .leaves else .waits))
      | .waits =>
        if s.cond.mutex.self.holding = true then some (s.goto (s.cond.goto .waitInit) .tests) else none
      | .stores => some { s.goto s.cond .wakes with predicate := true }
      | .wakes =>
        match wake with
        | .signal => some (s.goto (s.cond.goto .signalEnter) .unlocks)
        | .broadcast => some (s.goto (s.cond.goto .broadcastEnter) .unlocks)
        | _ => none
      | .leaves | .unlocks =>
        if s.cond.mutex.self.holding = true then
          some (s.goto (enterMutex s.cond .unlockEnter) .out)
        else none
    else none

theorem Move.step_run {role : T → Role} {wake : Func} {s s' : System T} {m : Move T}
    (h : m.run role wake s = some s') : System.Step role wake s s' := by
  cases m with
  | exec next =>
    obtain ⟨cond,hcond,rfl⟩ := Option.map_eq_some_iff.mp h
    exact .other (State.step_execute hcond)
  | preempt next =>
    simp only [Move.run] at h
    split at h
    · next hc =>
      cases h
      exact .other (.preempt next hc.1 hc.2)
    · cases h
  | client =>
    simp only [Move.run] at h
    split at h
    case isFalse => cases h
    case isTrue hc =>
      obtain ⟨hout,hlevel⟩ := hc
      split at h
      case h_1 hplace =>
        split at h
        · next hhold =>
          cases h
          exact .lock hplace (.call hout (.lock hlevel hhold))
        · cases h
      case h_2 hplace =>
        cases h
        exact .test hplace hout
      case h_3 hplace =>
        split at h
        · next hhold =>
          cases h
          exact .wait hplace (.call hout (.wait hlevel hhold))
        · cases h
      case h_4 hplace =>
        cases h
        exact .store hplace hout
      case h_5 hplace =>
        split at h
        · cases h
          exact .wake hplace (.call hout .signal)
        · cases h
          exact .wake hplace (.call hout .broadcast)
        · cases h
      case h_6 hplace =>
        split at h
        · next hhold =>
          cases h
          exact .unlock (.inl hplace) (.call hout (.unlock hhold))
        · cases h
      case h_7 hplace =>
        split at h
        · next hhold =>
          cases h
          exact .unlock (.inr hplace) (.call hout (.unlock hhold))
        · cases h

def sampleInit (t : T) : System T :=
  ⟨condvarInit ⟨mutexInit ⟨fun _ => ⟨.running,0,.own,false⟩,t,id,⟨id,id⟩,true,none⟩,
    fun _ => .own,id,fun _ => false,⟨id,id⟩,[]⟩,fun _ => .out,false⟩

theorem sampleInit_reachable (role : T → Role) (wake : Func) (t : T) :
    System.Reachable role wake (sampleInit t) :=
  .init ⟨⟨⟨fun _ => ⟨rfl,rfl⟩,rfl,_,rfl,rfl⟩,fun _ => rfl,⟨_,rfl⟩,rfl⟩,fun _ => rfl,rfl⟩

/-- The current thread locks the mutex, finds the predicate false and sleeps; `next` runs then. -/
def sleepMoves (next : T) : List (Move T) :=
  [Move.client] ++ List.replicate 5 (Move.exec next) ++ [Move.client,Move.client] ++
    List.replicate 10 (Move.exec next)

def setMoves (next : T) : List (Move T) :=
  [Move.client] ++ List.replicate 5 (Move.exec next) ++ [Move.client,Move.client]

theorem exists_reachable (role : T → Role) (wake : Func) (t : T) (ms : List (Move T)) (p : System T → Bool)
    (h : (ms.foldlM (Move.run role wake) (sampleInit t)).map p = some true) :
    ∃ s, System.Reachable role wake s ∧ p s = true := by
  obtain ⟨s,hs,hv⟩ := Option.map_eq_some_iff.mp h
  exact ⟨s,foldlM_keeps (P := System.Reachable role wake)
    (fun _ _ _ _ hr h => .step hr (Move.step_run h)) (sampleInit_reachable role wake t) hs,hv⟩

theorem System.Reachable.cond {role : T → Role} {wake : Func} {s : System T} (h : System.Reachable role wake s) :
    Condvar.Reachable s.cond := by
  induction h with
  | init hi => exact .init hi.cond
  | step _ hstep ih =>
    cases hstep with
    | test | store => exact ih
    | other hstep | lock _ hstep | wait _ hstep | wake _ hstep | unlock _ hstep => exact .step ih hstep

end

def sampleRole : Bool → Role
  | false => .waiter
  | true => .setter

theorem wait_atomic_sample :
    (∃ s, System.Reachable sampleRole .broadcast s ∧ s.predicate = true ∧ s.cond.Listed false ∧ s.cond.awaken false = true) ∧
    (∃! w, sampleRole w = .waiter) ∧
    ∃ s, System.Reachable sampleRole .signal s ∧ s.predicate = true ∧ s.cond.Listed false ∧ s.cond.awaken false = true := by
  have hone : ∃! w, sampleRole w = .waiter := ⟨false,rfl,by decide⟩
  have hmarked : ∀ {s : System Bool}, ¬s.Missed → s.predicate = true → (∀ t, ¬s.InBetween t) →
      s.cond.Listed false →
      s.cond.awaken false = true := by
    intro s hs htrue hbetween hlisted
    by_contra ha
    exact hs ⟨htrue,hbetween,false,hlisted,by simpa using ha⟩
  refine ⟨?_,hone,?_⟩
  · obtain ⟨s,hs,hv⟩ := exists_reachable sampleRole .broadcast false
      (sleepMoves true ++ setMoves true ++ List.replicate 5 (.exec true)) (fun s => s.predicate = true ∧
      (∀ t, ¬(s.place t = .wakes ∨ s.place t = .unlocks ∧ s.cond.pc t ≠ .own)) ∧
        s.cond.pc false = .waitRetest) (by decide +kernel)
    obtain ⟨htrue,hbetween,hpc⟩ := of_decide_eq_true hv
    obtain ⟨ws,hinv⟩ := (hs.inv (.inl rfl)).reachable.inv
    have hlisted := hinv.listed_iff.mpr (by rw [hpc]; rfl)
    exact ⟨s,hs,htrue,hlisted,hmarked ((wait_atomic sampleRole).1 s hs) htrue hbetween hlisted⟩
  · obtain ⟨s,hs,hv⟩ := exists_reachable sampleRole .signal false
      (sleepMoves true ++ setMoves true ++ List.replicate 4 (.exec true)) (fun s => s.predicate = true ∧
      (∀ t, ¬(s.place t = .wakes ∨ s.place t = .unlocks ∧ s.cond.pc t ≠ .own)) ∧
        s.cond.pc false = .waitRetest) (by decide +kernel)
    obtain ⟨htrue,hbetween,hpc⟩ := of_decide_eq_true hv
    obtain ⟨ws,hinv⟩ := (hs.inv (.inr ⟨rfl,by decide⟩)).reachable.inv
    have hlisted := hinv.listed_iff.mpr (by rw [hpc]; rfl)
    exact ⟨s,hs,htrue,hlisted,hmarked ((wait_atomic sampleRole).2 hone s hs) htrue hbetween hlisted⟩

end X1.Condvar
