import X1.Base.Checked
import X1.Uart.Model

/-! # The invariant of the serial port

Interrupts are off in `uart_read` from the test of the waiter to the end, but while the
thread sleeps, so that the handler sees the waiter only when it sleeps and the buffer
was empty when it fell asleep. One lemma for each kind of step shows the invariant kept.
-/
namespace X1.Uart
open X1.Lib X1.Checked
variable {T : Type} [DecidableEq T]

namespace Pc

def masked : Pc → Bool
  | readTest | readPop | readSetWaiter | readSleep | readClearWaiter | readRestore _ => true
  | _ => false

def waits : Pc → Bool
  | readSleep | readClearWaiter => true
  | _ => false

def free : Pc → Bool
  | readPop | readSetWaiter => true
  | _ => false

def foundEmpty : Pc → Bool
  | readSetWaiter | readSleep => true
  | _ => false

/-- The preemption level at each place. -/
def Level : Pc → ℕ → Prop
  | own, _ | readReturn _, _ => True
  | readEnter, l => l = 0
  | _, l => l = 1

/-- A place at which a thread can be left by a context switch. -/
def Rests (pc : Pc) : Prop := pc.free = false ∧ pc.foundEmpty = false

/-- The byte a call has taken and not yet returned. -/
def pending : Pc → List UInt8
  | readRestore (.byte b) | readLeave (.byte b) | readReturn (.byte b) => [b]
  | _ => []

theorem rests_of_level {pc : Pc} (h : pc.Level 0) : pc.Rests := by
  cases pc <;> simp_all [Level,Rests,free,foundEmpty]

end Pc

def takenBy (l : List (T × UInt8)) (t : T) : List UInt8 := (l.filter fun x => x.1 = t).map Prod.snd

def Result.bytes : Result → List UInt8
  | .busy => []
  | .byte b => [b]

def returnedBy (l : List (T × Result)) (t : T) : List UInt8 := (l.filter fun x => x.1 = t).flatMap fun x => x.2.bytes

structure Inv (s : State T) : Prop where
  rests : ∀ t, t ≠ s.current → (s.thread t).pc.Rests
  level : ∀ t, (s.thread t).pc.Level (s.thread t).preemptLevel
  masked : ∀ t, (s.thread t).pc.masked = true → (s.thread t).intr = false
  waiter : ∀ t, s.waiter = some t ↔ (s.thread t).pc.waits = true
  free : s.self.pc.free = true → s.waiter = none
  empty : s.self.pc.foundEmpty = true → s.cbuf.bytes = []
  awake : ∀ t, s.waiter = some t → s.cbuf.bytes ≠ [] → (s.thread t).state = .running
  valid : s.cbuf.Valid
  capacity : s.cbuf.capacity = UART_BUFFER_SIZE
  order : s.accepted = s.popped.map Prod.snd ++ s.cbuf.bytes
  calls : ∀ t, takenBy s.popped t = returnedBy s.returned t ++ (s.thread t).pc.pending

/-! ## Changes of the current thread -/

theorem modify_thread (s : State T) (t u : T) (f : Thread → Thread) :
    (s.modify t f).thread u = if u = t then f (s.thread t) else s.thread u := by
  simp [State.modify,Function.update_apply]

/-- The change `th` of the current thread, and a change of the buffer that concerns no other thread. -/
structure Update (s s' : State T) (th : Thread) : Prop where
  thread : s'.thread = Function.update s.thread s.current th
  current : s'.current = s.current
  level : th.pc.Level th.preemptLevel
  masked : th.pc.masked = true → th.intr = false
  waiter : s'.waiter = some s.current ↔ th.pc.waits = true
  waiter_others : ∀ t, t ≠ s.current → (s'.waiter = some t ↔ s.waiter = some t)
  free : th.pc.free = true → s'.waiter = none
  empty : th.pc.foundEmpty = true → s'.cbuf.bytes = []
  awake : ∀ t, s'.waiter = some t → s'.cbuf.bytes ≠ [] → (s'.thread t).state = .running
  valid : s'.cbuf.Valid
  capacity : s'.cbuf.capacity = s.cbuf.capacity
  order : s'.accepted = s'.popped.map Prod.snd ++ s'.cbuf.bytes
  calls : takenBy s'.popped s.current = returnedBy s'.returned s.current ++ th.pc.pending
  calls_others : ∀ t, t ≠ s.current → takenBy s'.popped t = takenBy s.popped t ∧
    returnedBy s'.returned t = returnedBy s.returned t

theorem Inv.update {s s' : State T} {th : Thread} (h : Inv s) (hu : Update s s' th) : Inv s' := by
  have hself : s'.self = th := by
    rw [State.self,hu.thread,hu.current,Function.update_self]
  have hcur : s'.thread s.current = th := by rw [hu.thread,Function.update_self]
  have hother : ∀ t, t ≠ s.current → s'.thread t = s.thread t := fun t ht => by
    rw [hu.thread,Function.update_of_ne ht]
  refine ⟨fun t ht => ?_,fun t => ?_,fun t => ?_,fun t => ?_,?_,?_,hu.awake,hu.valid,
    hu.capacity.trans h.capacity,hu.order,fun t => ?_⟩
  · rw [hu.current] at ht
    rw [hother t ht]
    exact h.rests t ht
  · by_cases ht : t = s.current
    · rw [ht,hcur]
      exact hu.level
    · rw [hother t ht]
      exact h.level t
  · by_cases ht : t = s.current
    · rw [ht,hcur]
      exact hu.masked
    · rw [hother t ht]
      exact h.masked t
  · by_cases ht : t = s.current
    · rw [ht,hcur]
      exact hu.waiter
    · rw [hother t ht,hu.waiter_others t ht]
      exact h.waiter t
  · rw [hself]
    exact hu.free
  · rw [hself]
    exact hu.empty
  · by_cases ht : t = s.current
    · rw [ht,hcur]
      exact hu.calls
    · rw [hother t ht,(hu.calls_others t ht).1,(hu.calls_others t ht).2]
      exact h.calls t

theorem Inv.modify {s : State T} (h : Inv s) {f : Thread → Thread}
    (hlevel : (f s.self).pc.Level (f s.self).preemptLevel)
    (hmasked : (f s.self).pc.masked = true → (f s.self).intr = false)
    (hwaits : (f s.self).pc.waits = s.self.pc.waits) (hstate : (f s.self).state = s.self.state)
    (hfree : (f s.self).pc.free = true → s.waiter = none)
    (hempty : (f s.self).pc.foundEmpty = true → s.cbuf.bytes = [])
    (hpending : (f s.self).pc.pending = s.self.pc.pending) : Inv (s.modify s.current f) := by
  refine h.update ⟨rfl,rfl,hlevel,hmasked,?_,fun _ _ => Iff.rfl,hfree,hempty,fun t ht hb => ?_,
    h.valid,rfl,h.order,?_,fun _ _ => ⟨rfl,rfl⟩⟩
  · exact (h.waiter s.current).trans
      (by rw [show (f (s.thread s.current)).pc.waits = _ from hwaits]; rfl)
  · rw [modify_thread]
    split
    · next hc =>
      subst hc
      exact hstate.trans (h.awake s.current ht hb)
    · exact h.awake t ht hb
  · exact (h.calls s.current).trans (congrArg _ hpending.symm)

/-- Any thread may go on, when the current one is at a place where it can be left. -/
theorem Inv.switch {s : State T} (h : Inv s) (hrests : s.self.pc.Rests) (next : T) :
    Inv { s with current := next } := by
  have hall : ∀ t, (s.thread t).pc.Rests := fun t => by
    by_cases ht : t = s.current
    · rw [ht]
      exact hrests
    · exact h.rests t ht
  refine ⟨fun t _ => hall t,h.level,h.masked,h.waiter,fun hf => ?_,fun he => ?_,h.awake,h.valid,
    h.capacity,h.order,h.calls⟩
  · have := (hall next).1
    rw [show (s.thread next).pc.free = true from hf] at this
    cases this
  · have := (hall next).2
    rw [show (s.thread next).pc.foundEmpty = true from he] at this
    cases this

/-! ## The statements of `uart_read` -/

omit [DecidableEq T] in
theorem of_assert {b : Bool} {r : Except Fault (State T)} {s' : State T}
    (h : (assert b >>= fun _ => r) = .ok s') : b = true ∧ r = .ok s' := by
  cases b with
  | true => exact ⟨rfl,h⟩
  | false => cases h

theorem of_threadPreemptDisable {s s' : State T} (h : threadPreemptDisable s = .ok s') :
    s' = s.modify s.current fun th => { th with preemptLevel := (s.self.preemptLevel + 1) % 2 ^ 32 } :=
  (Except.ok.inj (of_assert h).2).symm

theorem of_threadPreemptEnable {s s' : State T} (h : threadPreemptEnable s = .ok s') :
    s' = s.modify s.current fun th => { th with preemptLevel := th.preemptLevel - 1 } :=
  (Except.ok.inj (of_assert h).2).symm

theorem of_threadSleep {s s' : State T} {next : T} (h : threadSleep s next = .ok s') :
    s' = { s.modify s.current fun th => { th with state := .sleeping } with current := next } :=
  (Except.ok.inj (of_assert (of_assert h).2).2).symm

theorem goto_modify (s : State T) (f : Thread → Thread) (pc : Pc) :
    (s.modify s.current f).goto pc = s.modify s.current fun th => { f th with pc := pc } := by
  simp [State.goto,State.modify]

theorem takenBy_append (l : List (T × UInt8)) (t u : T) (b : UInt8) :
    takenBy (l ++ [(u,b)]) t = takenBy l t ++ if u = t then [b] else [] := by
  unfold takenBy
  rw [List.filter_append,List.map_append]
  split <;> simp [*]

theorem returnedBy_append (l : List (T × Result)) (t u : T) (r : Result) :
    returnedBy (l ++ [(u,r)]) t = returnedBy l t ++ if u = t then r.bytes else [] := by
  unfold returnedBy
  rw [List.filter_append,List.flatMap_append]
  split <;> simp [*]

theorem Inv.inside {s : State T} (h : Inv s) (hm : s.self.pc.masked = true) :
    s.self.preemptLevel = 1 ∧ s.self.intr = false := by
  have hlevel := h.level s.current
  refine ⟨?_,h.masked s.current hm⟩
  change s.self.pc.Level s.self.preemptLevel at hlevel
  revert hm hlevel
  cases s.self.pc <;> simp [Pc.masked,Pc.Level]

theorem Inv.waiter_self {s : State T} (h : Inv s) (hw : s.self.pc.waits = true) :
    s.waiter = some s.current :=
  (h.waiter s.current).mpr hw

theorem Inv.pop {s : State T} (h : Inv s) (hpc : s.self.pc = .readPop) {byte : UInt8} {cbuf : Cbuf}
    (hpop : cbufPopb s.cbuf = .ok (byte,cbuf)) :
    Inv (({ s with cbuf := cbuf, popped := s.popped ++ [(s.current,byte)] } : State T).goto
      (.readRestore (.byte byte))) := by
  obtain ⟨hlevel,hintr⟩ := h.inside (by rw [hpc]; rfl)
  have hwaiter : s.waiter = none := h.free (by rw [hpc]; rfl)
  have hne : s.cbuf.bytes ≠ [] := fun hnil => by
    rw [h.valid.popb.1 hnil] at hpop
    cases hpop
  obtain ⟨b,bytes,hbytes⟩ := List.exists_cons_of_ne_nil hne
  obtain ⟨cbuf',hpop',hvalid,hcap,hrest⟩ := h.valid.popb.2 b bytes hbytes
  rw [hpop] at hpop'
  obtain ⟨rfl,rfl⟩ : byte = b ∧ cbuf = cbuf' := by simpa using hpop'
  have hcalls := h.calls s.current
  rw [show (s.thread s.current).pc = .readPop from hpc] at hcalls
  refine h.update ⟨rfl,rfl,hlevel,fun _ => hintr,?_,fun _ _ => Iff.rfl,
    fun hf => absurd hf Bool.false_ne_true,
    fun he => absurd he Bool.false_ne_true,fun t ht => ?_,hvalid,hcap,?_,?_,fun t ht => ⟨?_,rfl⟩⟩
  · simp [State.goto,State.modify,hwaiter,Pc.waits]
  · rw [show s.waiter = some t from ht] at hwaiter
    cases hwaiter
  · change s.accepted = (s.popped ++ [(s.current,byte)]).map Prod.snd ++ cbuf.bytes
    rw [h.order,hbytes,hrest,List.map_append,List.append_assoc]
    rfl
  · change takenBy (s.popped ++ [(s.current,byte)]) s.current = _
    rw [takenBy_append,hcalls,if_pos rfl]
    simp [Pc.pending,State.goto,State.modify]
  · change takenBy (s.popped ++ [(s.current,byte)]) t = _
    rw [takenBy_append,if_neg (Ne.symm ht),List.append_nil]

theorem Inv.set_waiter {s : State T} (h : Inv s) (hpc : s.self.pc = .readSetWaiter) :
    Inv (({ s with waiter := some s.current } : State T).goto .readSleep) := by
  obtain ⟨hlevel,hintr⟩ := h.inside (by rw [hpc]; rfl)
  have hwaiter : s.waiter = none := h.free (by rw [hpc]; rfl)
  have hempty : s.cbuf.bytes = [] := h.empty (by rw [hpc]; rfl)
  have hcalls := h.calls s.current
  rw [show (s.thread s.current).pc = .readSetWaiter from hpc] at hcalls
  refine h.update ⟨rfl,rfl,hlevel,fun _ => hintr,?_,fun t ht => ?_,
    fun hf => absurd hf Bool.false_ne_true,fun _ => hempty,
    fun t _ hb => absurd hempty hb,h.valid,rfl,h.order,hcalls,fun _ _ => ⟨rfl,rfl⟩⟩
  · simp [State.goto,State.modify,Pc.waits]
  · simp [State.goto,State.modify,hwaiter,Ne.symm ht]

theorem Inv.sleep {s s' : State T} {next : T} (h : Inv s) (hpc : s.self.pc = .readSleep)
    (hx : threadSleep (s.goto .readClearWaiter) next = .ok s') : Inv s' := by
  obtain ⟨hlevel,hintr⟩ := h.inside (by rw [hpc]; rfl)
  have hwaiter := h.waiter_self (by rw [hpc]; rfl)
  have hempty : s.cbuf.bytes = [] := h.empty (by rw [hpc]; rfl)
  have hcalls := h.calls s.current
  rw [show (s.thread s.current).pc = .readSleep from hpc] at hcalls
  let s₁ := s.modify s.current fun th => { th with state := .sleeping, pc := .readClearWaiter }
  have hinv : Inv s₁ := by
    refine h.update ⟨rfl,rfl,hlevel,fun _ => hintr,?_,fun _ _ => Iff.rfl,
      fun hf => absurd hf Bool.false_ne_true,
      fun he => absurd he Bool.false_ne_true,fun t _ hb => absurd hempty hb,h.valid,rfl,h.order,
        hcalls,fun _ _ => ⟨rfl,rfl⟩⟩
    simp [s₁,State.modify,hwaiter,Pc.waits]
  have hs' : s' = { s₁ with current := next } := by
    rw [of_threadSleep hx]
    simp [s₁,State.goto,State.modify]
  rw [hs']
  refine hinv.switch ?_ next
  simp [s₁,State.self,State.modify,Pc.Rests,Pc.free,Pc.foundEmpty]

theorem Inv.clear_waiter {s : State T} (h : Inv s) (hpc : s.self.pc = .readClearWaiter) :
    Inv (({ s with waiter := none } : State T).goto .readPop) := by
  obtain ⟨hlevel,hintr⟩ := h.inside (by rw [hpc]; rfl)
  have hwaiter := h.waiter_self (by rw [hpc]; rfl)
  have hcalls := h.calls s.current
  rw [show (s.thread s.current).pc = .readClearWaiter from hpc] at hcalls
  refine h.update ⟨rfl,rfl,hlevel,fun _ => hintr,?_,fun t ht => ?_,fun _ => rfl,
    fun hf => absurd hf Bool.false_ne_true,
    fun _ ht => absurd ht (by simp [State.goto,State.modify]),h.valid,rfl,h.order,hcalls,
      fun _ _ => ⟨rfl,rfl⟩⟩
  · simp [State.goto,State.modify,Pc.waits]
  · simp [State.goto,State.modify,hwaiter,Ne.symm ht]

theorem Inv.finish {s : State T} (h : Inv s) {result : Result} (hpc : s.self.pc = .readReturn result) :
    Inv (({ s with returned := s.returned ++ [(s.current,result)] } : State T).goto .own) := by
  have hcalls := h.calls s.current
  have hwaiter : ¬s.waiter = some s.current := fun hw => by
    have := (h.waiter s.current).mp hw
    rw [show (s.thread s.current).pc = .readReturn result from hpc] at this
    cases this
  rw [show (s.thread s.current).pc = .readReturn result from hpc] at hcalls
  refine h.update ⟨rfl,rfl,trivial,fun hf => absurd hf Bool.false_ne_true,?_,fun _ _ => Iff.rfl,
    fun hf => absurd hf Bool.false_ne_true,fun he => absurd he Bool.false_ne_true,fun t ht hb => ?_,
      h.valid,rfl,h.order,?_,
    fun t ht => ⟨rfl,?_⟩⟩
  · exact ⟨fun hw => absurd hw hwaiter,fun hw => absurd hw Bool.false_ne_true⟩
  · have hne : t ≠ s.current := fun heq => hwaiter (heq ▸ ht)
    rw [State.goto,modify_thread,if_neg hne]
    exact h.awake t ht hb
  · change takenBy s.popped s.current = returnedBy (s.returned ++ [(s.current,result)]) s.current ++ _
    rw [returnedBy_append,hcalls,if_pos rfl]
    cases result <;> simp [Pc.pending,Result.bytes]
  · change returnedBy (s.returned ++ [(s.current,result)]) t = _
    rw [returnedBy_append,if_neg (Ne.symm ht),List.append_nil]

theorem Inv.exec {s s' : State T} {next : T} (h : Inv s) (hx : exec s next = .ok s') : Inv s' := by
  have hlevel : s.self.pc.Level s.self.preemptLevel := h.level s.current
  have hmasked : s.self.pc.masked = true → s.self.intr = false := h.masked s.current
  unfold Uart.exec at hx
  split at hx
  case h_1 =>
    cases hx
    exact h
  case h_2 hpc =>
    obtain ⟨s₁,hs₁,hx⟩ := bind_eq_ok hx
    rw [hpc] at hlevel
    have hzero : s.self.preemptLevel = 0 := hlevel
    rw [← Except.ok.inj hx,of_threadPreemptDisable hs₁,goto_modify]
    refine h.modify ?_ ?_ ?_ ?_ ?_ ?_ ?_ <;> simp [hpc,hzero,Pc.Level,Pc.masked,Pc.waits,Pc.free,
      Pc.foundEmpty,Pc.pending]
  case h_3 hpc =>
    rw [← Except.ok.inj hx,cpuIntrSave,goto_modify]
    rw [hpc] at hlevel
    refine h.modify hlevel ?_ ?_ ?_ ?_ ?_ ?_ <;> simp [hpc,Pc.masked,Pc.waits,Pc.free,Pc.foundEmpty,
      Pc.pending]
  case h_4 hpc =>
    rw [← Except.ok.inj hx]
    obtain ⟨hone,hintr⟩ := h.inside (by rw [hpc]; rfl)
    split
    · refine h.modify hone (fun _ => hintr) ?_ ?_ ?_ ?_ ?_
        <;> simp [hpc,Pc.waits,Pc.free,Pc.foundEmpty,Pc.pending]
    · next hnone =>
      have hnone : s.waiter = none := Option.not_isSome_iff_eq_none.mp hnone
      refine h.modify hone (fun _ => hintr) ?_ ?_ ?_ ?_ ?_
        <;> simp [hpc,hnone,Pc.waits,Pc.foundEmpty,Pc.pending]
  case h_5 hpc =>
    split at hx
    · next hpop =>
      rw [← Except.ok.inj hx]
      exact h.pop hpc hpop
    · next hpop =>
      rw [← Except.ok.inj hx]
      obtain ⟨hone,hintr⟩ := h.inside (by rw [hpc]; rfl)
      have hnone : s.waiter = none := h.free (by rw [hpc]; rfl)
      have hempty : s.cbuf.bytes = [] := by
        by_contra hne
        obtain ⟨b,bytes,hbytes⟩ := List.exists_cons_of_ne_nil hne
        obtain ⟨cbuf,hok,-⟩ := h.valid.popb.2 b bytes hbytes
        rw [hpop] at hok
        cases hok
      refine h.modify hone (fun _ => hintr) ?_ ?_ ?_ ?_ ?_
        <;> simp [hpc,hnone,hempty,Pc.waits,Pc.pending]
  case h_6 hpc =>
    rw [← Except.ok.inj hx]
    exact h.set_waiter hpc
  case h_7 hpc => exact h.sleep hpc hx
  case h_8 hpc =>
    rw [← Except.ok.inj hx]
    exact h.clear_waiter hpc
  case h_9 result hpc =>
    rw [← Except.ok.inj hx,cpuIntrRestore,goto_modify]
    rw [hpc] at hlevel
    refine h.modify hlevel ?_ ?_ ?_ ?_ ?_ ?_ <;>
      cases result <;> simp [hpc,Pc.masked,Pc.waits,Pc.free,Pc.foundEmpty,Pc.pending]
  case h_10 result hpc =>
    obtain ⟨s₁,hs₁,hx⟩ := bind_eq_ok hx
    rw [← Except.ok.inj hx,of_threadPreemptEnable hs₁,goto_modify]
    refine h.modify trivial ?_ ?_ ?_ ?_ ?_ ?_ <;>
      cases result <;> simp [hpc,Pc.masked,Pc.waits,Pc.free,Pc.foundEmpty,Pc.pending]
  case h_11 result hpc =>
    rw [← Except.ok.inj hx]
    exact h.finish hpc

/-! ## The other steps -/

theorem Inv.outside {s : State T} (h : Inv s) (hpc : s.self.pc = .own) {f : Thread → Thread}
    (hf : (f s.self).pc = .own) (hstate : (f s.self).state = s.self.state) :
    Inv (s.modify s.current f) := by
  refine h.modify ?_ ?_ ?_ hstate ?_ ?_ ?_ <;> simp [hpc,hf,Pc.Level,Pc.masked,Pc.waits,Pc.free,
    Pc.foundEmpty,Pc.pending]

theorem Inv.outside_sleep {s : State T} (h : Inv s) (hpc : s.self.pc = .own) :
    Inv (s.modify s.current fun th => { th with state := .sleeping }) := by
  have hwaiter := h.waiter s.current
  have hcalls := h.calls s.current
  have hpc' : (s.thread s.current).pc = .own := hpc
  refine h.update ⟨rfl,rfl,?_,?_,hwaiter,fun _ _ => Iff.rfl,?_,?_,fun t ht hb => ?_,h.valid,rfl,
    h.order,hcalls,fun _ _ => ⟨rfl,rfl⟩⟩
  · simp [hpc',Pc.Level]
  · simp [hpc',Pc.masked]
  · simp [hpc',Pc.free]
  · simp [hpc',Pc.foundEmpty]
  · have hne : t ≠ s.current := fun heq => by
      have := hwaiter.mp (heq ▸ ht)
      rw [hpc'] at this
      cases this
    rw [modify_thread,if_neg hne]
    exact h.awake t ht hb

theorem Inv.call {s : State T} (h : Inv s) (hpc : s.self.pc = .own) (hlevel : s.self.preemptLevel = 0) :
    Inv (s.goto .readEnter) := by
  refine h.modify hlevel ?_ ?_ rfl ?_ ?_ ?_ <;> simp [hpc,Pc.masked,Pc.waits,Pc.free,Pc.foundEmpty,
    Pc.pending]

/-- A thread becomes `RUNNING`: the invariant only asks for more of them. -/
theorem Inv.wakeup {s : State T} (h : Inv s) (t : T) :
    Inv (s.modify t fun th => { th with state := .running }) := by
  have hthread : ∀ u, ((s.modify t fun th => { th with state := .running }).thread u).pc =
      (s.thread u).pc ∧
      ((s.modify t fun th => { th with state := .running }).thread u).preemptLevel =
        (s.thread u).preemptLevel ∧
      ((s.modify t fun th => { th with state := .running }).thread u).intr = (s.thread u).intr := by
    intro u
    rw [modify_thread]
    split <;> simp_all
  have hself := (hthread s.current).1
  refine ⟨fun u hu => ?_,fun u => ?_,fun u => ?_,fun u => ?_,?_,?_,fun u hu hb => ?_,h.valid,
    h.capacity,h.order,fun u => ?_⟩
  · rw [(hthread u).1]
    exact h.rests u hu
  · rw [(hthread u).1,(hthread u).2.1]
    exact h.level u
  · rw [(hthread u).1,(hthread u).2.2]
    exact h.masked u
  · rw [(hthread u).1]
    exact h.waiter u
  · intro hf
    exact h.free (hself ▸ hf)
  · intro he
    exact h.empty (hself ▸ he)
  · rw [modify_thread]
    split
    · rfl
    · exact h.awake u hu hb
  · rw [(hthread u).1]
    exact h.calls u

theorem Inv.waiter_ne_current {s : State T} (h : Inv s) (hintr : s.self.intr = true) :
    s.waiter ≠ some s.current := by
  intro hw
  have hwaits : s.self.pc.waits = true := (h.waiter s.current).mp hw
  have hmasked : s.self.pc.masked = true := by
    revert hwaits
    cases s.self.pc <;> simp [Pc.waits,Pc.masked]
  have := h.masked s.current hmasked
  rw [show (s.thread s.current).intr = true from hintr] at this
  cases this

theorem Inv.threadWakeup_eq {s s₁ : State T} (h : Inv s) (hintr : s.self.intr = true)
    (hcurrent : s₁.current = s.current) :
    threadWakeup s₁ s.waiter =
    s.waiter.elim s₁ fun t => s₁.modify t fun th => { th with state := .running } := by
  cases hw : s.waiter with
  | none => rfl
  | some t =>
    refine if_neg fun ht => h.waiter_ne_current hintr ?_
    rw [hw,ht,hcurrent]

/-- The byte is dropped and nothing else changes, or it goes to the end of the buffer and the waiter runs. -/
theorem Inv.handler {s : State T} (h : Inv s) (hintr : s.self.intr = true) (byte : UInt8) :
    (s.cbuf.bytes.length = UART_BUFFER_SIZE →
      uartIrqHandler s byte = { s with dropped := s.dropped ++ [byte] }) ∧
    (s.cbuf.bytes.length ≠ UART_BUFFER_SIZE → ∃ cbuf : Cbuf, cbuf.Valid ∧
      cbuf.capacity = s.cbuf.capacity ∧ cbuf.bytes = s.cbuf.bytes ++ [byte] ∧
      uartIrqHandler s byte =
        s.waiter.elim { s with cbuf := cbuf, accepted := s.accepted ++ [byte] } fun t =>
          ({ s with cbuf := cbuf, accepted := s.accepted ++ [byte] } : State T).modify t
            fun th => { th with state := .running }) := by
  obtain ⟨hfull,hroom⟩ := h.valid.pushb byte
  rw [h.capacity] at hfull hroom
  refine ⟨fun hl => ?_,fun hl => ?_⟩
  · rw [uartIrqHandler,hfull hl]
  · obtain ⟨cbuf,hpush,hvalid,hcap,hbytes⟩ := hroom hl
    refine ⟨cbuf,hvalid,hcap.trans h.capacity.symm,hbytes,?_⟩
    rw [uartIrqHandler,hpush]
    exact h.threadWakeup_eq hintr rfl

theorem Inv.accept {s : State T} (h : Inv s) (hintr : s.self.intr = true) {cbuf : Cbuf}
    {byte : UInt8} (hvalid : cbuf.Valid) (hcap : cbuf.capacity = s.cbuf.capacity)
    (hbytes : cbuf.bytes = s.cbuf.bytes ++ [byte])
    (hawake : ∀ t, s.waiter = some t → (s.thread t).state = .running) :
    Inv { s with cbuf := cbuf, accepted := s.accepted ++ [byte] } := by
  refine ⟨h.rests,h.level,h.masked,h.waiter,h.free,fun he => ?_,fun t ht _ => hawake t ht,hvalid,
    hcap.trans h.capacity,?_,h.calls⟩
  · have hmasked : s.self.pc.masked = true := by
      change s.self.pc.foundEmpty = true at he
      revert he
      cases s.self.pc <;> simp [Pc.foundEmpty,Pc.masked]
    have := h.masked s.current hmasked
    rw [show (s.thread s.current).intr = true from hintr] at this
    cases this
  · change s.accepted ++ [byte] = s.popped.map Prod.snd ++ cbuf.bytes
    rw [h.order,hbytes,List.append_assoc]

theorem Inv.irq {s : State T} (h : Inv s) (hintr : s.self.intr = true) (byte : UInt8) :
    Inv (uartIrqHandler s byte) := by
  obtain ⟨hfull,hroom⟩ := h.handler hintr byte
  by_cases hl : s.cbuf.bytes.length = UART_BUFFER_SIZE
  · rw [hfull hl]
    exact ⟨h.rests,h.level,h.masked,h.waiter,h.free,h.empty,h.awake,h.valid,h.capacity,h.order,h.calls⟩
  · obtain ⟨cbuf,hvalid,hcap,hbytes,heq⟩ := hroom hl
    rw [heq]
    suffices hinv : ∀ w, s.waiter = w →
      Inv (w.elim { s with cbuf := cbuf, accepted := s.accepted ++ [byte] } fun t =>
        ({ s with cbuf := cbuf, accepted := s.accepted ++ [byte] } : State T).modify t
          fun th => { th with state := .running }) from hinv _ rfl
    intro w hw
    cases w with
    | none => exact h.accept hintr hvalid hcap hbytes fun t ht => by rw [hw] at ht; cases ht
    | some t =>
      -- waking the waiter before the byte is put into the buffer leads to the same state
      have hne : s.current ≠ t := fun ht => h.waiter_ne_current hintr (ht ▸ hw)
      refine (h.wakeup t).accept ?_ hvalid hcap hbytes fun u hu => ?_
      · rw [State.self,modify_thread]
        change (if s.current = t then _ else _ : Thread).intr = true
        rw [if_neg hne]
        exact hintr
      · obtain rfl : t = u := Option.some.inj (hw.symm.trans hu)
        rw [modify_thread,if_pos rfl]

/-! ## Runs -/

theorem Initial.inv {s : State T} (h : Initial s) : Inv s := by
  obtain ⟨hown,-,⟨buf,hcbuf⟩,hwaiter,haccepted,-,hpopped,hreturned⟩ := h
  obtain ⟨hvalid,hbytes⟩ := valid_cbufInit buf (k := 4) (by norm_num)
  have hcbuf : s.cbuf = cbufInit buf (2 ^ 4) := hcbuf
  have hself : s.self.pc = .own := hown s.current
  refine ⟨fun t _ => ?_,fun t => ?_,fun t => ?_,fun t => ?_,?_,?_,fun t ht => ?_,hcbuf ▸ hvalid,
    by rw [hcbuf]; rfl,?_,fun t => ?_⟩
  · simp [hown,Pc.Rests,Pc.free,Pc.foundEmpty]
  · simp [hown,Pc.Level]
  · simp [hown,Pc.masked]
  · simp [hown,hwaiter,Pc.waits]
  · simp [hself,Pc.free]
  · simp [hself,Pc.foundEmpty]
  · rw [hwaiter] at ht
    cases ht
  · rw [haccepted,hpopped,hcbuf,hbytes]
    rfl
  · rw [hpopped,hreturned,hown]
    rfl

theorem Step.inv {s s' : State T} (h : Inv s) (hstep : Step s s') : Inv s' := by
  cases hstep with
  | exec next _ hx _ => exact h.exec hx
  | call hpc hlevel => exact h.call hpc hlevel
  | disable hpc hx =>
    rw [of_threadPreemptDisable hx]
    exact h.outside hpc hpc rfl
  | enable hpc hx =>
    rw [of_threadPreemptEnable hx]
    exact h.outside hpc hpc rfl
  | intr b hpc => exact h.outside hpc hpc rfl
  | sleep next hpc hx _ =>
    rw [of_threadSleep hx]
    exact (h.outside_sleep hpc).switch
      (by simp [State.self,State.modify,show (s.thread s.current).pc = .own from hpc,
      Pc.Rests,Pc.free,Pc.foundEmpty]) next
  | preempt next hlevel _ =>
    refine h.switch (Pc.rests_of_level ?_) next
    rw [← hlevel]
    exact h.level s.current
  | wakeup t => exact h.wakeup t
  | irq byte hintr => exact h.irq hintr byte

theorem Reachable.inv {s : State T} (h : Reachable s) : Inv s := by
  induction h with
  | init h => exact h.inv
  | step _ hstep ih => exact hstep.inv ih

end X1.Uart
