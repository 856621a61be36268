import X1.Uart.Invariant

/-! # Delivery and wake-ups of the serial port

What `uart_read` promises to its callers, in every run.
-/
namespace X1.Uart
open X1.Lib X1.Checked

section
variable {T : Type} [DecidableEq T]

theorem Inv.full_iff {s : State T} (h : Inv s) :
    s.cbuf.bytes.length = UART_BUFFER_SIZE ↔ s.accepted.length = s.popped.length + UART_BUFFER_SIZE := by
  have hlength : s.accepted.length = s.popped.length + s.cbuf.bytes.length := by
    rw [h.order,List.length_append,List.length_map]
  omega

/-- The bytes accepted are those taken out, in the order in which they were taken, and those in the buffer.
A byte is dropped exactly when 16 accepted ones are unread, and then nothing else changes. A thread has
returned from its calls the bytes it has taken, but for the one its present call is about to return, so that
a call that fails takes none. -/
theorem delivered_in_order (s : State T) (h : Reachable s) :
    s.accepted = s.popped.map Prod.snd ++ s.cbuf.bytes ∧
    s.cbuf.bytes.length ≤ UART_BUFFER_SIZE ∧
    (∀ byte, s.self.intr = true →
      (s.accepted.length = s.popped.length + UART_BUFFER_SIZE →
        uartIrqHandler s byte = { s with dropped := s.dropped ++ [byte] }) ∧
      (s.accepted.length ≠ s.popped.length + UART_BUFFER_SIZE →
      (uartIrqHandler s byte).accepted = s.accepted ++ [byte] ∧
      (uartIrqHandler s byte).dropped = s.dropped ∧
      (uartIrqHandler s byte).cbuf.bytes = s.cbuf.bytes ++ [byte])) ∧
    (∀ t, takenBy s.popped t = returnedBy s.returned t ++ (s.thread t).pc.pending) ∧
    (∀ t, (s.thread t).pc = .own ∨ (s.thread t).pc = .readReturn .busy →
      takenBy s.popped t = returnedBy s.returned t) := by
  have hinv := h.inv
  refine ⟨hinv.order,?_,fun byte hintr => ⟨fun hfull => ?_,fun hroom => ?_⟩,hinv.calls,fun t ht => ?_⟩
  · rw [Cbuf.Valid.length_bytes,← hinv.capacity]
    exact hinv.valid.size_le
  · exact (hinv.handler hintr byte).1 (hinv.full_iff.mpr hfull)
  · obtain ⟨cbuf,-,-,hbytes,heq⟩ := (hinv.handler hintr byte).2 fun hl => hroom (hinv.full_iff.mp hl)
    rw [heq]
    cases s.waiter with
    | none => exact ⟨rfl,rfl,hbytes⟩
    | some t => exact ⟨rfl,rfl,hbytes⟩
  · rw [hinv.calls t]
    rcases ht with ht | ht
    · simp [ht,Pc.pending]
    · simp [ht,Pc.pending]

def State.Blocked (s : State T) (t : T) : Prop := t ≠ s.current ∧ (s.thread t).pc = .readClearWaiter

theorem Inv.waiter_iff_blocked {s : State T} (h : Inv s) (hintr : s.self.intr = true) (t : T) :
    s.waiter = some t ↔ s.Blocked t := by
  refine ⟨fun hw => ?_,fun hb => (h.waiter t).mpr (by rw [hb.2]; rfl)⟩
  have hne : t ≠ s.current := fun ht => h.waiter_ne_current hintr (ht ▸ hw)
  have hwaits := (h.waiter t).mp hw
  have hrests := h.rests t hne
  refine ⟨hne,?_⟩
  revert hwaits hrests
  cases (s.thread t).pc <;> simp [Pc.waits,Pc.Rests,Pc.foundEmpty]

theorem exec_keeps_buffer {s s' : State T} {next : T} (hx : exec s next = .ok s')
    (hpc : s.self.pc ≠ .readPop) : s'.popped = s.popped ∧ s'.cbuf = s.cbuf := by
  unfold exec at hx
  split at hx
  case h_2 =>
    obtain ⟨s₁,hs₁,hx⟩ := bind_eq_ok hx
    rw [← Except.ok.inj hx,of_threadPreemptDisable hs₁]
    exact ⟨rfl,rfl⟩
  case h_5 hpop => exact absurd hpop hpc
  case h_7 =>
    rw [of_threadSleep hx]
    exact ⟨rfl,rfl⟩
  case h_10 =>
    obtain ⟨s₁,hs₁,hx⟩ := bind_eq_ok hx
    rw [← Except.ok.inj hx,of_threadPreemptEnable hs₁]
    exact ⟨rfl,rfl⟩
  all_goals
    rw [← Except.ok.inj hx]
    exact ⟨rfl,rfl⟩

/-- A thread takes a byte only after it has found that nobody waits. -/
theorem Inv.popped_of_waiter {s s' : State T} (h : Inv s) (hw : s.waiter ≠ none) (hstep : Step s s') :
    s'.popped = s.popped ∧ s.cbuf.bytes <+: s'.cbuf.bytes := by
  cases hstep with
  | exec next _ hx _ =>
    have hpc : s.self.pc ≠ .readPop := fun hpc => hw (h.free (by rw [hpc]; rfl))
    obtain ⟨hpopped,hcbuf⟩ := exec_keeps_buffer hx hpc
    rw [hcbuf]
    exact ⟨hpopped,List.prefix_rfl⟩
  | disable _ hx =>
    rw [of_threadPreemptDisable hx]
    exact ⟨rfl,List.prefix_rfl⟩
  | enable _ hx =>
    rw [of_threadPreemptEnable hx]
    exact ⟨rfl,List.prefix_rfl⟩
  | sleep next _ hx _ =>
    rw [of_threadSleep hx]
    exact ⟨rfl,List.prefix_rfl⟩
  | irq byte hintr =>
    by_cases hl : s.cbuf.bytes.length = UART_BUFFER_SIZE
    · rw [(h.handler hintr byte).1 hl]
      exact ⟨rfl,List.prefix_rfl⟩
    · obtain ⟨cbuf,-,-,hbytes,heq⟩ := (h.handler hintr byte).2 hl
      have hcbuf : s.cbuf.bytes <+: cbuf.bytes := ⟨[byte],hbytes.symm⟩
      rw [heq]
      cases s.waiter with
      | none => exact ⟨rfl,hcbuf⟩
      | some t => exact ⟨rfl,hcbuf⟩
  | _ => exact ⟨rfl,List.prefix_rfl⟩

/-- In every state with interrupts enabled, no thread is the waiter or the one blocked in `uart_read` is;
nobody takes a byte as long as there is a waiter; and a waiter for which a byte has come runs. The handler
never finds that the current thread is the waiter. -/
theorem no_lost_byte_wakeup (s : State T) (h : Reachable s) :
    (s.self.intr = true → (s.waiter = none ∧ ∀ t, ¬s.Blocked t) ∨
      ∃ t, s.waiter = some t ∧ s.Blocked t ∧ ∀ u, s.Blocked u → u = t) ∧
    (∀ s', Step s s' → s.waiter ≠ none → s'.popped = s.popped ∧ s.cbuf.bytes <+: s'.cbuf.bytes) ∧
    (∀ t, s.waiter = some t → s.cbuf.bytes ≠ [] → (s.thread t).state = .running) ∧
    (s.self.intr = true → s.waiter ≠ some s.current) := by
  have hinv := h.inv
  refine ⟨fun hintr => ?_,fun s' hstep hw => hinv.popped_of_waiter hw hstep,hinv.awake,
    hinv.waiter_ne_current⟩
  have hiff := hinv.waiter_iff_blocked hintr
  cases hw : s.waiter with
  | none =>
    refine .inl ⟨rfl,fun t ht => ?_⟩
    have := (hiff t).mpr ht
    rw [hw] at this
    cases this
  | some t =>
    refine .inr ⟨t,rfl,(hiff t).mp hw,fun u hu => ?_⟩
    exact Option.some.inj (((hiff u).mpr hu).symm.trans hw)

end

/-! ## A reader that waits for a byte -/

inductive Move where
  | exec (next : ℕ)
  | call
  | preempt (next : ℕ)
  | irq (byte : UInt8)

def Move.run (s : State ℕ) : Move → Option (State ℕ)
  | .exec next =>
    if s.self.pc ≠ .own then
      match Uart.exec s next with
      | .ok s' => if s'.self.state = .running then some s' else none
      | .error _ => none
    else none
  | .call => if s.self.pc = .own ∧ s.self.preemptLevel = 0 then some (s.goto .readEnter) else none
  | .preempt next =>
    if s.self.preemptLevel = 0 ∧ (s.thread next).state = .running then
      some { s with current := next }
    else none
  | .irq byte => if s.self.intr = true then some (uartIrqHandler s byte) else none

theorem Move.step_run {s s' : State ℕ} {m : Move} (h : m.run s = some s') : Step s s' := by
  cases m with
  | exec next =>
    simp only [Move.run] at h
    split at h
    · next hpc =>
      split at h
      · next hexec =>
        split at h
        · next hrun =>
          cases h
          exact .exec next hpc hexec hrun
        · cases h
      · cases h
    · cases h
  | call =>
    simp only [Move.run] at h
    split at h
    · next hc =>
      cases h
      exact .call hc.1 hc.2
    · cases h
  | preempt next =>
    simp only [Move.run] at h
    split at h
    · next hc =>
      cases h
      exact .preempt next hc.1 hc.2
    · cases h
  | irq byte =>
    simp only [Move.run] at h
    split at h
    · next hc =>
      cases h
      exact .irq byte hc
    · cases h

def sampleInit : State ℕ :=
  ⟨fun _ => ⟨.running,0,true,false,.own⟩,0,cbufInit (fun _ => 0) UART_BUFFER_SIZE,none,[],[],[],[]⟩

theorem sampleInit_reachable : Reachable sampleInit :=
  .init ⟨fun _ => rfl,rfl,⟨_,rfl⟩,rfl,rfl,rfl,rfl,rfl⟩

/-- Thread 0 calls `uart_read` and sleeps, and a byte comes while thread 1 runs, which calls in turn. -/
def waitMoves : List Move :=
  [.call,.exec 0,.exec 0,.exec 0,.exec 0,.exec 0,.exec 1,.irq 65,.call,.exec 1,.exec 1,.exec 1,.exec 1]

def deliverMoves : List Move :=
  waitMoves ++ [.exec 1,.exec 1,.preempt 0,.exec 0,.exec 0,.exec 0,.exec 0,.exec 0,.irq 66]

theorem exists_reachable (ms : List Move) (p : State ℕ → Bool)
    (h : (ms.foldlM Move.run sampleInit).map p = some true) : ∃ s, Reachable s ∧ p s = true := by
  obtain ⟨s,hs,hv⟩ := Option.map_eq_some_iff.mp h
  exact ⟨s,foldlM_keeps (P := Reachable) (fun _ _ _ _ hr h => .step hr (Move.step_run h))
    sampleInit_reachable hs,hv⟩

theorem delivered_in_order_sample : ∃ s : State ℕ, Reachable s ∧ s.accepted = [65,66] ∧
    s.returned = [(1,.busy),(0,.byte 65)] ∧ s.cbuf.bytes = [66] := by
  obtain ⟨s,hs,hv⟩ := exists_reachable deliverMoves (fun s =>
    s.accepted = [65,66] ∧ s.popped = [(0,65)] ∧ s.returned = [(1,.busy),(0,.byte 65)])
      (by decide +kernel)
  obtain ⟨haccepted,hpopped,hreturned⟩ := of_decide_eq_true hv
  have horder := (delivered_in_order s hs).1
  rw [haccepted,hpopped] at horder
  exact ⟨s,hs,haccepted,hreturned,by simpa using horder.symm⟩

theorem no_lost_byte_wakeup_sample : ∃ s : State ℕ, Reachable s ∧ s.self.intr = true ∧ s.waiter = some 0 ∧
    s.Blocked 0 ∧ (s.thread 0).state = .running := by
  obtain ⟨s,hs,hv⟩ := exists_reachable waitMoves (fun s =>
    s.self.intr = true ∧ s.waiter = some 0 ∧ s.cbuf.bytes = [65]) (by decide +kernel)
  obtain ⟨hintr,hwaiter,hbytes⟩ := of_decide_eq_true hv
  obtain ⟨hblocked,-,hawake,-⟩ := no_lost_byte_wakeup s hs
  refine ⟨s,hs,hintr,hwaiter,?_,hawake 0 hwaiter (by simp [hbytes])⟩
  rcases hblocked hintr with ⟨hnone,-⟩ | ⟨t,ht,hb,-⟩
  · rw [hwaiter] at hnone
    cases hnone
  · obtain rfl : 0 = t := Option.some.inj (hwaiter.symm.trans ht)
    exact hb

end X1.Uart
