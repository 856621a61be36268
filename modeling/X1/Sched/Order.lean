import X1.Sched.Preempt

/-! # The order of dispatch

Between two dispatches the lists only grow at their tails, and a dispatch takes the
front of the highest list that is not empty. A thread that waits in the run queue is
therefore passed only by more urgent threads and, once each, by the threads of its
own priority that were linked before it.
-/
namespace X1.Sched
open X1.Lib X1.Ring X1.Checked

/-- The step is one of the instructions that call `thread_runq_schedule`. -/
def Dispatch (s s' : State) : Prop :=
  ∃ f fs i k, s.stack s.current = f :: fs ∧ f.code = i :: k ∧ i.Switches ∧
    exec (s.setStack ({ f with code := k } :: fs)) i = .ok s'

/-- A run from `r` to `s` in which `a` is not dispatched. `log` are the threads that are, last first. -/
inductive Passing (a : Tid) (r : State) : List Tid → State → Prop where
  | start : Passing a r [] r
  | step {log : List Tid} {s s' : State} : Passing a r log s → Step s s' → ¬Dispatch s s' →
      Passing a r log s'
  | dispatch {log : List Tid} {s s' : State} : Passing a r log s → Dispatch s s' → s'.current ≠ a →
      Passing a r (s'.current :: log) s'

/-- `b` is linked in front of `a`. -/
def Ahead (s : State) (b a : Tid) : Prop := ∃ queue p, RunqInvariant s queue ∧ [b,a].Sublist (queue p)

/-- Among the runnable threads, in the order in which they were linked, the next is the first of the
highest priority. The last one linked may be linked by the call itself. -/
def TakesFirst (s s' : State) : Prop :=
  ∃ queue queue₀ queue', RunqInvariant s queue ∧ RunqInvariant s' queue' ∧ (∀ p, queue p <+: queue₀ p) ∧
    (∀ p t, t ∈ queue₀ p ↔ Ready s' p t) ∧ Picks queue₀ s.idle s'.current queue'

/-! ## Steps -/

theorem Dispatch.step {s s' : State} (h : Dispatch s s') : Step s s' := by
  obtain ⟨f,fs,i,k,hstack,hcode,-,hexec⟩ := h
  exact .thread (.instr hstack hcode hexec)

theorem Step.grows {s s' : State} (hstep : Step s s') (h : Sound s) (hl : Leveled s)
    (hd : ¬Dispatch s s') : Grows s s' := by
  cases hstep with
  | thread hstep =>
    cases hstep with
    | @instr _ f fs i k hstack hcode hexec =>
      have hf := Fetched.of_stack h hl hstack hcode
      have hsw : ¬i.Switches := fun hsw => hd ⟨f,fs,i,k,hstack,hcode,hsw,hexec⟩
      refine (quiet_setStack s ({ f with code := k } :: fs)).grows.trans ?_
      by_cases hcr : ∃ p, i = .createLocked p
      · obtain ⟨p,rfl⟩ := hcr
        exact (hf.sound.toCore.grows_create p).of_ok hexec
      · exact (hf.controlled hsw (fun p hp => hcr ⟨p,hp⟩) hexec).grows
    | ret _ _ _ => exact (quiet_setStack s _).grows
    | invoke i _ _ _ _ _ => exact (quiet_setStack s _).grows
  | interrupt acts hintr hact hmain =>
    obtain ⟨s₁,-,hw,-,rfl⟩ :=
      (interrupt_spec (W := fun _ => True) h acts fun t ht => ⟨hact t ht,trivial⟩).of_ok hmain
    exact (quiet_interrupted s).grows.trans (hw.grows.trans (quiet_setStack s₁ _).grows)

theorem Dispatch.switched {s s' : State} (hd : Dispatch s s') (h : Sound s) (hl : Leveled s) :
    s'.idle = s.idle ∧ s'.created = s.created ∧ (∀ t, (s'.thread t).priority = (s.thread t).priority) ∧
    ∀ queue, Queued s (some s.current) queue → ∃ queue₀ queue', (∀ p, queue p <+: queue₀ p) ∧
      (∀ p t, t ∈ queue₀ p ↔ Ready s' p t) ∧ Queued s' (some s'.current) queue' ∧
      Picks queue₀ s.idle s'.current queue' := by
  obtain ⟨f,fs,i,k,hstack,hcode,hsw,hexec⟩ := hd
  have hswitch := ((Fetched.of_stack h hl hstack hcode).exec.of_ok hexec).2.2 hsw
  refine ⟨hswitch.idle,hswitch.created,hswitch.priority,fun queue hq => hswitch.picks queue ?_⟩
  exact hq.congr rfl rfl rfl rfl (fun _ => rfl) fun _ => rfl

/-! ## Runs -/

/-- What the run has done to the list of `a`: the threads in front of `a` at the beginning are those of
its priority in the log, and those still in front of it. -/
structure Passed (a : Tid) (r : State) (queue₀ : Queues) (log : List Tid) (s : State) : Prop where
  sound : Sound s ∧ Leveled s
  mem : a ∈ s.created
  priority : (s.thread a).priority = (r.thread a).priority
  log_mem : ∀ b ∈ log, b ∈ s.created ∧ b ≠ s.idle ∧ (s.thread a).priority ≤ (s.thread b).priority
  split : ∃ queue front back rest, Queued s (some s.current) queue ∧
    queue (s.thread a).priority = front ++ a :: back ∧
    queue₀ (s.thread a).priority =
      (log.filter fun b => (s.thread b).priority = (s.thread a).priority).reverse ++ front ++ a :: rest

theorem Passed.grows {a : Tid} {r s s' : State} {queue₀ : Queues} {log : List Tid}
    (h : Passed a r queue₀ log s) (hg : Grows s s') (hs' : Sound s' ∧ Leveled s') :
    Passed a r queue₀ log s' := by
  obtain ⟨queue,front,back,rest,hq,hsplit,hfront⟩ := h.split
  obtain ⟨queue',hq',hpre⟩ := hg.queue queue hq
  have ha := hg.priority a h.mem
  have hlog : ∀ b ∈ log, (s'.thread b).priority = (s.thread b).priority := fun b hb =>
    hg.priority b (h.log_mem b hb).1
  refine ⟨hs',hg.created a h.mem,ha.trans h.priority,fun b hb => ?_,queue',front,?_⟩
  · obtain ⟨hmem,hidle,hle⟩ := h.log_mem b hb
    rw [hg.idle,ha,hlog b hb]
    exact ⟨hg.created b hmem,hidle,hle⟩
  · obtain ⟨l,hl⟩ := hpre (s.thread a).priority
    refine ⟨back ++ l,rest,hq',?_,?_⟩
    · rw [ha,← hl,hsplit]
      simp
    · rw [ha,hfront]
      congr 3
      exact List.filter_congr fun b hb => by rw [hlog b hb]

/-- A dispatch of another thread takes a more urgent one, or the front of the list of `a`. -/
theorem Passed.dispatch {a : Tid} {r s s' : State} {queue₀ : Queues} {log : List Tid}
    (h : Passed a r queue₀ log s) (hd : Dispatch s s') (hne : s'.current ≠ a)
    (hs' : Sound s' ∧ Leveled s') : Passed a r queue₀ (s'.current :: log) s' := by
  obtain ⟨queue,front,back,rest,hq,hsplit,hfront⟩ := h.split
  obtain ⟨hidle,hcreated,hprio,hpicks⟩ := hd.switched h.sound.1 h.sound.2
  obtain ⟨queue₁,queue',hpre,hready,hq',hpick⟩ := hpicks queue hq
  obtain ⟨l,hl⟩ := hpre (s.thread a).priority
  have hsplit₁ : queue₁ (s.thread a).priority = front ++ a :: (back ++ l) := by
    rw [← hl,hsplit]
    simp
  rcases hpick with ⟨hempty,-⟩ | ⟨q,tail,hnext,rfl,hmax⟩
  · simp [hempty] at hsplit₁
  have hle : (s.thread a).priority ≤ q := hmax _ (by simp [hsplit₁])
  obtain ⟨hcm,hci,-,hcp⟩ := (hready q s'.current).mp (by simp [hnext])
  have hfilter : ∀ log : List Tid, (log.filter fun b => (s'.thread b).priority =
      (s'.thread a).priority) =
      log.filter fun b => (s.thread b).priority = (s.thread a).priority := fun log => by
        simp only [hprio]
  refine ⟨hs',hcreated ▸ h.mem,(hprio a).trans h.priority,fun b hb => ?_,?_⟩
  · rcases List.mem_cons.mp hb with rfl | hb
    · exact ⟨hcm,hci,by rw [hcp,hprio]; exact hle⟩
    · rw [hcreated,hidle,hprio,hprio]
      exact h.log_mem b hb
  · rw [hprio] at hcp
    rw [hfilter,hprio]
    by_cases hqa : q = (s.thread a).priority
    · -- the front of the list of `a` is taken
      subst hqa
      rw [hsplit₁] at hnext
      cases front with
      | nil => exact absurd (List.cons_eq_cons.mp hnext).1.symm hne
      | cons b front =>
        obtain ⟨rfl,hrest⟩ := List.cons_eq_cons.mp hnext
        refine ⟨_,front,back ++ l,rest,hq',?_,?_⟩
        · rw [Function.update_self,← hrest]
          rfl
        · rw [hfront,List.filter_cons_of_pos (by simpa using hcp)]
          simp
    · refine ⟨_,front,back ++ l,rest,hq',?_,?_⟩
      · rw [Function.update_of_ne (Ne.symm hqa),hsplit₁]
      · rw [hfront,List.filter_cons_of_neg (by simpa [hcp] using hqa)]

theorem Passing.passed {a : Tid} {r s : State} {log : List Tid} {queue₀ : Queues} (h : Passing a r log s)
    (hr : Reachable r) (hq₀ : Queued r (some r.current) queue₀) (ha : a ∈ queue₀ (r.thread a).priority) :
    Passed a r queue₀ log s := by
  induction h with
  | start =>
    obtain ⟨front,back,hsplit⟩ := List.append_of_mem ha
    exact ⟨hr.sound,((hq₀.mem_iff _ a).mp ha).1,rfl,by simp,queue₀,front,back,back,hq₀,hsplit,
      by simpa using hsplit⟩
  | step _ hstep hd ih =>
    exact ih.grows (hstep.grows ih.sound.1 ih.sound.2 hd) (hstep.sound ih.sound.1 ih.sound.2)
  | dispatch _ hd hne ih => exact ih.dispatch hd hne (hd.step.sound ih.sound.1 ih.sound.2)

theorem Dispatch.takesFirst {s s' : State} (hd : Dispatch s s') (h : Sound s) (hl : Leveled s) :
    TakesFirst s s' := by
  obtain ⟨queue,hq⟩ := h.queued
  obtain ⟨-,-,-,hpicks⟩ := hd.switched h hl
  obtain ⟨queue₀,queue',hpre,hready,hq',hpick⟩ := hpicks queue hq
  exact ⟨queue,queue₀,queue',hq.runqInvariant h,hq'.runqInvariant (hd.step.sound h hl).1,hpre,
    hready,hpick⟩

/-- A linked thread stays linked until it is dispatched. Until then nobody less urgent is dispatched and
idle is not, and of its own priority only those that were linked before it are, once each. Each
dispatch takes the first of the highest priority. -/
theorem dispatch_order (a : Tid) (r s : State) (log : List Tid) (hr : Reachable r) (ha : Linked r a)
    (h : Passing a r log s) :
    Linked s a ∧
    (∀ b ∈ log, b ≠ s.idle ∧ (s.thread a).priority ≤ (s.thread b).priority) ∧
    (∀ b, (s.thread b).priority = (s.thread a).priority → log.count b ≤ 1) ∧
    (∀ b ∈ log, (s.thread b).priority = (s.thread a).priority → Ahead r b a) ∧
    ∀ s', Dispatch s s' → TakesFirst s s' := by
  obtain ⟨queue₀,hq₀⟩ := hr.sound.1.queued
  have hp := h.passed hr hq₀ ((hq₀.linked_iff a).mp ha)
  obtain ⟨queue,front,back,rest,hq,hsplit,hfront⟩ := hp.split
  have hnodup : (queue₀ (s.thread a).priority).Nodup := by
    refine ((hq₀.rings _ ?_).nodup_nodes).of_map _
    exact hq₀.lt_of_mem (t := a) (by rw [hfront]; simp)
  refine ⟨(hq.linked_iff a).mpr (by rw [hsplit]; simp),fun b hb => (hp.log_mem b hb).2,fun b hb => ?_,
    fun b hb hbp => ?_,fun s' hd => hd.takesFirst hp.sound.1 hp.sound.2⟩
  · have hcount : log.count b = (log.filter fun b => (s.thread b).priority =
        (s.thread a).priority).count b :=
      (List.count_filter (by simpa using hb)).symm
    have hle := List.nodup_iff_count_le_one.mp hnodup b
    rw [hfront,List.append_assoc,List.count_append,List.count_reverse] at hle
    omega
  · refine ⟨queue₀,(s.thread a).priority,hq₀.runqInvariant hr.sound.1,?_⟩
    have hmem : b ∈ (log.filter fun b => (s.thread b).priority = (s.thread a).priority).reverse := by
      simpa using ⟨hb,hbp⟩
    rw [hfront,List.append_assoc]
    refine List.Sublist.append (List.singleton_sublist.mpr hmem) ?_
    exact List.singleton_sublist.mpr (by simp)

/-! ## A run written out -/

/-- The next instruction of the current thread calls `thread_runq_schedule`. -/
def State.switching (s : State) : Bool :=
  match (s.stack s.current).head?.bind (·.code.head?) with
  | some .yieldSwitch | some .sleepSwitch | some .exitSwitch => true
  | _ => false

theorem Dispatch.switching {s s' : State} (h : Dispatch s s') : s.switching = true := by
  obtain ⟨f,fs,i,k,hstack,hcode,hsw,-⟩ := h
  cases i <;> simp_all [State.switching,Instr.Switches]

theorem Move.dispatch_run {s s' : State} (hsw : s.switching = true)
    (h : Move.step.run s = some s') : Dispatch s s' := by
  simp only [Move.run] at h
  split at h
  · cases h
  · next f fs hstack =>
    split at h
    · next i k hcode =>
      refine ⟨f,fs,i,k,hstack,hcode,?_,ok_of_toOption h⟩
      cases i <;> simp_all [State.switching,Instr.Switches]
    · next hcode => simp [State.switching,hstack,hcode] at hsw

/-- A move of a run in which `a` is not dispatched, with the log. -/
def Move.pass (a : Tid) (run : List Tid × State) (m : Move) : Option (List Tid × State) := do
  let s ← m.run run.2
  if run.2.switching then
    match m with
    | .step => if s.current = a then none else return (s.current :: run.1,s)
    | _ => none
  else return (run.1,s)

theorem Move.passing {a : Tid} {r : State} {m : Move} {run run' : List Tid × State} (hfree : m.Free)
    (h : Passing a r run.1 run.2) (hm : m.pass a run = some run') : Passing a r run'.1 run'.2 := by
  obtain ⟨s,hs,hm⟩ := Option.bind_eq_some_iff.mp hm
  by_cases hsw : run.2.switching = true
  · cases m with
    | step =>
      simp only [hsw,↓reduceIte] at hm
      split at hm
      · cases hm
      · next hne =>
        cases hm
        exact .dispatch h (Move.dispatch_run hsw hs) hne
    | begin i => simp [hsw] at hm
    | interrupt acts => simp [hsw] at hm
  · simp only [hsw] at hm
    cases hm
    exact .step h (Move.step_run (hfree.api _) hs) fun hd => hsw hd.switching

/-- The boot code creates threads of the given priorities. -/
def bootWith (priorities : List ℕ) : Except Fault State := do
  let s ← priorities.foldlM threadCreate (threadSetup ⟨id,id⟩)
  threadEnableScheduler s

theorem booting_foldlM {s s' : State} {priorities : List ℕ} (hb : Booting s)
    (h : priorities.foldlM threadCreate s = .ok s') : Booting s' := by
  induction priorities generalizing s with
  | nil =>
    cases h
    exact hb
  | cons p ps ih =>
    rw [List.foldlM_cons] at h
    cases h₁ : threadCreate s p with
    | error e => rw [h₁] at h; cases h
    | ok s₁ =>
      rw [h₁] at h
      exact ih (.create hb h₁) h

theorem exists_booting {priorities : List ℕ} {s : State} (h : bootWith priorities = .ok s) :
    ∃ s₀, Booting s₀ ∧ threadEnableScheduler s₀ = .ok s := by
  unfold bootWith at h
  cases h₁ : priorities.foldlM threadCreate (threadSetup ⟨id,id⟩) with
  | error e => rw [h₁] at h; cases h
  | ok s₁ =>
    rw [h₁] at h
    exact ⟨s₁,booting_foldlM (.setup _) h₁,h⟩

/-- The first of three threads of one priority starts and yields. -/
def yieldMoves : List Move := List.replicate 6 .step ++ [.begin (.call .yield)] ++ List.replicate 5 .step

/-- Thread 3 passes thread 4, which was linked behind it. -/
theorem dispatch_order_sample : ∃ r s log, Reachable r ∧ Linked r 4 ∧ Passing 4 r log s ∧ log = [3] ∧
    Linked s 4 ∧ log.count 3 ≤ 1 ∧ Ahead r 3 4 := by
  have hrun : ((bootWith [5,5,5]).toOption.bind
      fun r => (yieldMoves.foldlM (Move.pass 4) ([],r)).map fun x =>
      decide (x.1 = [3] ∧ (x.2.thread 3).priority = (x.2.thread 4).priority ∧ 4 ∈ r.created ∧
        4 ≠ r.current ∧ 4 ≠ r.idle ∧ (r.thread 4).state = .running)) = some true := by decide +kernel
  obtain ⟨r,hr,hrun⟩ := Option.bind_eq_some_iff.mp hrun
  obtain ⟨⟨log,s⟩,hs,hv⟩ := Option.map_eq_some_iff.mp hrun
  obtain ⟨rfl,hprio,hcreated,hcur,hidle,hstate⟩ := of_decide_eq_true hv
  obtain ⟨b,hb,he⟩ := exists_booting (ok_of_toOption hr)
  have hreach : Reachable r := .enable hb he
  have hlinked : Linked r 4 := by
    obtain ⟨queue,hq⟩ := hreach.sound.1.queued
    exact (hq.linked_iff 4).mpr ((hq.mem_iff _ 4).mpr ⟨hcreated,hidle,hstate,by simpa using hcur,rfl⟩)
  have hpass : Passing 4 r [3] s := foldlM_keeps (P := fun x => Passing 4 r x.1 x.2)
    (fun m hm x x' hx h => Move.passing (by
      simp only [yieldMoves,List.mem_append,List.mem_replicate,List.mem_singleton] at hm
      rcases hm with (⟨-,rfl⟩ | rfl) | ⟨-,rfl⟩
      · trivial
      · exact fun _ => trivial
      · trivial) hx h) .start hs
  obtain ⟨hl,-,hcount,hahead,-⟩ := dispatch_order 4 r s [3] hreach hlinked hpass
  exact ⟨r,s,[3],hreach,hlinked,hpass,rfl,hl,hcount 3 hprio,hahead 3 (by simp) hprio⟩

end X1.Sched
