import X1.Kernel.Flow

/-! # Stacks whose frames fit together

A frame is typed by the level and the interrupt flag with which it runs: what is left
of its code gives its caller back the level and the flag of the call. On a stack, each
frame is typed by what the frame above it gives back. The stacks of the threads that
do not run are typed by level 1 and interrupts off, which is what a switch leaves
behind and what it finds.
-/
namespace X1.Kernel
open X1.Flow

variable {level : ℕ} {boot intr : Bool} {f : Frame} {fs : List Frame}

/-! ## Frames -/

/-- What holds when the code of a frame has ended. -/
def Frame.Post (f : Frame) (l : Local) : Prop :=
  match f.fn with
  | .threadMain | .timerFn => l.boot = false
  | .boot => l.level ≠ 0
  | .cpuIntrMain => l.level = f.callLevel
  | _ => l.level = f.callLevel ∧ l.intr = f.callIntr

/-- Code outside of the kernel gives nothing back. -/
theorem Frame.post_user {l : Local} (huser : f.fn.isUser = true) (hboot : f.fn ≠ .boot) :
    f.Post l ↔ l.boot = false := by
  obtain ⟨fn,callLevel,callIntr,eflags,code⟩ := f
  cases fn with
  | threadMain => exact Iff.rfl
  | timerFn => exact Iff.rfl
  | boot => exact absurd rfl hboot
  | _ => cases huser

structure Frame.Typed (boot : Bool) (level : ℕ) (intr : Bool) (f : Frame) : Prop where
  code : wps spec f.code f.Post ⟨level,intr,f.eflags,f.cap,boot⟩
  intr : intr = true → f.cap = true
  eflags : f.eflags = true → f.cap = true
  fit : level < 2 ^ 32

namespace Frame.Typed

theorem unfold {k : List Code} (h : f.Typed boot level intr)
    (hu : Unfolds spec ⟨level,intr,f.eflags,f.cap,boot⟩ f.code k) :
    Typed boot level intr { f with code := k } :=
  ⟨wps_unfolds hu h.code,h.intr,h.eflags,h.fit⟩

theorem act {a : Act} {k : List Code} {l : Local} (h : f.Typed boot level intr)
    (hcode : f.code = .act a :: k) (he : a.effect ⟨level,intr,f.eflags,f.cap,boot⟩ = some l) :
    Typed boot l.level l.intr { f with eflags := l.eflags, code := k } := by
  have hc := h.code
  rw [hcode] at hc
  have hk := hc.2 l he
  have hsafe : a.Safe ⟨level,intr,f.eflags,f.cap,boot⟩ := hc.1
  cases a with
  | preemptDisable =>
    simp only [Act.effect,Option.ite_none_left_eq_some,Option.some.injEq] at he
    obtain ⟨-,rfl⟩ := he
    exact ⟨hk,h.intr,h.eflags,Nat.mod_lt _ (by norm_num)⟩
  | preemptEnableNoYield =>
    simp only [Act.effect,Option.ite_none_left_eq_some,Option.some.injEq] at he
    obtain ⟨-,rfl⟩ := he
    exact ⟨hk,h.intr,h.eflags,lt_of_le_of_lt (Nat.sub_le _ _) h.fit⟩
  | intrSave => cases he; exact ⟨hk,by simp,h.intr,h.fit⟩
  | intrRestore => cases he; exact ⟨hk,h.eflags,h.eflags,h.fit⟩
  | intrEnable => cases he; exact ⟨hk,fun _ => hsafe,h.eflags,h.fit⟩
  | intrDisable => cases he; exact ⟨hk,by simp,h.eflags,h.fit⟩
  | assertIntrDisabled =>
    simp only [Act.effect,Option.ite_none_left_eq_some,Option.some.injEq] at he
    obtain ⟨-,rfl⟩ := he
    exact ⟨hk,h.intr,h.eflags,h.fit⟩
  | assertPreemptEnabled =>
    simp only [Act.effect,Option.ite_none_right_eq_some,Option.some.injEq] at he
    obtain ⟨-,rfl⟩ := he
    exact ⟨hk,h.intr,h.eflags,h.fit⟩
  | enableScheduler => cases he
  | panic => cases he
  | _ => cases he; exact ⟨hk,h.intr,h.eflags,h.fit⟩

/-- What the assertions of an action that comes next ask. -/
theorem safe {a : Act} {k : List Code} (h : f.Typed boot level intr) (hcode : f.code = .act a :: k) :
    a.Safe ⟨level,intr,f.eflags,f.cap,boot⟩ := by
  have hc := h.code
  rw [hcode] at hc
  exact hc.1

/-- The functions that are never called. -/
theorem callee {g : Fn} {k : List Code} (h : f.Typed boot level intr) (hcode : f.code = .call g :: k) :
    g ≠ .threadMain ∧ g ≠ .boot ∧ g ≠ .cpuIntrMain := by
  have hc := h.code
  rw [hcode] at hc
  have hasks := hc.1.2.2
  refine ⟨?_,?_,?_⟩ <;> rintro rfl <;> exact hasks

theorem called {g : Fn} {eflags cap : Bool} (h : spec.Pre g ⟨level,intr,eflags,cap,boot⟩) :
    Typed boot level intr ⟨g,level,intr,false,g.body⟩ := by
  have hpre : spec.Pre g ⟨level,intr,false,intr,boot⟩ := by
    obtain ⟨hlt,hboot,hasks⟩ := h
    refine ⟨hlt,hboot,?_⟩
    cases g <;> exact hasks
  have hcode := body_keeps hpre
  cases g with
  | timerFn => exact ⟨hpre.2.2,id,by simp,hpre.1⟩
  | threadMain => exact hpre.2.2.elim
  | cpuIntrMain => exact hpre.2.2.elim
  | boot => exact hpre.2.2.elim
  | _ => exact ⟨hcode,id,by simp,hpre.1⟩

theorem interrupted (hlt : level < 2 ^ 32) :
    Typed false level false ⟨.cpuIntrMain,level,true,false,Fn.body .cpuIntrMain⟩ := by
  refine ⟨?_,by simp,by simp,hlt⟩
  exact wps_mono (fun l hl => hl.1) (cpuIntrMain_keeps hlt rfl rfl)

theorem returned (h : f.Typed boot level intr) (hcode : f.code = []) (huser : f.fn.isUser = false) :
    level = f.callLevel ∧ (f.fn ≠ .cpuIntrMain → intr = f.callIntr) := by
  obtain ⟨hc,-,-,-⟩ := h
  rw [hcode] at hc
  obtain ⟨fn,callLevel,callIntr,eflags,code⟩ := f
  cases fn with
  | threadMain => cases huser
  | timerFn => cases huser
  | boot => cases huser
  | cpuIntrMain => exact ⟨hc,fun hne => absurd rfl hne⟩
  | _ => exact ⟨hc.1,fun _ => hc.2⟩

end Frame.Typed

/-! ## Stacks -/

/-- A stack that runs with this level and this flag. The last frame is that of the thread. -/
inductive Stacked (boot : Bool) : ℕ → Bool → List Frame → Prop where
  | last {level : ℕ} {intr : Bool} {f : Frame} : f.Typed boot level intr →
      f.fn = (if boot then .boot else .threadMain) → Stacked boot level intr [f]
  | cons {level : ℕ} {intr : Bool} {f : Frame} {fs : List Frame} : f.Typed boot level intr →
      f.fn ≠ .threadMain → f.fn ≠ .boot → (f.fn = .cpuIntrMain → f.callIntr = true) →
      Stacked boot f.callLevel f.callIntr fs → Stacked boot level intr (f :: fs)

namespace Stacked

theorem typed (h : Stacked boot level intr (f :: fs)) : f.Typed boot level intr := by
  cases h with
  | last hf _ => exact hf
  | cons hf _ _ _ _ => exact hf

theorem fit (h : Stacked boot level intr fs) : level < 2 ^ 32 := by
  cases h with
  | last hf _ => exact hf.fit
  | cons hf _ _ _ _ => exact hf.fit

theorem replace {level' : ℕ} {intr' : Bool} {f' : Frame} (h : Stacked boot level intr (f :: fs))
    (hf : f'.Typed boot level' intr') (hfn : f'.fn = f.fn) (hlevel : f'.callLevel = f.callLevel)
    (hintr : f'.callIntr = f.callIntr) : Stacked boot level' intr' (f' :: fs) := by
  cases h with
  | last _ hlast => exact .last hf (hfn.trans hlast)
  | cons _ hmain hboot hint hfs =>
    rw [← hlevel,← hintr] at hfs
    rw [← hfn] at hmain hboot hint
    rw [← hintr] at hint
    exact .cons hf hmain hboot hint hfs

theorem call {g : Fn} {k : List Code} (h : Stacked boot level intr (f :: fs))
    (hcode : f.code = .call g :: k) :
    Stacked boot level intr (⟨g,level,intr,false,g.body⟩ :: { f with code := k } :: fs) := by
  have hf := h.typed
  have hc := hf.code
  rw [hcode] at hc
  obtain ⟨hpre,hk⟩ := hc
  obtain ⟨hmain,hboot,hintr⟩ := hf.callee hcode
  refine .cons (.called hpre) hmain hboot (fun hg => absurd hg hintr) ?_
  exact h.replace ⟨hk,hf.intr,hf.eflags,hf.fit⟩ rfl rfl rfl

theorem ret (h : Stacked boot level intr (f :: fs)) (hmain : f.fn ≠ .threadMain) (hboot : f.fn ≠ .boot) :
    Stacked boot f.callLevel f.callIntr fs := by
  cases h with
  | last _ hlast => cases boot <;> simp_all
  | cons _ _ _ _ hfs => exact hfs

theorem boot_eq (h : Stacked boot level intr (f :: fs)) (hboot : f.fn = .boot) : boot = true := by
  cases h with
  | last _ hlast => cases boot <;> simp_all
  | cons _ _ hne _ _ => exact absurd hboot hne

theorem user {p : Code} (h : Stacked boot level intr (f :: fs)) (hcode : f.code = [])
    (huser : f.fn.isUser = true) (hp : UserCode ⟨level,intr,f.eflags,f.cap,boot⟩ f.fn p) :
    Stacked boot level intr ({ f with code := [p] } :: fs) := by
  obtain ⟨hc,hintr,heflags,hfit⟩ := h.typed
  rw [hcode] at hc
  have hpost : f.Post ⟨level,intr,f.eflags,f.cap,boot⟩ := hc
  have hnot (hfn : f.fn ≠ .boot) : boot = false := (Frame.post_user huser hfn).1 hpost
  have hlevel : boot = true → level ≠ 0 := by
    intro hb
    by_cases hfn : f.fn = .boot
    · simpa [Frame.Post,hfn] using hpost
    · simp [hnot hfn] at hb
  suffices hwp : wps spec [p] f.Post ⟨level,intr,f.eflags,f.cap,boot⟩ from
    h.replace ⟨hwp,hintr,heflags,hfit⟩ rfl rfl rfl
  generalize hfn : f.fn = fn at hp
  cases hp with
  | call _ hasks => exact wp_call hfit hlevel hasks hpost
  | disable hne =>
    rw [← hfn] at hne
    exact wp_preemptDisable hfit fun _ => (Frame.post_user huser hne).2 (hnot hne)
  | enable hne =>
    rw [← hfn] at hne
    cases level with
    | zero => exact wp_act trivial fun _ hl => by simp [Act.effect] at hl
    | succ n =>
      exact wp_threadPreemptEnable rfl hfit (by simp [hnot hne])
        ((Frame.post_user huser hne).2 (hnot hne))
  | intrDisable hne =>
    rw [← hfn] at hne
    refine wp_act trivial fun l hl => ?_
    cases hl
    exact (Frame.post_user huser hne).2 (hnot hne)
  | intrEnable hne hcap =>
    rw [← hfn] at hne
    refine wp_act hcap fun l hl => ?_
    cases hl
    exact (Frame.post_user huser hne).2 (hnot hne)
  | enableScheduler => exact wp_act (h.boot_eq hfn) fun _ hl => by simp [Act.effect] at hl

/-- Interrupts are on only where no interrupt is being served, and not while booting. -/
theorem outside (h : Stacked boot level true fs) : boot = false ∧ ∀ f ∈ fs, f.fn ≠ .cpuIntrMain := by
  generalize hi : true = intr at h
  induction h with
  | @last level intr f hf hlast =>
    have hcap := hf.intr hi.symm
    cases boot with
    | true => simp_all [Frame.cap]
    | false => simp_all
  | @cons level intr f fs hf hmain hboot _ _ ih =>
    have hcap := hf.intr hi.symm
    have hfn : f.fn ≠ .cpuIntrMain := fun hfn => by simp [Frame.cap,hfn] at hcap
    have hcall : f.callIntr = true := by
      unfold Frame.cap at hcap
      split at hcap
      · exact absurd ‹_› hmain
      · cases hcap
      · cases hcap
      · exact hcap
    obtain ⟨hnot,hrest⟩ := ih hcall.symm
    exact ⟨hnot,List.forall_mem_cons.2 ⟨hfn,hrest⟩⟩

/-- The frames of `cpu_intr_main` on a stack. -/
theorem interrupts_le_one (h : Stacked boot level intr fs) : fs.countP (·.fn = .cpuIntrMain) ≤ 1 := by
  induction h with
  | last hf _ => exact (List.countP_le_length).trans le_rfl
  | @cons level intr f fs hf _ _ hint hfs ih =>
    by_cases hfn : f.fn = .cpuIntrMain
    · rw [hint hfn] at hfs
      have hnone : fs.countP (·.fn = .cpuIntrMain) = 0 := by
        simpa [List.countP_eq_zero] using hfs.outside.2
      simp [hfn,hnone]
    · simpa [List.countP_cons,hfn] using ih

end Stacked

/-! ## States -/

/-- A thread that does not run. -/
structure Parked (th : Thread) : Prop where
  level : th.level = 1
  saved : th.saved = false
  stack : Stacked false 1 false th.stack

theorem parked_forged : Parked forged :=
  ⟨rfl,rfl,.last ⟨threadMain_runs,by simp,by simp,by norm_num⟩ rfl⟩

variable {T : Type} [DecidableEq T] {s s' : State T}

/-- The dummy thread that boots is not one of those that have been created. -/
structure Inv (s : State T) : Prop where
  current : Stacked s.booting s.self.level s.intr s.self.stack
  others : ∀ t, s.live t = true → t ≠ s.current → Parked (s.thread t)
  dummy : s.booting = true → s.live s.current = false

omit [DecidableEq T] in
theorem Inv.typed (h : Inv s) (hs : s.self.stack = f :: fs) : f.Typed s.booting s.self.level s.intr := by
  have hst := h.current
  rw [hs] at hst
  exact hst.typed

/-! ## Steps inside of a thread -/

namespace State

@[simp] theorem self_setStack (fs : List Frame) :
    (s.setStack fs).self = ⟨s.self.level,s.self.saved,s.self.state,fs⟩ := by
  simp [self,setStack,modify]

theorem thread_setStack {t : T} (fs : List Frame) (h : t ≠ s.current) :
    (s.setStack fs).thread t = s.thread t := Function.update_of_ne h _ _

theorem push_setStack (fs : List Frame) (g : Fn) :
    (s.setStack fs).push g = s.setStack (⟨g,s.self.level,s.intr,false,g.body⟩ :: fs) := by
  simp [push,setStack,modify,self]

end State

theorem Inv.setStack (h : Inv s) (hst : Stacked s.booting s.self.level intr fs) :
    Inv { s.setStack fs with intr := intr } := by
  refine ⟨?_,fun t hlive ht => ?_,h.dummy⟩
  · change Stacked s.booting (s.setStack fs).self.level intr (s.setStack fs).self.stack
    simpa using hst
  · change Parked ((s.setStack fs).thread t)
    have ht : t ≠ s.current := ht
    rw [State.thread_setStack fs ht]
    exact h.others t hlive ht

theorem Inv.call {g : Fn} {k : List Code} (h : Inv s) (hs : s.self.stack = f :: fs)
    (hcode : f.code = .call g :: k) : Inv ((s.setStack ({ f with code := k } :: fs)).push g) := by
  rw [State.push_setStack]
  have hst := h.current
  rw [hs] at hst
  exact h.setStack (hst.call hcode)

theorem Inv.ret (h : Inv s) (hs : s.self.stack = f :: fs) (hcode : f.code = [])
    (hmain : f.fn ≠ .threadMain) (hboot : f.fn ≠ .boot)
    (htimer : f.fn = .timerFn → s.self.level = f.callLevel ∧ s.intr = f.callIntr) :
    Inv { s.setStack fs with intr := if f.fn = .cpuIntrMain then f.callIntr else s.intr } := by
  have hst := h.current
  rw [hs] at hst
  have hback : s.self.level = f.callLevel ∧ (f.fn ≠ .cpuIntrMain → s.intr = f.callIntr) := by
    by_cases hfn : f.fn = .timerFn
    · exact ⟨(htimer hfn).1,fun _ => (htimer hfn).2⟩
    · refine hst.typed.returned hcode ?_
      cases hf : f.fn <;> simp_all [Fn.isUser]
  have hintr : (if f.fn = .cpuIntrMain then f.callIntr else s.intr) = f.callIntr := by
    split
    · rfl
    · exact hback.2 ‹_›
  rw [hintr]
  refine h.setStack ?_
  rw [hback.1]
  exact hst.ret hmain hboot

theorem Inv.interrupt (h : Inv s) (hintr : s.intr = true) :
    Inv { s.push .cpuIntrMain with intr := false } := by
  have hst := h.current
  rw [hintr] at hst
  have hnot := hst.outside.1
  refine h.setStack ?_
  rw [hnot] at hst ⊢
  rw [hintr]
  exact .cons (.interrupted hst.fit) (by simp) (by simp) (fun _ => rfl) hst

/-! ## Actions -/

/-- What an action changes when the thread keeps the processor. -/
structure Stays (s s' : State T) (f : Frame) (fs : List Frame) (l : Local) : Prop where
  current : s'.current = s.current
  booting : s'.booting = s.booting
  level : s'.self.level = l.level
  intr : s'.intr = l.intr
  stack : s'.self.stack = { f with eflags := l.eflags } :: fs
  others : ∀ t, t ≠ s.current →
    s'.thread t = forged ∨ (s'.live t = true → s.live t = true) ∧
      (s'.thread t).level = (s.thread t).level ∧
      (s'.thread t).saved = (s.thread t).saved ∧ (s'.thread t).stack = (s.thread t).stack
  dummy : s.live s.current = false → s'.live s.current = false

variable {a : Act} {t : T}

omit [DecidableEq T] in
theorem Stays.same (hs : s.self.stack = f :: fs) : Stays s s f fs (s.view f) :=
  ⟨rfl,rfl,rfl,rfl,hs,fun _ _ => .inr ⟨id,rfl,rfl,rfl⟩,id⟩

theorem Stays.setState {state : ThreadState} (hs : s.self.stack = f :: fs) :
    Stays s (s.setState t state) f fs (s.view f) := by
  have hkeep (u : T) : ((s.setState t state).thread u).level = (s.thread u).level ∧
      ((s.setState t state).thread u).saved = (s.thread u).saved ∧
      ((s.setState t state).thread u).stack = (s.thread u).stack := by
    by_cases hu : u = t
    · subst hu
      simp [State.setState,State.modify]
    · simp [State.setState,State.modify,hu]
  obtain ⟨hlevel,-,hstack⟩ := hkeep s.current
  exact ⟨rfl,rfl,hlevel,rfl,hstack.trans hs,fun u _ => .inr ⟨id,hkeep u⟩,id⟩

theorem Stays.setLevel {n : ℕ} (hs : s.self.stack = f :: fs) :
    Stays s (s.setLevel n) f fs { s.view f with level := n } := by
  refine ⟨rfl,rfl,?_,rfl,?_,fun u hu => .inr ⟨id,?_⟩,id⟩
  · simp [State.setLevel,State.modify,State.self]
  · simpa [State.setLevel,State.modify,State.self,State.view] using hs
  · simp [State.setLevel,State.modify,hu]

omit [DecidableEq T] in
theorem Stays.setIntr {b : Bool} (hs : s.self.stack = f :: fs) :
    Stays s { s with intr := b } f fs { s.view f with intr := b } :=
  ⟨rfl,rfl,rfl,rfl,hs,fun _ _ => .inr ⟨id,rfl,rfl,rfl⟩,id⟩

theorem Stays.intrSave (hs : s.self.stack = f :: fs) :
    Stays s { s.setEflags s.intr with intr := false } f fs
    { s.view f with eflags := s.intr, intr := false } := by
  simp only [State.setEflags,hs]
  refine ⟨rfl,rfl,?_,rfl,?_,fun u hu => .inr ⟨id,?_⟩,id⟩
  · simp [State.setStack,State.modify,State.self,State.view]
  · simp [State.setStack,State.modify,State.self]
  · simp [State.setStack,State.modify,hu]

theorem Stays.threadInit (hs : s.self.stack = f :: fs) (ht : t ≠ s.current) :
    Stays s { s with thread := Function.update s.thread t forged, live := Function.update s.live t true } f fs
      (s.view f) := by
  have hself : Function.update s.thread t forged s.current = s.self := Function.update_of_ne ht.symm _ _
  refine ⟨rfl,rfl,congrArg Thread.level hself,rfl,?_,fun u hu => ?_,fun hdummy => ?_⟩
  · exact (congrArg Thread.stack hself).trans hs
  · by_cases hut : u = t
    · subst hut
      simp
    · simp [Function.update_of_ne hut]
  · simpa [Function.update_of_ne ht.symm] using hdummy

theorem Stays.destroy (hs : s.self.stack = f :: fs) :
    Stays s { s with live := Function.update s.live t false } f fs (s.view f) := by
  refine ⟨rfl,rfl,rfl,rfl,hs,fun u hu => .inr ⟨fun hlive => ?_,rfl,rfl,rfl⟩,fun hdummy => ?_⟩
  · by_cases hut : u = t
    · subst hut
      simp at hlive
    · simpa [Function.update_of_ne hut] using hlive
  · by_cases hut : s.current = t
    · simp [hut]
    · simpa [Function.update_of_ne hut] using hdummy

omit [DecidableEq T] in
theorem assert_bind {fault : Fault} {b : Bool} {x : Except Fault (State T)} :
    (assert fault b >>= fun _ => x) = .ok s' ↔ b = true ∧ x = .ok s' := by
  cases b <;> simp [assert,bind,Except.bind]

/-- An action of the running frame `f`: it does to the thread what it does to the frame, or it leaves the
processor to another thread. -/
theorem exec_cases (hs : s.self.stack = f :: fs) (hnew : a = .threadInit → t ≠ s.current)
    (h : exec s t a = .ok s') :
    (∃ l, a.effect (s.view f) = some l ∧ Stays s s' f fs l) ∨
    (a = .runqSchedule ∧ t ≠ s.current ∧ s' = threadSwitchContext s t) ∨
    (a = .enableScheduler ∧ s' = { s with current := t, intr := (s.thread t).saved, booting := false }) := by
  have heflags : s.eflags = f.eflags := by simp [State.eflags,hs]
  cases a with
  | preemptDisable =>
    obtain ⟨hne,h⟩ := assert_bind.1 h
    cases h
    have hne : (s.self.level + 1) % 2 ^ 32 ≠ 0 := of_decide_eq_true hne
    exact .inl ⟨_,if_neg hne,.setLevel hs⟩
  | preemptEnableNoYield =>
    obtain ⟨hne,h⟩ := assert_bind.1 h
    cases h
    have hne : s.self.level ≠ 0 := of_decide_eq_true hne
    exact .inl ⟨_,if_neg hne,.setLevel hs⟩
  | intrSave => cases h; exact .inl ⟨_,rfl,.intrSave hs⟩
  | intrRestore =>
    cases h
    rw [heflags]
    exact .inl ⟨_,rfl,.setIntr hs⟩
  | intrEnable | intrDisable => cases h; exact .inl ⟨_,rfl,.setIntr hs⟩
  | assertIntrDisabled =>
    obtain ⟨hoff,h⟩ := assert_bind.1 h
    cases h
    have hoff : ¬(s.view f).intr = true := by simpa [State.view] using hoff
    exact .inl ⟨_,if_neg hoff,.same hs⟩
  | assertPreemptEnabled =>
    obtain ⟨hzero,h⟩ := assert_bind.1 h
    cases h
    exact .inl ⟨_,if_pos (of_decide_eq_true hzero),.same hs⟩
  | assertMain =>
    obtain ⟨-,h⟩ := assert_bind.1 h
    obtain ⟨-,h⟩ := assert_bind.1 h
    cases h
    exact .inl ⟨_,rfl,.same hs⟩
  | assertRunning | assertDead | runqAdd =>
    obtain ⟨-,h⟩ := assert_bind.1 h
    cases h
    exact .inl ⟨_,rfl,.same hs⟩
  | setSleeping | setDead => cases h; exact .inl ⟨_,rfl,.setState hs⟩
  | setRunning =>
    obtain ⟨-,h⟩ := assert_bind.1 h
    cases h
    exact .inl ⟨_,rfl,.setState hs⟩
  | runqSchedule =>
    obtain ⟨-,h⟩ := assert_bind.1 h
    obtain ⟨-,h⟩ := assert_bind.1 h
    cases h
    by_cases ht : t = s.current
    · rw [if_pos ht]
      exact .inl ⟨_,rfl,.same hs⟩
    · rw [if_neg ht]
      exact .inr (.inl ⟨rfl,ht,rfl⟩)
  | threadInit => cases h; exact .inl ⟨_,rfl,.threadInit hs (hnew rfl)⟩
  | destroy => cases h; exact .inl ⟨_,rfl,.destroy hs⟩
  | enableScheduler =>
    obtain ⟨-,h⟩ := assert_bind.1 h
    cases h
    exact .inr (.inr ⟨rfl,rfl⟩)
  | panic => cases h

/-- The same of an action that has just been taken from its frame. -/
theorem exec_popped {k : List Code} (hpick : a.Picks s t)
    (h : exec (s.setStack ({ f with code := k } :: fs)) t a = .ok s') :
    (∃ l, a.effect (s.view f) = some l ∧
      Stays (s.setStack ({ f with code := k } :: fs)) s' { f with code := k } fs l) ∨
    (a = .runqSchedule ∧ t ≠ s.current ∧
      s' = threadSwitchContext (s.setStack ({ f with code := k } :: fs)) t) ∨
    (a = .enableScheduler ∧
      s' = { s.setStack ({ f with code := k } :: fs) with current := t, intr :=
      ((s.setStack ({ f with code := k } :: fs)).thread t).saved, booting := false }) := by
  have hstack : (s.setStack ({ f with code := k } :: fs)).self.stack = { f with code := k } ::
      fs := by simp
  have hview : (s.setStack ({ f with code := k } :: fs)).view { f with code := k } = s.view f := by
    simp [State.view,Frame.cap,State.setStack,State.modify,State.self]
  have hnew : a = .threadInit → t ≠ s.current := by
    rintro rfl
    exact hpick.2
  rw [← hview]
  exact exec_cases hstack hnew h

theorem Inv.stays {k : List Code} {l : Local} (h : Inv s) (hs : s.self.stack = f :: fs)
    (hcode : f.code = .act a :: k) (he : a.effect (s.view f) = some l)
    (hstays : Stays (s.setStack ({ f with code := k } :: fs)) s' { f with code := k } fs l) :
    Inv s' := by
  have hst := h.current
  rw [hs] at hst
  refine ⟨?_,fun t hlive ht => ?_,fun hboot => ?_⟩
  · rw [hstays.booting,hstays.level,hstays.intr,hstays.stack]
    exact hst.replace (hst.typed.act hcode he) rfl rfl rfl
  · rw [hstays.current] at ht
    have ht : t ≠ s.current := ht
    rcases hstays.others t ht with hnew | ⟨hold,hlevel,hsaved,hstack⟩
    · rw [hnew]
      exact parked_forged
    · rw [State.thread_setStack _ ht] at hlevel hsaved hstack
      have hparked := h.others t (hold hlive) ht
      exact ⟨hlevel.trans hparked.level,hsaved.trans hparked.saved,hstack ▸ hparked.stack⟩
  · rw [hstays.booting] at hboot
    rw [hstays.current]
    exact hstays.dummy (h.dummy hboot)

theorem switch_other {u : T} (hu : u ≠ s.current) : (threadSwitchContext s t).thread u = s.thread u :=
  Function.update_of_ne hu _ _

theorem switch_current :
    (threadSwitchContext s t).thread s.current = ⟨s.self.level,s.intr,s.self.state,s.self.stack⟩ :=
  Function.update_self _ _ _

theorem switch_stack {u : T} : ((threadSwitchContext s t).thread u).stack = (s.thread u).stack := by
  by_cases hu : u = s.current
  · rw [hu,switch_current]
    rfl
  · rw [switch_other hu]

/-- The thread that is switched to runs with level 1 and interrupts off, and so did the one that is left. -/
theorem Inv.switch (h : Inv s) (hoff : s.intr = false) (hone : s.self.level = 1)
    (hnot : s.booting = false) (ht : t ≠ s.current) (hlive : s.live t = true) :
    Inv (threadSwitchContext s t) := by
  have hnext := h.others t hlive ht
  refine ⟨?_,fun u hu hne => ?_,fun hboot => ?_⟩
  · change Stacked s.booting ((threadSwitchContext s t).thread t).level
      ((threadSwitchContext s t).thread t).saved
      ((threadSwitchContext s t).thread t).stack
    rw [switch_other ht,hnext.level,hnext.saved,hnot]
    exact hnext.stack
  · by_cases huc : u = s.current
    · rw [huc,switch_current]
      have hst := h.current
      rw [hnot,hone,hoff] at hst
      exact ⟨hone,hoff,hst⟩
    · rw [switch_other huc]
      exact h.others u hu huc
  · have hbooting : s.booting = true := hboot
    rw [hnot] at hbooting
    cases hbooting

/-- `thread_enable_scheduler` leaves the dummy thread for good. -/
theorem Inv.enableScheduler (h : Inv s) (hboot : s.booting = true) (hlive : s.live t = true) : Inv
    { s.setStack fs with current := t, intr := ((s.setStack fs).thread t).saved, booting := false } := by
  have hdummy := h.dummy hboot
  have hother {u : T} (hu : s.live u = true) : u ≠ s.current := by
    rintro rfl
    rw [hdummy] at hu
    cases hu
  have hnext := h.others t hlive (hother hlive)
  refine ⟨?_,fun u hu hne => ?_,by simp⟩
  · change Stacked false ((s.setStack fs).thread t).level ((s.setStack fs).thread t).saved
      ((s.setStack fs).thread t).stack
    rw [State.thread_setStack fs (hother hlive),hnext.level,hnext.saved]
    exact hnext.stack
  · change Parked ((s.setStack fs).thread u)
    rw [State.thread_setStack fs (hother hu)]
    exact h.others u hu (hother hu)

/-! ## All steps -/

theorem Inv.step (h : Inv s) (hstep : Step s s') : Inv s' := by
  have hst := h.current
  cases hstep with
  | unfold hs hu =>
    rw [hs] at hst
    exact h.setStack (hst.replace (hst.typed.unfold hu) rfl rfl rfl)
  | @act _ f fs a k t hs hcode hpick hexec =>
    rcases exec_popped hpick hexec with ⟨l,he,hstays⟩ | ⟨rfl,ht,rfl⟩ | ⟨rfl,rfl⟩
    · exact h.stays hs hcode he hstays
    · rw [hs] at hst
      obtain ⟨hoff,hone,hnot⟩ := hst.typed.safe hcode
      have hkept : Inv (s.setStack ({ f with code := k } :: fs)) :=
        h.setStack (hst.replace (hst.typed.act hcode rfl) rfl rfl rfl)
      exact hkept.switch hoff (by simpa using hone) hnot ht hpick.1
    · rw [hs] at hst
      exact h.enableScheduler (hst.typed.safe hcode) hpick.1
  | call hs hcode => exact h.call hs hcode
  | ret hs hcode hmain hboot htimer => exact h.ret hs hcode hmain hboot htimer
  | user p hs hcode huser hp =>
    rw [hs] at hst
    exact h.setStack (hst.user hcode huser hp)
  | interrupt hintr => exact h.interrupt hintr

omit [DecidableEq T] in
theorem Inv.init (h : Initial s) : Inv s := by
  obtain ⟨⟨hlevel,hstack,hdummy⟩,hintr,hboot,-,hforged⟩ := h
  refine ⟨?_,fun t hlive _ => ?_,fun _ => hdummy⟩
  · rw [hlevel,hstack,hintr,hboot]
    exact .last ⟨Nat.one_ne_zero,by simp,by simp,by norm_num⟩ rfl
  · rw [hforged t hlive]
    exact parked_forged

theorem Reachable.inv (h : Reachable s) : Inv s := by
  induction h with
  | init h => exact .init h
  | step _ hstep ih => exact ih.step hstep

end X1.Kernel
