import X1.Sched.Contract

/-! # The shape of the stacks

A stack holds the thread's own calls, then calls of `thread_preempt_enable` and
`thread_yield`, and interrupts with the same two calls on top. Along the stack goes the
reason why a more urgent thread that waits is noticed before one of these calls
returns with preemption enabled: either the rest of a frame above it comes to a
dispatch, or the call returns at another level.
-/
namespace X1.Sched
open X1.Checked

/-! ## Control: what an instruction does to the stack and the interrupt flag -/

/-- The stack of the current thread and the interrupt flag after an instruction that neither switches
nor creates a thread; `g` is the running frame without the instruction. -/
def control (s : State) (g : Frame) (fs : List Frame) : Instr → List Frame × Bool
  | .yieldIfNeeded =>
    (if s.self.yield then ⟨.yield,s.intr,false,Fn.code .yield⟩ :: g :: fs else g :: fs,s.intr)
  | .yieldTest => (if threadPreemptEnabled s then g :: fs else { g with code := [] } :: fs,s.intr)
  | .wakeupTest t =>
    (if t = none ∨ t = some s.current then { g with code := [] } :: fs else g :: fs,s.intr)
  | .joinLoop t =>
    (if threadIsDead (s.thread t) then g :: fs
      else { g with code := .call .sleep :: .joinLoop t :: g.code } :: fs,s.intr)
  | .intrSave => ({ g with eflags := s.intr } :: fs,false)
  | .intrRestore => (g :: fs,g.eflags)
  | .intrEnable => (g :: fs,true)
  | .intrDisable => (g :: fs,false)
  | .iret => (fs,true)
  | .call fn => (⟨fn,s.intr,false,fn.code⟩ :: g :: fs,s.intr)
  | _ => (g :: fs,s.intr)

def levelAfter (l : ℕ) : Instr → ℕ
  | .preemptDisable => l + 1
  | .preemptEnableNoYield => l - 1
  | _ => l

/-- The effect of an instruction on the control state. Only a wake-up can make a more urgent thread
wait. -/
structure Controlled (s s' : State) (g : Frame) (fs : List Frame) (i : Instr) : Prop where
  current : s'.current = s.current
  stack : s'.stack = Function.update s.stack s.current (control s g fs i).1
  intr : s'.intr = (control s g fs i).2
  level : s'.self.preemptLevel = levelAfter s.self.preemptLevel i
  others : ∀ t, t ≠ s.current → (s'.thread t).preemptLevel = (s.thread t).preemptLevel
  higher : (∀ t, i ≠ .wakeupLocked t) → (HigherWaiting s' → HigherWaiting s)
  grows : Grows s s'
  rouses : ∀ u, (s'.thread u).state = (s.thread u).state ∨
    (s.thread u).state = .sleeping ∧ (s'.thread u).state = .running
  joiner : ∀ u, (s'.thread u).joiner = if i = .joinSet u then some s.current else (s.thread u).joiner

theorem update_stack_self {s : State} {g : Frame} {fs : List Frame} (h : s.stack s.current = g :: fs) :
    Function.update s.stack s.current (g :: fs) = s.stack := by
  rw [← h,Function.update_eq_self]

/-- Instructions that leave the state alone, but for the frame and the interrupt flag. -/
theorem controlled_same {s s' : State} {g : Frame} {fs : List Frame} {i : Instr} (hq : Quiet s s')
    (hth : s'.thread = s.thread)
    (hstack : s'.stack = Function.update s.stack s.current (control s g fs i).1)
    (hintr : s'.intr = (control s g fs i).2) (hl : ∀ l, levelAfter l i = l)
    (hset : ∀ u, i ≠ .joinSet u) : Controlled s s' g fs i :=
  ⟨hq.current,hstack,hintr,by rw [State.self,hth,hq.current,hl]; rfl,fun _ _ => by rw [hth],
    fun _ => hq.higherWaiting.mp,hq.grows,fun u => .inl (hq.state u),fun u => by
      rw [hth,if_neg (hset u)]⟩

theorem quiet_setLevel (s : State) (level : ℕ) : Quiet s (threadSetLevel s level) :=
  quiet_modify s s.current (fun _ => rfl) fun _ => rfl

theorem controlled_setLevel {s : State} {g : Frame} {fs : List Frame} {i : Instr} {level : ℕ}
    (h : s.stack s.current = g :: fs) (hcontrol : control s g fs i = (g :: fs,s.intr))
    (hlevel : level = levelAfter s.self.preemptLevel i) (hset : ∀ u, i ≠ .joinSet u) :
    Controlled s (threadSetLevel s level) g fs i := by
  have hq := quiet_setLevel s level
  refine ⟨rfl,?_,?_,?_,fun t ht => ?_,fun _ => hq.higherWaiting.mp,hq.grows,
    fun u => .inl (hq.state u),fun u => ?_⟩
  · rw [hcontrol]
    exact (update_stack_self h).symm
  · rw [hcontrol]
    rfl
  · rwa [setLevel_self]
  · simp [setLevel_thread,ht]
  · simp [setLevel_thread,hset u]

theorem top_eq {s : State} {g : Frame} {fs : List Frame} (h : s.stack s.current = g :: fs)
    (φ : Frame → Frame) : s.top φ = s.setStack (φ g :: fs) := by
  unfold State.top
  rw [h]

/-- The inversion of `exec` as far as control goes. -/
theorem Fetched.controlled {s s' : State} {i : Instr} {g : Frame} {fs : List Frame}
    (h : Fetched s i g fs) (hsw : ¬i.Switches) (hcr : ∀ p, i ≠ .createLocked p)
    (hexec : Sched.exec s i = .ok s') : Controlled s s' g fs i := by
  have hsame : s.stack = Function.update s.stack s.current (g :: fs) := (update_stack_self h.stack).symm
  cases i with
  | preemptDisable =>
    obtain ⟨-,rfl⟩ := (preemptDisable_spec (h.sound.level_lt _)).of_ok hexec
    exact controlled_setLevel h.stack rfl rfl (by simp)
  | preemptEnableNoYield =>
    obtain ⟨-,rfl⟩ := (preemptEnableNoYield_spec s).of_ok hexec
    exact controlled_setLevel h.stack rfl rfl (by simp)
  | yieldIfNeeded =>
    cases hexec
    by_cases hy : s.self.yield = true
    · simp only [hy,↓reduceIte]
      refine controlled_same (quiet_setStack s _) rfl ?_ rfl (fun _ => rfl) (by simp)
      simp [control,hy,State.push,State.setStack,h.stack]
    · simp only [hy]
      refine controlled_same (quiet_refl s) rfl ?_ rfl (fun _ => rfl) (by simp)
      simpa [control,hy] using hsame
  | yieldTest =>
    cases hexec
    by_cases hp : threadPreemptEnabled s = true
    · simp only [hp,↓reduceIte]
      refine controlled_same (quiet_refl s) rfl ?_ rfl (fun _ => rfl) (by simp)
      simpa [control,hp] using hsame
    · simp only [hp,top_eq h.stack]
      refine controlled_same (quiet_setStack s _) rfl ?_ rfl (fun _ => rfl) (by simp)
      simp [control,hp,State.setStack]
  | yieldSwitch | sleepSwitch | exitSwitch => exact absurd trivial hsw
  | assertRunning | exitTest | destroy =>
    obtain ⟨-,hs'⟩ := assert_ok hexec
    cases hs'
    exact controlled_same (quiet_refl s) rfl hsame rfl (fun _ => rfl) (by simp)
  | wakeupTest t =>
    cases hexec
    by_cases ht : t = none ∨ t = some s.current
    · simp only [ht,↓reduceIte,top_eq h.stack]
      refine controlled_same (quiet_setStack s _) rfl ?_ rfl (fun _ => rfl) (by simp)
      simp [control,ht,State.setStack]
    · simp only [ht,↓reduceIte]
      refine controlled_same (quiet_refl s) rfl ?_ rfl (fun _ => rfl) (by simp)
      simpa [control,ht] using hsame
  | wakeupLocked t =>
    obtain ⟨-,hw,-⟩ := (h.sound.toCore.wakeupLocked h.allowed.2 (.inr h.sound.running)).of_ok hexec
    refine ⟨hw.current,hw.stack.trans hsame,hw.intr,?_,fun u _ => hw.level u,
      fun hn => absurd rfl (hn t),hw.grows,hw.rouses,fun u => by simp [hw.joiner]⟩
    rw [State.self,hw.level,hw.current]
    rfl
  | createLocked p => exact absurd rfl (hcr p)
  | deadWalking => cases hexec
  | joinSet t =>
    cases hexec
    have hq := quiet_modify s t (f := fun th => { th with joiner := some s.current }) (fun _ => rfl)
      fun _ => rfl
    have hlevel : ∀ u, ((s.modify t fun th => { th with joiner := some s.current }).thread
      u).preemptLevel =
        (s.thread u).preemptLevel := fun u => modify_member Thread.preemptLevel t u fun _ => rfl
    refine ⟨rfl,hsame,rfl,hlevel s.current,fun u _ => hlevel u,fun _ => hq.higherWaiting.mp,hq.grows,
      fun u => .inl (hq.state u),fun u => ?_⟩
    rw [modify_thread]
    by_cases hu : u = t
    · simp [hu]
    · simp [hu,Ne.symm hu]
  | joinLoop t =>
    cases hexec
    by_cases hd : threadIsDead (s.thread t) = true
    · simp only [hd,↓reduceIte]
      refine controlled_same (quiet_refl s) rfl ?_ rfl (fun _ => rfl) (by simp)
      simpa [control,hd] using hsame
    · simp only [hd,top_eq h.stack]
      refine controlled_same (quiet_setStack s _) rfl ?_ rfl (fun _ => rfl) (by simp)
      simp [control,hd,State.setStack]
  | mainTest =>
    obtain ⟨-,hexec⟩ := assert_ok hexec
    obtain ⟨-,hs'⟩ := assert_ok hexec
    cases hs'
    exact controlled_same (quiet_refl s) rfl hsame rfl (fun _ => rfl) (by simp)
  | intrSave =>
    cases hexec
    rw [top_eq h.stack]
    exact controlled_same ⟨rfl,rfl,rfl,rfl,rfl,rfl,fun _ => rfl,fun _ => rfl⟩ rfl rfl rfl
      (fun _ => rfl) (by simp)
  | intrRestore =>
    cases hexec
    refine controlled_same (quiet_intr s _) rfl hsame ?_ (fun _ => rfl) (by simp)
    simp [control,State.eflags,h.stack]
  | intrEnable | intrDisable =>
    cases hexec
    exact controlled_same (quiet_intr s _) rfl hsame rfl (fun _ => rfl) (by simp)
  | iret =>
    cases hexec
    refine controlled_same ⟨rfl,rfl,rfl,rfl,rfl,rfl,fun _ => rfl,fun _ => rfl⟩ rfl ?_ rfl
      (fun _ => rfl) (by simp)
    simp [control,State.setStack,h.stack]
  | call fn =>
    cases hexec
    refine controlled_same (quiet_setStack s _) rfl ?_ rfl (fun _ => rfl) (by simp)
    simp [control,State.push,State.setStack,h.stack]

/-! ## Shapes -/

/-- A frame of the thread's own code or of one of its calls. -/
def Frame.Calm (f : Frame) : Prop := f.fn ≠ .yield ∧ f.fn ≠ .preemptEnable ∧ f.fn ≠ .intr

/-- The calls that must not return with preemption enabled while a more urgent thread waits. -/
def Frame.Owes (f : Frame) : Prop := f.fn = .yield ∨ f.fn = .preemptEnable

/-- A `thread_yield` between saving and restoring the interrupt flag. -/
def Frame.Masked (f : Frame) : Prop :=
  f.code = [.yieldSwitch,.intrRestore,.preemptEnableNoYield] ∨
    f.code = [.intrRestore,.preemptEnableNoYield]

/-- The preemption level after the rest of a frame. -/
def after : List Instr → ℕ → ℕ
  | [], l => l
  | .preemptDisable :: k, l => after k (l + 1)
  | .preemptEnableNoYield :: k, l => after k (l - 1)
  | .call .preemptEnable :: k, l => after k (l - 1)
  | _ :: k, l => after k l

/-- The rest of a frame may come to its end without a dispatch, although the yield flag is set. -/
def Falls : List Instr → ℕ → Prop
  | [], _ => True
  | .preemptDisable :: k, l => Falls k (l + 1)
  | .preemptEnableNoYield :: k, l => Falls k (l - 1)
  | .call .preemptEnable :: k, l => l - 1 ≠ 0 ∧ Falls k (l - 1)
  | .yieldIfNeeded :: k, l => l ≠ 0 ∧ Falls k l
  | .yieldTest :: k, l => l ≠ 0 ∨ Falls k l
  | .yieldSwitch :: _, _ => False
  | _ :: k, l => Falls k l

/-- The interrupt flag `on` in a frame, and the flag `below` in the frame under it once this one is
done. -/
inductive Frame.Over (f : Frame) : Bool → Bool → Prop where
  | intr : f.fn = .intr → f.code = [.call .preemptEnable,.iret] ∨ f.code = [.iret] → Over f false true
  | enabling {on : Bool} : f.fn = .preemptEnable → f.code <:+ Fn.code .preemptEnable → Over f on on
  | yielding {on : Bool} : f.fn = .yield → f.code <:+ Fn.code .yield → ¬f.Masked → Over f on on
  | masked : f.fn = .yield → f.Masked → Over f false f.eflags

/-- The stack of a thread with the flag `on` at level `l`; `h` tells whether a more urgent thread waits.
Nothing is asked of the frames under one that comes to a dispatch. -/
inductive Shaped : Prop → List Frame → Bool → ℕ → Prop where
  | calm {h : Prop} {fs : List Frame} {on : Bool} {l : ℕ} : (∀ g ∈ fs, g.Calm) → Shaped h fs on l
  | call {h : Prop} {f : Frame} {fs : List Frame} {on below : Bool} {l : ℕ} : f.Over on below →
      (∀ g ∈ fs.head?, g.fn = .yield → f.fn = .intr) →
        (h → f.Owes → Falls f.code l → after f.code l ≠ 0) →
      Shaped (h ∧ Falls f.code l) fs below (after f.code l) → Shaped h (f :: fs) on l

theorem suffix_yield {k : List Instr} : k <:+ Fn.code .yield ↔
    k = [.yieldTest,.preemptDisable,.intrSave,.yieldSwitch,.intrRestore,.preemptEnableNoYield] ∨
    k = [.preemptDisable,.intrSave,.yieldSwitch,.intrRestore,.preemptEnableNoYield] ∨
    k = [.intrSave,.yieldSwitch,.intrRestore,.preemptEnableNoYield] ∨
    k = [.yieldSwitch,.intrRestore,.preemptEnableNoYield] ∨
    k = [.intrRestore,.preemptEnableNoYield] ∨ k = [.preemptEnableNoYield] ∨ k = [] := by
  simp [Fn.code,List.suffix_cons_iff]

theorem suffix_preemptEnable {k : List Instr} : k <:+ Fn.code .preemptEnable ↔
    k = [.preemptEnableNoYield,.yieldIfNeeded] ∨ k = [.yieldIfNeeded] ∨ k = [] := by
  simp [Fn.code,List.suffix_cons_iff]

namespace Shaped
variable {h p : Prop} {f : Frame} {fs : List Frame} {on : Bool} {l : ℕ}

/-- With no more urgent thread waiting there is less to ask. -/
theorem mono (hs : Shaped h fs on l) (hh : p → h) : Shaped p fs on l := by
  induction hs generalizing p with
  | calm hc => exact .calm hc
  | call hover hbelow howes _ ih =>
    exact .call hover hbelow (fun hw => howes (hh hw)) (ih fun hw => ⟨hh hw.1,hw.2⟩)

/-- A call of `thread_yield` from a frame that is not one itself. -/
theorem yieldCall {h : Prop} (hfs : ∀ g ∈ fs.head?, g.fn ≠ .yield) (hs : Shaped (h ∧ l ≠ 0) fs on l) :
    Shaped h (⟨.yield,on,false,Fn.code .yield⟩ :: fs) on l := by
  refine .call (.yielding rfl (List.suffix_refl _) (by simp [Frame.Masked,Fn.code]))
    (fun g hg hy => absurd hy (hfs g hg)) ?_ ?_
  · simp [Fn.code,Falls,after]
  · exact hs.mono (by simp [Fn.code,Falls])

theorem enableCall {h : Prop} {c : Bool} (hfs : ∀ g ∈ fs.head?, g.fn ≠ .yield)
    (hs : Shaped (h ∧ l - 1 ≠ 0) fs on (l - 1)) :
    Shaped h (⟨.preemptEnable,c,false,Fn.code .preemptEnable⟩ :: fs) on l := by
  refine .call (.enabling rfl (List.suffix_refl _)) (fun g hg hy => absurd hy (hfs g hg)) ?_ ?_
  · simp [Fn.code,Falls,after]
  · exact hs.mono (by simp [Fn.code,Falls])

theorem ret (hs : Shaped h (f :: fs) on l) (hcode : f.code = []) : Shaped h fs on l := by
  cases hs with
  | calm hc => exact .calm fun g hg => hc g (List.mem_cons_of_mem _ hg)
  | call hover _ _ hfs =>
    rw [hcode] at hfs
    have hfs' := hfs.mono (p := h) fun hw => ⟨hw,trivial⟩
    cases hover with
    | intr _ hk => simp [hcode] at hk
    | enabling _ _ => exact hfs'
    | yielding _ _ _ => exact hfs'
    | masked _ hk => simp [Frame.Masked,hcode] at hk

end Shaped

theorem calm_cons {f : Frame} {fs : List Frame} :
    (∀ g ∈ f :: fs, g.Calm) ↔ f.Calm ∧ ∀ g ∈ fs, g.Calm := by
  simp

theorem shaped_push {h : Prop} {fn : Fn} {on : Bool} {fs : List Frame} {l : ℕ} (hfn : fn ≠ .intr)
    (hfs : ∀ g ∈ fs, g.Calm) : Shaped h (⟨fn,on,false,fn.code⟩ :: fs) on l := by
  have hhead : ∀ g ∈ fs.head?, g.fn ≠ .yield := fun g hg => (hfs g (List.mem_of_mem_head? hg)).1
  by_cases hy : fn = .yield
  · subst hy
    exact .yieldCall hhead (.calm hfs)
  by_cases he : fn = .preemptEnable
  · subst he
    exact .enableCall hhead (.calm hfs)
  · exact .calm (calm_cons.mpr ⟨⟨hy,he,hfn⟩,hfs⟩)

theorem shaped_calm {h : Prop} {s : State} {g : Frame} {fs : List Frame} {i : Instr} {l : ℕ}
    (hc : ∀ g' ∈ g :: fs, g'.Calm) (hi : i ≠ .call .intr) :
    Shaped h (control s g fs i).1 (control s g fs i).2 l := by
  obtain ⟨hg,hfs⟩ := calm_cons.mp hc
  have hcut : ∀ k : List Instr, ∀ g' ∈ { g with code := k } :: fs, g'.Calm :=
    fun k => calm_cons.mpr ⟨hg,hfs⟩
  cases i with
  | yieldIfNeeded =>
    simp only [control]
    split
    · exact shaped_push (by simp) hc
    · exact .calm hc
  | yieldTest =>
    simp only [control]
    split
    · exact .calm hc
    · exact .calm (hcut _)
  | wakeupTest t =>
    simp only [control]
    split
    · exact .calm (hcut _)
    · exact .calm hc
  | joinLoop t =>
    simp only [control]
    split
    · exact .calm hc
    · exact .calm (hcut _)
  | intrSave => exact .calm (calm_cons.mpr ⟨hg,hfs⟩)
  | iret => exact .calm hfs
  | call fn => exact shaped_push (fun he => hi (by rw [he])) hc
  | _ => exact .calm hc

section Instructions
variable {h : Prop} {s : State} {g : Frame} {fs : List Frame} {i : Instr}

/-- `thread_preempt_enable`. A thread that waits has set the yield flag. -/
theorem shaped_enabling (hfn : g.fn = .preemptEnable) (hk : i :: g.code <:+ Fn.code .preemptEnable)
    (hhead : ∀ f ∈ fs.head?, f.fn ≠ .yield) (hflag : h → s.self.yield = true)
    (hfs : Shaped (h ∧ Falls (i :: g.code) s.self.preemptLevel) fs s.intr
      (after (i :: g.code) s.self.preemptLevel)) :
    Shaped h (control s g fs i).1 (control s g fs i).2 (levelAfter s.self.preemptLevel i) := by
  have hover : ∀ on, g.Over on on := fun on => .enabling hfn ((List.suffix_cons i g.code).trans hk)
  have hbelow : ∀ f ∈ fs.head?, f.fn = .yield → g.fn = .intr := fun f hf hy => absurd hy (hhead f hf)
  rcases suffix_preemptEnable.mp hk with hcode | hcode | hcode
  · obtain ⟨rfl,hrest⟩ := List.cons_eq_cons.mp hcode
    rw [hrest] at hfs
    exact .call (hover _) hbelow (by simp [hrest,Falls,after,levelAfter]) (by rw [hrest]; exact hfs)
  · obtain ⟨rfl,hrest⟩ := List.cons_eq_cons.mp hcode
    rw [hrest] at hfs
    have hnew : ∀ {h' : Prop}, (h' → h ∧ s.self.preemptLevel ≠ 0) →
        Shaped h' (g :: fs) s.intr s.self.preemptLevel := by
      intro h' hh
      refine .call (hover _) hbelow (fun hw _ _ => ?_) ?_
      · rw [hrest]
        exact (hh hw).2
      · rw [hrest]
        exact hfs.mono fun hw => ⟨(hh hw.1).1,(hh hw.1).2,trivial⟩
    by_cases hy : s.self.yield = true
    · simp only [control,hy,↓reduceIte]
      refine .yieldCall (fun f hf => ?_) (hnew id)
      obtain rfl : g = f := by simpa using hf
      simp [hfn]
    · simp only [control,hy]
      exact hnew fun hw => absurd (hflag hw) hy
  · cases hcode

theorem shaped_yielding {on below : Bool} (hfn : g.fn = .yield) (hne : i ≠ .yieldSwitch)
    (hon : s.intr = on) (hover : Frame.Over { g with code := i :: g.code } on below)
    (hhead : ∀ f ∈ fs.head?, f.fn ≠ .yield)
    (howes : h → Falls (i :: g.code) s.self.preemptLevel →
      after (i :: g.code) s.self.preemptLevel ≠ 0)
    (hfs : Shaped (h ∧ Falls (i :: g.code) s.self.preemptLevel) fs below
      (after (i :: g.code) s.self.preemptLevel)) :
    Shaped h (control s g fs i).1 (control s g fs i).2 (levelAfter s.self.preemptLevel i) := by
  have hbelow : ∀ f ∈ fs.head?, f.fn = .yield → g.fn = .intr := fun f hf hy => absurd hy (hhead f hf)
  cases hover with
  | intr hfn' _ => exact absurd (hfn.symm.trans hfn') (by simp)
  | enabling hfn' _ => exact absurd (hfn.symm.trans hfn') (by simp)
  | yielding _ hk hm =>
    subst hon
    have hsuffix : g.code <:+ Fn.code .yield := (List.suffix_cons i g.code).trans hk
    rcases suffix_yield.mp hk with hcode | hcode | hcode | hcode | hcode | hcode | hcode
    · obtain ⟨rfl,hrest⟩ := List.cons_eq_cons.mp hcode
      rw [hrest] at hfs
      by_cases hl : s.self.preemptLevel = 0
      · rw [hl] at hfs ⊢
        simp only [control,threadPreemptEnabled,hl,decide_true,↓reduceIte,levelAfter]
        refine .call (.yielding hfn hsuffix (by simp [Frame.Masked,hrest])) hbelow
          (by simp [hrest,Falls]) ?_
        rw [hrest]
        exact hfs.mono fun hw => ⟨hw.1,.inr hw.2⟩
      · simp only [control,threadPreemptEnabled,hl,decide_false,Bool.false_eq_true,↓reduceIte,levelAfter]
        refine .call (.yielding hfn List.nil_suffix (by simp [Frame.Masked])) hbelow (fun _ _ _ => hl) ?_
        exact hfs.mono fun hw => ⟨hw.1,.inl hl⟩
    · obtain ⟨rfl,hrest⟩ := List.cons_eq_cons.mp hcode
      rw [hrest] at hfs
      refine .call (.yielding hfn hsuffix (by simp [Frame.Masked,hrest])) hbelow
        (by simp [hrest,Falls]) ?_
      rw [hrest]
      exact hfs
    · obtain ⟨rfl,hrest⟩ := List.cons_eq_cons.mp hcode
      rw [hrest] at hfs
      refine .call (.masked hfn (by simp [Frame.Masked,hrest])) hbelow (by simp [hrest,Falls]) ?_
      rw [hrest]
      exact hfs
    · exact absurd (List.cons_eq_cons.mp hcode).1 hne
    · exact absurd (.inr hcode) hm
    · obtain ⟨rfl,hrest⟩ := List.cons_eq_cons.mp hcode
      rw [hrest] at hfs howes
      refine .call (.yielding hfn hsuffix (by simp [Frame.Masked,hrest])) hbelow (fun hw _ => ?_) ?_
      · rw [hrest]
        exact howes hw
      · rw [hrest]
        exact hfs
    · cases hcode
  | masked _ hm =>
    rcases hm with hcode | hcode
    · exact absurd (List.cons_eq_cons.mp hcode).1 hne
    · obtain ⟨rfl,hrest⟩ := List.cons_eq_cons.mp hcode
      rw [hrest] at hfs howes
      refine .call (.yielding hfn (by simp [hrest,suffix_yield]) (by simp [Frame.Masked,hrest]))
        hbelow (fun hw _ => ?_) ?_
      · rw [hrest]
        exact howes hw
      · rw [hrest]
        exact hfs

theorem shaped_intr (hfn : g.fn = .intr) (hoff : s.intr = false)
    (hk : i :: g.code = [.call .preemptEnable,.iret] ∨ i :: g.code = [.iret])
    (hfs : Shaped (h ∧ Falls (i :: g.code) s.self.preemptLevel) fs true
      (after (i :: g.code) s.self.preemptLevel)) :
    Shaped h (control s g fs i).1 (control s g fs i).2 (levelAfter s.self.preemptLevel i) := by
  rcases hk with hcode | hcode
  · obtain ⟨rfl,hrest⟩ := List.cons_eq_cons.mp hcode
    rw [hrest] at hfs
    simp only [control,hoff,levelAfter]
    refine .enableCall (by simp [hfn]) (.call (.intr hfn (.inr hrest)) (fun _ _ _ => hfn) ?_ ?_)
    · simp [Frame.Owes,hfn]
    · rw [hrest]
      exact hfs.mono fun hw => ⟨hw.1.1,hw.1.2,trivial⟩
  · obtain ⟨rfl,hrest⟩ := List.cons_eq_cons.mp hcode
    rw [hrest] at hfs
    exact hfs.mono fun hw => ⟨hw,trivial⟩

end Instructions

/-- Only the thread's own calls wake or create threads. -/
theorem Frame.Over.own_code {f : Frame} {on below : Bool} {i : Instr} {k : List Instr}
    (h : f.Over on below) (hk : f.code = i :: k) :
    (∀ t, i ≠ .wakeupLocked t) ∧ ∀ p, i ≠ .createLocked p := by
  cases h with
  | intr _ hcode =>
    rw [hk] at hcode
    constructor <;> rintro t rfl <;> simp at hcode
  | enabling _ hcode =>
    rw [hk,suffix_preemptEnable] at hcode
    constructor <;> rintro t rfl <;> simp at hcode
  | yielding _ hcode _ =>
    rw [hk,suffix_yield] at hcode
    constructor <;> rintro t rfl <;> simp at hcode
  | masked _ hm =>
    rw [Frame.Masked,hk] at hm
    constructor <;> rintro t rfl <;> simp at hm

/-- The effect of an instruction on the shape. -/
theorem Fetched.shaped {s s' : State} {i : Instr} {g : Frame} {fs : List Frame} (h : Fetched s i g fs)
    (hsw : ¬i.Switches) (hc : Controlled s s' g fs i)
    (hs : Shaped (HigherWaiting s) ({ g with code := i :: g.code } :: fs) s.intr s.self.preemptLevel) :
    Shaped (HigherWaiting s') (s'.stack s'.current) s'.intr s'.self.preemptLevel := by
  rw [hc.level,hc.intr,hc.stack,hc.current,Function.update_self]
  generalize hon : s.intr = on at hs
  cases hs with
  | calm hcalm =>
    obtain ⟨hg,hfs⟩ := calm_cons.mp hcalm
    refine shaped_calm (calm_cons.mpr ⟨hg,hfs⟩) ?_
    rintro rfl
    exact h.holds
  | call hover hhead howes hfs =>
    have hhigh := hc.higher (hover.own_code rfl).1
    have hfs' := hfs.mono (p := HigherWaiting s' ∧ _) fun hw => ⟨hhigh hw.1,hw.2⟩
    have hover' := hover
    cases hover with
    | intr hfn hk => exact shaped_intr hfn hon hk hfs'
    | enabling hfn hk =>
      refine shaped_enabling hfn hk (fun f hf hy => ?_) (fun hw => h.sound.waiting (hhigh hw))
        (hon ▸ hfs')
      exact absurd (hfn.symm.trans (hhead f hf hy)) (by simp)
    | yielding hfn hk hm =>
      refine shaped_yielding hfn ?_ hon hover' (fun f hf hy => ?_)
        (fun hw => howes (hhigh hw) (.inl hfn)) hfs'
      · rintro rfl
        exact hsw trivial
      · exact absurd (hfn.symm.trans (hhead f hf hy)) (by simp)
    | masked hfn hm =>
      refine shaped_yielding hfn ?_ hon hover' (fun f hf hy => ?_)
        (fun hw => howes (hhigh hw) (.inl hfn)) hfs'
      · rintro rfl
        exact hsw trivial
      · exact absurd (hfn.symm.trans (hhead f hf hy)) (by simp)

/-- Of the calls above the thread's own, only `thread_yield` dispatches. -/
theorem Frame.Over.switch {f : Frame} {on below : Bool} {i : Instr} {k : List Instr}
    (h : f.Over on below) (hk : f.code = i :: k) (hsw : i.Switches) :
    f.fn = .yield ∧ i = .yieldSwitch ∧ k = [.intrRestore,.preemptEnableNoYield] ∧
    below = f.eflags := by
  have hi := Instr.switches_iff.mp hsw
  cases h with
  | intr _ hcode => rw [hk] at hcode; rcases hi with rfl | rfl | rfl <;> simp at hcode
  | enabling _ hcode =>
    rw [hk,suffix_preemptEnable] at hcode; rcases hi with rfl | rfl | rfl <;> simp at hcode
  | yielding _ hcode hm =>
    rw [Frame.Masked,hk] at hm
    rw [hk,suffix_yield] at hcode
    rcases hi with rfl | rfl | rfl <;> simp_all
  | masked hfn hm =>
    rw [Frame.Masked,hk] at hm
    rcases hi with rfl | rfl | rfl <;> simp_all

/-- Every stack has its shape. A thread that does not run has interrupts off in its saved flags. -/
structure Prompt (s : State) : Prop where
  current : Shaped (HigherWaiting s) (s.stack s.current) s.intr s.self.preemptLevel
  others : ∀ t, t ≠ s.current → Shaped False (s.stack t) false (s.thread t).preemptLevel

/-- A dispatch leaves no more urgent thread waiting, so nothing is asked of any stack. -/
theorem Fetched.shaped_switch {s : State} {i : Instr} {g : Frame} {fs : List Frame}
    (h : Fetched s i g fs) (hsw : i.Switches) (hoff : s.intr = false)
    (hs : Shaped (HigherWaiting s)
      ({ g with code := i :: g.code } :: fs) s.intr s.self.preemptLevel) :
    Shaped False (s.stack s.current) false s.self.preemptLevel := by
  rw [h.stack]
  rw [hoff] at hs
  generalize hon : false = on at hs
  cases hs with
  | calm hcalm =>
    obtain ⟨hg,hfs⟩ := calm_cons.mp hcalm
    exact .calm (calm_cons.mpr ⟨hg,hfs⟩)
  | call hover hhead _ hfs =>
    subst hon
    obtain ⟨hfn,rfl,hrest,rfl⟩ := hover.switch rfl hsw
    refine .call (Frame.Over.masked (f := g) hfn (.inr hrest)) hhead (fun hw => hw.elim) ?_
    exact hfs.mono fun hw => hw.1.elim

namespace Prompt
variable {s s' : State}

theorem of_stack (h : Prompt s) (fs : List Frame) (hcur : s'.current = s.current)
    (hstack : s'.stack = Function.update s.stack s.current fs)
    (hlevel : ∀ t, t ≠ s.current → (s'.thread t).preemptLevel = (s.thread t).preemptLevel)
    (hfs : Shaped (HigherWaiting s') fs s'.intr s'.self.preemptLevel) : Prompt s' := by
  refine ⟨?_,fun t ht => ?_⟩
  · rw [hcur,hstack,Function.update_self]
    exact hfs
  · rw [hcur] at ht
    rw [hstack,Function.update_of_ne ht,hlevel t ht]
    exact h.others t ht

/-- After a dispatch nothing is asked of any stack. -/
theorem switched (hs : ∀ t, Shaped False (s.stack t) false (s.thread t).preemptLevel)
    (h : Switched s s') : Prompt s' := by
  have hall : ∀ t, Shaped False (s'.stack t) false (s'.thread t).preemptLevel := fun t => by
    rw [h.stack,h.level]
    exact hs t
  refine ⟨?_,fun t _ => hall t⟩
  rw [h.intr.2]
  exact (hall s'.current).mono h.dispatched.none_higher

end Prompt

theorem Fetched.prompt {s s' : State} {i : Instr} {g : Frame} {fs : List Frame}
    (h : Fetched s i g fs) (hexec : Sched.exec s i = .ok s')
    (hs : Shaped (HigherWaiting s)
      ({ g with code := i :: g.code } :: fs) s.intr s.self.preemptLevel)
    (hothers : ∀ t, t ≠ s.current → Shaped False (s.stack t) false (s.thread t).preemptLevel) :
    Prompt s' := by
  by_cases hsw : i.Switches
  · have hswitch := (h.exec.of_ok hexec).2.2 hsw
    refine Prompt.switched (fun t => ?_) hswitch
    by_cases ht : t = s.current
    · subst ht
      exact h.shaped_switch hsw hswitch.intr.1 hs
    · exact hothers t ht
  by_cases hcr : ∃ p, i = .createLocked p
  · obtain ⟨p,rfl⟩ := hcr
    have hcalm : ∀ f ∈ g :: fs, f.Calm := by
      generalize s.intr = on at hs
      cases hs with
      | calm hcalm =>
        obtain ⟨hg,hfs⟩ := calm_cons.mp hcalm
        exact calm_cons.mpr ⟨hg,hfs⟩
      | call hover _ _ _ => exact absurd rfl ((hover.own_code rfl).2 p)
    have hcur : s.current ≠ s.next := fun he => lt_irrefl _
      (he ▸ h.sound.next_fresh _ h.sound.current_mem)
    obtain ⟨rfl,-,-⟩ := (h.sound.create (h.leveled rfl (by simp)) p).of_ok hexec
    obtain ⟨hc,-,-,-,-,hstack⟩ := born_fields s p
    refine ⟨?_,fun t ht => ?_⟩
    · rw [hc,hstack,Function.update_of_ne hcur,h.stack]
      exact .calm hcalm
    · rw [hc] at ht
      rw [hstack,born_thread p hcur]
      by_cases htn : t = s.next
      · subst htn
        rw [Function.update_self]
        exact .calm (by simp [Frame.Calm])
      · simpa [htn] using hothers t ht
  · have hc := h.controlled hsw (fun p hp => hcr ⟨p,hp⟩) hexec
    refine ⟨h.shaped hsw hc hs,fun t ht => ?_⟩
    rw [hc.current] at ht
    rw [hc.stack,Function.update_of_ne ht,hc.others t ht]
    exact hothers t ht

theorem ThreadStep.prompt {s s' : State} (hstep : ThreadStep s s') (hs : Sound s) (hl : Leveled s)
    (h : Prompt s) : Prompt s' := by
  cases hstep with
  | @instr _ f fs i k hstack hcode hexec =>
    have hcur := h.current
    obtain ⟨fn,callIntr,eflags,code⟩ := f
    obtain rfl : code = i :: k := hcode
    rw [hstack] at hcur
    refine (Fetched.of_stack hs hl hstack rfl).prompt hexec ?_ fun t ht => ?_
    · exact hcur.mono (quiet_setStack s _).higherWaiting.mp
    · have ht' : t ≠ s.current := ht
      simpa [State.setStack,ht'] using h.others t ht
  | ret hstack hcode _ =>
    refine h.of_stack _ rfl rfl (fun _ _ => rfl) ?_
    have hcur := h.current
    rw [hstack] at hcur
    exact (hcur.ret hcode).mono (quiet_setStack s _).higherWaiting.mp
  | invoke i hstack hfn _ _ _ =>
    refine h.of_stack _ rfl rfl (fun _ _ => rfl) (.calm ?_)
    simp [Frame.Calm,hfn]

end X1.Sched
