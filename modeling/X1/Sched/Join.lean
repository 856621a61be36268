import X1.Sched.Order

/-! # Exit and join

A thread is joined at most once, by another thread. The stacks then have one of a few
forms: `thread_exit`, `thread_sleep` and `thread_join` are called by the thread's own
code only, and nothing comes on top of the loop of `thread_join` but `thread_sleep`,
because interrupts are off in it. From this follows that the joiner is awake whenever
the thread it waits for is dead, and that what it destroys is never used again.
-/
namespace X1.Sched
open X1.Lib X1.Ring X1.Checked

/-- The code of the thread begins `i`. -/
def Invokes (s s' : State) (i : Instr) : Prop :=
  ∃ f, s.stack s.current = [f] ∧ f.fn = .main ∧ f.code = [] ∧ s' = s.setStack [{ f with code := [i] }]

/-- The runs in which each thread is joined at most once, by another thread. `joined` tells by whom. -/
inductive JoinedOnce : State → (Tid → Option Tid) → Prop where
  | enable {s s' : State} : Booting s → threadEnableScheduler s = .ok s' → JoinedOnce s' fun _ => none
  | step {s s' : State} {joined : Tid → Option Tid} : JoinedOnce s joined → Step s s' →
      (∀ t, ¬Invokes s s' (.call (.join t))) → JoinedOnce s' joined
  | join {s : State} {joined : Tid → Option Tid} {f : Frame} {t : Tid} : JoinedOnce s joined →
      s.stack s.current = [f] → f.fn = .main → f.code = [] → s.current ≠ s.idle → t ∈ s.created →
        t ≠ s.current →
      joined t = none →
      JoinedOnce (s.setStack [{ f with code := [.call (.join t)] }])
        (Function.update joined t (some s.current))

theorem JoinedOnce.reachable {s : State} {joined : Tid → Option Tid} (h : JoinedOnce s joined) :
    Reachable s := by
  induction h with
  | enable hb he => exact .enable hb he
  | step _ hstep _ ih => exact .step ih hstep
  | join _ hstack hfn hcode hidle hmem _ _ ih =>
    exact .step ih (.thread (.invoke _ hstack hfn hcode hidle hmem))

/-! ## The forms of a stack -/

/-- `thread_join` after its loop. -/
def joinTail (u : Tid) : List Instr := [.intrRestore,.call .preemptEnable,.destroy u]

/-- The rest of `thread_join`, anywhere in it. -/
def JoinCode (u : Tid) (k : List Instr) : Prop :=
  k <:+ Fn.code (.join u) ∨ k = .call .sleep :: .joinLoop u :: joinTail u

/-- What the code of a thread can begin. -/
def Instr.Own : Instr → Prop
  | .preemptDisable | .preemptEnableNoYield | .yieldIfNeeded | .intrEnable | .intrDisable => True
  | .call .main | .call .intr => False
  | .call _ => True
  | _ => False

theorem Instr.Api.own {s : State} {i : Instr} (h : i.Api s) : i.Own := by
  cases i with
  | call fn => cases fn <;> simp_all [Instr.Api,Instr.Own]
  | _ => simp_all [Instr.Api,Instr.Own]

/-- The functions that can be found on top of any others. -/
def Fn.Side : Fn → Prop
  | .preemptEnable | .yield | .wakeup _ | .create _ | .intr => True
  | _ => False

/-- The code of a thread that waits for a call to return. -/
def Frame.Base (m : Frame) : Prop := m.fn = .main ∧ m.code = []

/-- Interrupts are off: in `thread_join` between saving and restoring them, and in the `thread_sleep`
it calls. -/
def Closed : List Frame → Prop
  | [] => False
  | f :: fs => (∃ u, f.fn = .join u ∧ .intrRestore ∈ f.code ∧ .intrSave ∉ f.code) ∨
      f.fn = .sleep ∧ ∃ g ∈ fs.head?, g.fn ≠ .main

inductive Tower : List Frame → Prop where
  | main {m : Frame} : m.fn = .main → m.code <:+ Fn.code .main ∨ (∃ i, m.code = [i] ∧ i.Own) → Tower [m]
  | exit {f m : Frame} : f.fn = .exit → f.code <:+ Fn.code .exit → m.Base → Tower [f,m]
  | sleep {f m : Frame} : f.fn = .sleep → f.code <:+ Fn.code .sleep → m.Base → Tower [f,m]
  | join {f m : Frame} {u : Tid} : f.fn = .join u → JoinCode u f.code → m.Base → Tower [f,m]
  | joinSleep {f g m : Frame} {u : Tid} : f.fn = .sleep → f.code <:+ Fn.code .sleep → g.fn = .join u →
      g.code = .joinLoop u :: joinTail u → m.Base → Tower [f,g,m]
  | side {f : Frame} {fs : List Frame} : f.fn.Side → f.code <:+ f.fn.code → ¬Closed fs → Tower fs →
      Tower (f :: fs)

/-- What a thread that does not run has left to do first. -/
def Parked (f : Frame) : ThreadState → Prop
  | .running => f.fn = .yield ∧ f.code = [.intrRestore,.preemptEnableNoYield] ∨
      f.fn = .sleep ∧ f.code = [.assertRunning,.intrRestore] ∨ f.fn = .main
  | .sleeping => f.fn = .sleep ∧ f.code = [.assertRunning,.intrRestore]
  | .dead => f.fn = .exit ∧ f.code = [.deadWalking]

/-- What a frame of the thread `t` tells about the threads it joins. -/
structure Frame.Fits (s : State) (joined : Tid → Option Tid) (t : Tid) (f : Frame) : Prop where
  called : ∀ u, f.fn = .join u ∨ .call (.join u) ∈ f.code → joined u = some t ∧ t ≠ u ∧ u ∈ s.created
  joiner : ∀ u, f.fn = .join u → .joinSet u ∉ f.code → (s.thread u).joiner = some t
  done : ∀ u, f.fn = .join u → .joinLoop u ∉ f.code → (s.thread u).state = .dead
  walking : f.fn = .exit → f.code = [.deadWalking] → (s.thread t).state = .dead

/-- What holds of the stack of the thread `t`. -/
structure Owned (s : State) (joined : Tid → Option Tid) (t : Tid) (fs : List Frame) : Prop where
  tower : Tower fs
  fits : ∀ f ∈ fs, f.Fits s joined t
  eflags : ∀ f g l, fs = f :: g :: l → f.fn = .sleep → g.fn ≠ .main → f.code ≠ Fn.code .sleep →
    f.eflags = false
  alive : ∀ f g l u, fs = f :: g :: l → f.fn = .sleep → g.fn = .join u →
    .sleepSwitch ∈ f.code ∨ (s.thread t).state = .sleeping → (s.thread u).state ≠ .dead

/-- What holds of the running frame: interrupts are off where they have to be, and the thread to join
is not dead when the loop has found it so. -/
structure Proceeds (s : State) (fs : List Frame) : Prop where
  masked : Closed fs → s.intr = false
  waiting : ∀ f ∈ fs.head?, ∀ u, f.fn = .join u → .call .sleep ∈ f.code → (s.thread u).state ≠ .dead

structure Joins (s : State) (joined : Tid → Option Tid) : Prop where
  owned : ∀ t, Owned s joined t (s.stack t)
  parked : ∀ t, t ≠ s.current → ∀ f ∈ (s.stack t).head?, Parked f (s.thread t).state
  runs : Proceeds s (s.stack s.current)

section Frames
variable {s s' : State} {joined : Tid → Option Tid} {t : Tid} {f : Frame} {fs : List Frame}

/-- Frames of the other functions tell nothing. -/
theorem fits_plain (hjoin : ∀ u, f.fn ≠ .join u) (hcall : ∀ u, .call (.join u) ∉ f.code)
    (hwalk : f.fn = .exit → f.code ≠ [.deadWalking]) : f.Fits s joined t :=
  ⟨fun u hu => hu.elim (absurd · (hjoin u)) (absurd · (hcall u)),fun u hu => absurd hu (hjoin u),
    fun u hu => absurd hu (hjoin u),fun hf hk => absurd hk (hwalk hf)⟩

theorem Fn.Side.ne {fn : Fn} (h : fn.Side) : (∀ u, fn ≠ .join u) ∧ fn ≠ .sleep ∧ fn ≠ .exit ∧ fn ≠ .main := by
  cases fn <;> simp_all [Fn.Side]

/-- The function of which an instruction can only be part, if there is one. -/
def Instr.home : Instr → Option Fn
  | .yieldSwitch => some .yield
  | .sleepSwitch => some .sleep
  | .exitSwitch | .deadWalking => some .exit
  | .createLocked p => some (.create p)
  | .joinSet t | .joinLoop t | .destroy t => some (.join t)
  | _ => none

theorem Fn.eq_home {fn fn' : Fn} {i : Instr} (h : i ∈ fn.code) (hi : i.home = some fn') : fn = fn' := by
  cases i with
  | yieldSwitch | sleepSwitch | exitSwitch | deadWalking | createLocked p | joinSet t | joinLoop t | destroy t =>
    obtain rfl := Option.some.inj hi
    cases fn <;> simp [Fn.code] at h ⊢
    all_goals exact h.symm
  | _ => cases hi

theorem Fn.eq_of_call {fn fn' : Fn} (h : .call fn' ∈ fn.code) : fn' = .preemptEnable := by
  cases fn <;> simp_all [Fn.code]

theorem Fn.not_call_join {fn : Fn} (u : Tid) : Instr.call (.join u) ∉ fn.code := by
  intro h
  cases Fn.eq_of_call h

theorem fits_side (hfn : f.fn.Side) (hk : f.code <:+ f.fn.code) : f.Fits s joined t :=
  fits_plain hfn.ne.1 (fun u hu => Fn.not_call_join u (hk.subset hu)) fun he => absurd he hfn.ne.2.2.1

theorem not_closed_side (hfn : f.fn.Side) : ¬Closed (f :: fs) := by
  rintro (⟨u,hu,-⟩ | ⟨hs,-⟩)
  · exact hfn.ne.1 u hu
  · exact hfn.ne.2.1 hs

theorem not_closed_main {m : Frame} (h : m.fn = .main) : ¬Closed (m :: fs) := by
  rintro (⟨u,hu,-⟩ | ⟨hs,-⟩)
  · simp [h] at hu
  · simp [h] at hs

/-- A stack whose running frame is of one of the other functions. -/
theorem owned_side (hfn : f.fn.Side) (hk : f.code <:+ f.fn.code) (hopen : ¬Closed fs) (htower : Tower fs)
    (hfits : ∀ g ∈ fs, g.Fits s joined t) : Owned s joined t (f :: fs) ∧ Proceeds s (f :: fs) := by
  refine ⟨⟨.side hfn hk hopen htower,fun g hg => ?_,?_,?_⟩,fun hc => absurd hc (not_closed_side hfn),?_⟩
  · rcases List.mem_cons.mp hg with rfl | hg
    · exact fits_side hfn hk
    · exact hfits g hg
  · rintro g g' l he hs
    obtain ⟨rfl,-⟩ := List.cons_eq_cons.mp he
    exact absurd hs hfn.ne.2.1
  · rintro g g' l u he hs
    obtain ⟨rfl,-⟩ := List.cons_eq_cons.mp he
    exact absurd hs hfn.ne.2.1
  · intro g hg u hu
    obtain rfl : f = g := by simpa using hg
    exact absurd hu (hfn.ne.1 u)

theorem Owned.tail (h : Owned s joined t (f :: fs)) (hfn : f.fn.Side) :
    f.code <:+ f.fn.code ∧ Tower fs ∧ ¬Closed fs := by
  obtain ⟨ht,-,-,-⟩ := h
  cases ht with
  | main hm _ => exact absurd hm hfn.ne.2.2.2
  | exit he _ _ => exact absurd he hfn.ne.2.2.1
  | sleep hs _ _ => exact absurd hs hfn.ne.2.1
  | join hj _ _ => exact absurd hj (hfn.ne.1 _)
  | joinSleep hs _ _ _ _ => exact absurd hs hfn.ne.2.1
  | side _ hcode hopen hfs => exact ⟨hcode,hfs,hopen⟩

/-- Other threads go on: nobody comes back from the dead, and only `t` joins what it joins. -/
theorem Frame.Fits.transport (h : f.Fits s joined t) (hcre : ∀ u ∈ s.created, u ∈ s'.created)
    (hjoin : ∀ u ∈ s.created, joined u = some t → (s.thread u).joiner = some t →
      (s'.thread u).joiner = some t)
    (hdead : ∀ u, u ∈ s.created ∨ u = t → (s.thread u).state = .dead →
      (s'.thread u).state = .dead) : f.Fits s' joined t := by
  refine ⟨fun u hu => ?_,fun u hu hk => ?_,fun u hu hk => ?_,
    fun he hk => hdead t (.inr rfl) (h.walking he hk)⟩
  · obtain ⟨hj,hne,hc⟩ := h.called u hu
    exact ⟨hj,hne,hcre u hc⟩
  · obtain ⟨hj,-,hc⟩ := h.called u (.inl hu)
    exact hjoin u hc hj (h.joiner u hu hk)
  · obtain ⟨-,-,hc⟩ := h.called u (.inl hu)
    exact hdead u (.inl hc) (h.done u hu hk)

theorem Owned.transport (h : Owned s joined t fs) (hcre : ∀ u ∈ s.created, u ∈ s'.created)
    (hjoin : ∀ u ∈ s.created, joined u = some t → (s.thread u).joiner = some t →
      (s'.thread u).joiner = some t)
    (hdead : ∀ u, u ∈ s.created ∨ u = t → (s.thread u).state = .dead → (s'.thread u).state = .dead)
    (halive : ∀ f g l u, fs = f :: g :: l → f.fn = .sleep → g.fn = .join u → .sleepSwitch ∈ f.code ∨
      (s'.thread t).state = .sleeping → (s'.thread u).state ≠ .dead) : Owned s' joined t fs :=
  ⟨h.tower,fun f hf => (h.fits f hf).transport hcre hjoin hdead,h.eflags,halive⟩

theorem Frame.Fits.congr (h : f.Fits s joined t) (hth : s'.thread = s.thread)
    (hcre : s'.created = s.created) : f.Fits s' joined t :=
  h.transport (by simp [hcre]) (by simp [hth]) (by simp [hth])

theorem Owned.congr (h : Owned s joined t fs) (hth : s'.thread = s.thread)
    (hcre : s'.created = s.created) : Owned s' joined t fs :=
  ⟨h.tower,fun f hf => (h.fits f hf).congr hth hcre,h.eflags,by rw [hth]; exact h.alive⟩

theorem owned_main {m : Frame} (hfn : m.fn = .main) (hk : m.code <:+ Fn.code .main) :
    Owned s joined t [m] ∧ Proceeds s [m] := by
  have hcall : ∀ u, Instr.call (.join u) ∉ m.code := fun u hu => Fn.not_call_join u (hk.subset hu)
  refine ⟨⟨.main hfn (.inl hk),fun f hf => ?_,by simp,by simp⟩,fun hc => absurd hc (not_closed_main hfn),?_⟩
  · obtain rfl : f = m := by simpa using hf
    exact fits_plain (by simp [hfn]) hcall (by simp [hfn])
  · simp [hfn]

theorem Frame.Base.owned {m : Frame} (h : m.Base) : Owned s joined t [m] ∧ Proceeds s [m] :=
  owned_main h.1 (by rw [h.2]; exact List.nil_suffix)

theorem JoinCode.closed {u : Tid} {k : List Instr} (h : JoinCode u k) (hsleep : .call .sleep ∈ k) :
    .intrRestore ∈ k ∧ .intrSave ∉ k := by
  rcases h with hk | rfl
  · have := hk.subset hsleep
    simp [Fn.code] at this
  · simp [joinTail]

/-- Where interrupts may be on, nothing more is asked. -/
theorem Tower.owned (h : Tower fs) (hopen : ¬Closed fs) (hfits : ∀ f ∈ fs, f.Fits s joined t) :
    Owned s joined t fs ∧ Proceeds s fs := by
  have hnot : ∀ f g l, fs = f :: g :: l → f.fn = .sleep → g.fn = .main := fun f g l he hs => by
    by_contra hm
    exact hopen (he ▸ .inr ⟨hs,g,rfl,hm⟩)
  refine ⟨⟨h,hfits,fun f g l he hs hm => absurd (hnot f g l he hs) hm,fun f g l u he hs hj => ?_⟩,
    fun hc => absurd hc hopen,fun f hf u hu hk => ?_⟩
  · have := hnot f g l he hs
    simp [hj] at this
  · obtain ⟨l,rfl⟩ := List.head?_eq_some_iff.mp hf
    cases h with
    | join hfn hcode _ =>
      rw [hfn] at hu
      cases hu
      exact absurd (.inl ⟨_,hfn,hcode.closed hk⟩) hopen
    | main hfn _ => simp [hfn] at hu
    | exit hfn _ _ => simp [hfn] at hu
    | sleep hfn _ _ => simp [hfn] at hu
    | joinSleep hfn _ _ _ _ => simp [hfn] at hu
    | side hfn _ _ _ => exact absurd hu (hfn.ne.1 u)

theorem owned_call {m : Frame} {fn : Fn} {b : Bool} (hm : m.Base) (hown : (Instr.call fn).Own)
    (hcalled : ∀ u, fn = .join u → joined u = some t ∧ t ≠ u ∧ u ∈ s.created) :
    Owned s joined t [⟨fn,b,false,fn.code⟩,m] ∧ Proceeds s [⟨fn,b,false,fn.code⟩,m] := by
  have hbase : ∀ g ∈ [m], g.Fits s joined t := (hm.owned (s := s)).1.fits
  have hopen : ¬Closed [⟨fn,b,false,fn.code⟩,m] := by
    rintro (⟨u,hu,-,hk⟩ | ⟨-,g,hg,hgm⟩)
    · obtain rfl : fn = .join u := hu
      simp [Fn.code] at hk
    · obtain rfl : m = g := by simpa using hg
      exact hgm hm.1
  have hfit : Frame.Fits s joined t ⟨fn,b,false,fn.code⟩ := by
    cases fn with
    | join u =>
      refine ⟨fun v hv => ?_,fun v hv hk => ?_,fun v hv hk => ?_,by simp⟩
      · simp only [Fn.code] at hv
        have huv : u = v := by simpa using hv
        exact huv ▸ hcalled u rfl
      · cases hv
        simp [Fn.code] at hk
      · cases hv
        simp [Fn.code] at hk
    | main => exact hown.elim
    | intr => exact hown.elim
    | _ => exact fits_plain (by simp) (by simp [Fn.code]) (by simp [Fn.code])
  have htower : Tower [⟨fn,b,false,fn.code⟩,m] := by
    cases fn with
    | exit => exact .exit rfl (List.suffix_refl _) hm
    | sleep => exact .sleep rfl (List.suffix_refl _) hm
    | join u => exact .join rfl (.inl (List.suffix_refl _)) hm
    | main => exact hown.elim
    | intr => exact hown.elim
    | _ => exact .side trivial (List.suffix_refl _) (not_closed_main hm.1) (.main hm.1 (.inl (by rw [hm.2]; exact List.nil_suffix)))
  refine htower.owned hopen fun f hf => ?_
  rcases List.mem_cons.mp hf with rfl | hf
  · exact hfit
  · exact hbase f hf

end Frames

/-! ## Instructions -/

/-- No thread is put to sleep or dies. -/
def Rouses (s s' : State) (u : Tid) : Prop :=
  (s'.thread u).state = (s.thread u).state ∨ (s.thread u).state = .sleeping ∧
    (s'.thread u).state = .running

theorem Rouses.dead_iff {s s' : State} {u : Tid} (h : Rouses s s' u) :
    (s'.thread u).state = .dead ↔ (s.thread u).state = .dead := by
  rcases h with h | ⟨h,h'⟩
  · rw [h]
  · simp [h,h']

theorem Rouses.sleeping {s s' : State} {u : Tid} (h : Rouses s s' u)
    (hs : (s'.thread u).state = .sleeping) : (s.thread u).state = .sleeping := by
  rcases h with h | ⟨h,-⟩
  · exact h.symm.trans hs
  · exact h

section Instructions
variable {s s' : State} {joined : Tid → Option Tid} {g : Frame} {fs : List Frame} {i : Instr}

theorem suffix_main {k : List Instr} : k <:+ Fn.code .main ↔
    k = [.mainTest,.intrEnable,.call .preemptEnable] ∨ k = [.intrEnable,.call .preemptEnable] ∨
    k = [.call .preemptEnable] ∨ k = [] := by
  simp [Fn.code,List.suffix_cons_iff]

theorem suffix_exit {k : List Instr} : k <:+ Fn.code .exit ↔
    k = [.exitTest,.preemptDisable,.intrSave,.exitSwitch,.deadWalking] ∨
    k = [.preemptDisable,.intrSave,.exitSwitch,.deadWalking] ∨ k = [.intrSave,.exitSwitch,.deadWalking] ∨
    k = [.exitSwitch,.deadWalking] ∨ k = [.deadWalking] ∨ k = [] := by
  simp [Fn.code,List.suffix_cons_iff]

theorem suffix_sleep {k : List Instr} :
    k <:+ Fn.code .sleep ↔ k = [.intrSave,.sleepSwitch,.assertRunning,.intrRestore] ∨
    k = [.sleepSwitch,.assertRunning,.intrRestore] ∨ k = [.assertRunning,.intrRestore] ∨
    k = [.intrRestore] ∨ k = [] := by
  simp [Fn.code,List.suffix_cons_iff]

theorem suffix_join {u : Tid} {k : List Instr} :
    k <:+ Fn.code (.join u) ↔
    k = .preemptDisable :: .intrSave :: .joinSet u :: .joinLoop u :: joinTail u ∨
    k = .intrSave :: .joinSet u :: .joinLoop u :: joinTail u ∨
    k = .joinSet u :: .joinLoop u :: joinTail u ∨ k = .joinLoop u :: joinTail u ∨ k = joinTail u ∨
    k = [.call .preemptEnable,.destroy u] ∨ k = [.destroy u] ∨ k = [] := by
  simp [Fn.code,joinTail,List.suffix_cons_iff]

theorem instr_main (hfn : g.fn = .main)
    (hcode : i :: g.code <:+ Fn.code .main ∨ ∃ j, i :: g.code = [j] ∧ j.Own)
    (hcalled : ∀ u, .call (.join u) ∈ i :: g.code → joined u = some s.current ∧ s.current ≠ u ∧
      u ∈ s'.created) : Owned s' joined s.current (control s g [] i).1 ∧
    Proceeds s' (control s g [] i).1 := by
  rcases hcode with hcode | ⟨j,hj,hown⟩
  · rcases suffix_main.mp hcode with hk | hk | hk | hk
    · obtain ⟨rfl,-⟩ := List.cons_eq_cons.mp hk
      exact owned_main hfn ((List.suffix_cons _ _).trans hcode)
    · obtain ⟨rfl,-⟩ := List.cons_eq_cons.mp hk
      exact owned_main hfn ((List.suffix_cons _ _).trans hcode)
    · obtain ⟨rfl,hrest⟩ := List.cons_eq_cons.mp hk
      exact owned_call ⟨hfn,hrest⟩ trivial (by simp)
    · cases hk
  · obtain ⟨rfl,hrest⟩ := List.cons_eq_cons.mp hj
    have hbase : g.Base := ⟨hfn,hrest⟩
    cases i with
    | call fn =>
      refine owned_call hbase hown fun u hu => hcalled u ?_
      rw [hu]
      exact List.mem_cons_self
    | yieldIfNeeded =>
      simp only [control]
      split
      · exact owned_call hbase trivial (by simp)
      · exact hbase.owned
    | preemptDisable => exact hbase.owned
    | preemptEnableNoYield => exact hbase.owned
    | intrEnable => exact hbase.owned
    | intrDisable => exact hbase.owned
    | _ => exact hown.elim

theorem instr_side (hfn : g.fn.Side) (hk : i :: g.code <:+ g.fn.code) (hsw : ¬i.Switches)
    (hopen : ¬Closed fs) (htower : Tower fs) (hfits : ∀ f ∈ fs, f.Fits s' joined s.current) :
    Owned s' joined s.current (control s g fs i).1 ∧ Proceeds s' (control s g fs i).1 := by
  have hrest : g.code <:+ g.fn.code := (List.suffix_cons i g.code).trans hk
  have hsame := owned_side hfn hrest hopen htower hfits
  have hcut : ∀ k e, k <:+ g.fn.code → Owned s' joined s.current
      ({ g with code := k, eflags := e } :: fs) ∧
      Proceeds s' ({ g with code := k, eflags := e } :: fs) := fun k e hk =>
    owned_side (f := { g with code := k, eflags := e }) hfn hk hopen htower hfits
  have hpush : ∀ fn b, fn.Side → Owned s' joined s.current (⟨fn,b,false,fn.code⟩ :: g :: fs) ∧
      Proceeds s' (⟨fn,b,false,fn.code⟩ :: g :: fs) := fun fn b hfn' =>
    owned_side (f := ⟨fn,b,false,fn.code⟩) hfn' (List.suffix_refl _) (not_closed_side hfn)
      hsame.1.tower hsame.1.fits
  cases i with
  | yieldIfNeeded =>
    simp only [control]
    split
    · exact hpush .yield s.intr trivial
    · exact hsame
  | yieldTest =>
    simp only [control]
    split
    · exact hsame
    · exact hcut [] g.eflags List.nil_suffix
  | wakeupTest t =>
    simp only [control]
    split
    · exact hcut [] g.eflags List.nil_suffix
    · exact hsame
  | joinLoop t =>
    have hg : g.fn = .join t := Fn.eq_home (hk.subset List.mem_cons_self) rfl
    exact absurd hg (hfn.ne.1 t)
  | intrSave => exact hcut g.code s.intr hrest
  | iret => exact htower.owned hopen hfits
  | call fn =>
    refine hpush fn s.intr ?_
    rw [Fn.eq_of_call (hk.subset List.mem_cons_self)]
    trivial
  | _ => exact hsame

theorem instr_exit {m : Frame} (hfn : g.fn = .exit) (hk : i :: g.code <:+ Fn.code .exit) (hm : m.Base)
    (hsw : ¬i.Switches) :
    Owned s' joined s.current (control s g [m] i).1 ∧ Proceeds s' (control s g [m] i).1 := by
  have hrest' : g.code <:+ Fn.code .exit := (List.suffix_cons i g.code).trans hk
  have hstay : ∀ e, g.code ≠ [.deadWalking] →
      Owned s' joined s.current [{ g with eflags := e },m] ∧ Proceeds s' [{ g with eflags := e },m] := by
    intro e hw
    refine Tower.owned (.exit hfn hrest' hm) ?_ fun f hf => ?_
    · rintro (⟨u,hu,-⟩ | ⟨hs,-⟩)
      · simp [hfn] at hu
      · simp [hfn] at hs
    · rcases List.mem_cons.mp hf with rfl | hf
      · exact fits_plain (by simp [hfn]) (fun u hu => Fn.not_call_join u (hrest'.subset hu)) fun _ => hw
      · exact (hm.owned (s := s')).1.fits f hf
  rcases suffix_exit.mp hk with hc | hc | hc | hc | hc | hc
  · obtain ⟨rfl,hrest⟩ := List.cons_eq_cons.mp hc
    exact hstay g.eflags (by simp [hrest])
  · obtain ⟨rfl,hrest⟩ := List.cons_eq_cons.mp hc
    exact hstay g.eflags (by simp [hrest])
  · obtain ⟨rfl,hrest⟩ := List.cons_eq_cons.mp hc
    exact hstay s.intr (by simp [hrest])
  · obtain ⟨rfl,-⟩ := List.cons_eq_cons.mp hc
    exact absurd trivial hsw
  · obtain ⟨rfl,hrest⟩ := List.cons_eq_cons.mp hc
    exact hstay g.eflags (by simp [hrest])
  · cases hc

theorem instr_sleep {m : Frame} (hfn : g.fn = .sleep) (hk : i :: g.code <:+ Fn.code .sleep) (hm : m.Base)
    (hsw : ¬i.Switches) :
    Owned s' joined s.current (control s g [m] i).1 ∧ Proceeds s' (control s g [m] i).1 := by
  have hrest : g.code <:+ Fn.code .sleep := (List.suffix_cons i g.code).trans hk
  have hstay : ∀ e, Owned s' joined s.current [{ g with eflags := e },m] ∧
      Proceeds s' [{ g with eflags := e },m] := by
    intro e
    refine Tower.owned (.sleep hfn hrest hm) ?_ fun f hf => ?_
    · rintro (⟨u,hu,-⟩ | ⟨-,f,hf,hfm⟩)
      · simp [hfn] at hu
      · obtain rfl : m = f := by simpa using hf
        exact hfm hm.1
    · rcases List.mem_cons.mp hf with rfl | hf
      · exact fits_plain (by simp [hfn]) (fun u hu => Fn.not_call_join u (hrest.subset hu))
          (by simp [hfn])
      · exact (hm.owned (s := s')).1.fits f hf
  rcases suffix_sleep.mp hk with hc | hc | hc | hc | hc
  · obtain ⟨rfl,-⟩ := List.cons_eq_cons.mp hc
    exact hstay s.intr
  · obtain ⟨rfl,-⟩ := List.cons_eq_cons.mp hc
    exact absurd trivial hsw
  · obtain ⟨rfl,-⟩ := List.cons_eq_cons.mp hc
    exact hstay g.eflags
  · obtain ⟨rfl,-⟩ := List.cons_eq_cons.mp hc
    exact hstay g.eflags
  · cases hc

theorem fits_join {t u : Tid} {f : Frame} (hfn : f.fn = .join u) (hcode : JoinCode u f.code)
    (hcalled : joined u = some t ∧ t ≠ u ∧ u ∈ s.created)
    (hjoiner : .joinSet u ∉ f.code → (s.thread u).joiner = some t)
    (hdone : .joinLoop u ∉ f.code → (s.thread u).state = .dead) : f.Fits s joined t := by
  have hcall : ∀ v, Instr.call (.join v) ∉ f.code := fun v hv => by
    rcases hcode with hk | hk
    · exact Fn.not_call_join v (hk.subset hv)
    · simp [hk,joinTail] at hv
  refine ⟨fun v hv => ?_,fun v hv hk => ?_,fun v hv hk => ?_,by simp [hfn]⟩
  · rcases hv with hv | hv
    · obtain rfl : u = v := by simpa [hfn] using hv
      exact hcalled
    · exact absurd hv (hcall v)
  · obtain rfl : u = v := by simpa [hfn] using hv
    exact hjoiner hk
  · obtain rfl : u = v := by simpa [hfn] using hv
    exact hdone hk

theorem owned_join {t u : Tid} {f m : Frame} (hfn : f.fn = .join u) (hcode : JoinCode u f.code)
    (hm : m.Base) (hfit : f.Fits s joined t)
    (hmask : .intrSave ∉ f.code → .intrRestore ∈ f.code → s.intr = false)
    (hwait : .call .sleep ∈ f.code → (s.thread u).state ≠ .dead) :
    Owned s joined t [f,m] ∧ Proceeds s [f,m] := by
  refine ⟨⟨.join hfn hcode hm,fun h hh => ?_,fun f' g' l he hs => ?_,fun f' g' l v he hs => ?_⟩,
    fun hc => ?_,fun f' hf' v hv hk => ?_⟩
  · rcases List.mem_cons.mp hh with rfl | hh
    · exact hfit
    · exact (hm.owned (s := s)).1.fits h hh
  · obtain ⟨rfl,-⟩ := List.cons_eq_cons.mp he
    simp [hfn] at hs
  · obtain ⟨rfl,-⟩ := List.cons_eq_cons.mp he
    simp [hfn] at hs
  · rcases hc with ⟨v,-,hr,hn⟩ | ⟨hs,-⟩
    · exact hmask hn hr
    · simp [hfn] at hs
  · obtain rfl : f = f' := by simpa using hf'
    obtain rfl : u = v := by simpa [hfn] using hv
    exact hwait hk

/-- `thread_join`. Its loop goes to sleep only when the thread is not dead, and is left only when it is. -/
theorem instr_join {u : Tid} {m : Frame} (hfn : g.fn = .join u) (hcode : JoinCode u (i :: g.code))
    (hm : m.Base) (hfit : ({ g with code := i :: g.code } : Frame).Fits s joined s.current)
    (hproceeds : Proceeds s [{ g with code := i :: g.code },m]) (hc : Controlled s s' g [m] i) :
    Owned s' joined s.current (control s g [m] i).1 ∧ Proceeds s' (control s g [m] i).1 := by
  have hcalled : joined u = some s.current ∧ s.current ≠ u ∧ u ∈ s'.created := by
    obtain ⟨h1,h2,h3⟩ := hfit.called u (.inl hfn)
    exact ⟨h1,h2,hc.grows.created u h3⟩
  have hrouses : Rouses s s' u := hc.rouses u
  have hdead : (s.thread u).state = .dead → (s'.thread u).state = .dead := hrouses.dead_iff.mpr
  have halive : (s.thread u).state ≠ .dead → (s'.thread u).state ≠ .dead := mt hrouses.dead_iff.mp
  have hkept : i ≠ .joinSet u → .joinSet u ∉ g.code → (s'.thread u).joiner = some s.current :=
    fun hne hk => by
    rw [hc.joiner,if_neg hne]
    exact hfit.joiner u hfn (by simpa using ⟨Ne.symm hne,hk⟩)
  have hdone : .joinLoop u ∉ i :: g.code → (s'.thread u).state = .dead :=
    fun hk => hdead (hfit.done u hfn hk)
  have hmask : .intrSave ∉ i :: g.code → .intrRestore ∈ i :: g.code → s.intr = false := fun hn hr =>
    hproceeds.masked (.inl ⟨u,hfn,hr,hn⟩)
  have hstay : i ≠ .joinSet u → i ≠ .joinLoop u → JoinCode u g.code →
      ∀ e, (.intrSave ∉ g.code → .intrRestore ∈ g.code →
      s'.intr = false) → .call .sleep ∉ g.code → Owned s' joined s.current [{ g with eflags := e },m] ∧
      Proceeds s' [{ g with eflags := e },m] := by
    intro hset hloop hcode e hm' hsleep
    refine owned_join (f := { g with eflags := e }) hfn hcode hm ?_ hm' fun hk => absurd hk hsleep
    exact fits_join hfn hcode hcalled (hkept hset) fun hk => hdone (by simpa using ⟨Ne.symm hloop,hk⟩)
  rcases hcode with hk | hk
  · have hrest' : JoinCode u g.code := .inl ((List.suffix_cons i g.code).trans hk)
    rcases suffix_join.mp hk with hk | hk | hk | hk | hk | hk | hk | hk
    · obtain ⟨rfl,hrest⟩ := List.cons_eq_cons.mp hk
      exact hstay (by simp) (by simp) hrest' g.eflags (by simp [hrest]) (by simp [hrest,joinTail])
    · obtain ⟨rfl,hrest⟩ := List.cons_eq_cons.mp hk
      exact hstay (by simp) (by simp) hrest' s.intr (fun _ _ => hc.intr) (by simp [hrest,joinTail])
    · obtain ⟨rfl,hrest⟩ := List.cons_eq_cons.mp hk
      refine owned_join hfn hrest' hm ?_ ?_ (by simp [hrest,joinTail])
      · refine fits_join hfn hrest' hcalled (fun _ => ?_) (by simp [hrest])
        rw [hc.joiner,if_pos rfl]
      · exact fun hn hr => hc.intr.trans (hmask (by simpa using hn) (by simp [hr]))
    · obtain ⟨rfl,hrest⟩ := List.cons_eq_cons.mp hk
      have hoff : s'.intr = false := hc.intr.trans (hmask (by simp [hrest,joinTail])
        (by simp [hrest,joinTail]))
      have hset : Instr.joinSet u ∉ g.code := by simp [hrest,joinTail]
      simp only [control]
      split
      · next hd =>
        refine owned_join hfn hrest' hm ?_ (fun _ _ => hoff) (by simp [hrest,joinTail])
        refine fits_join hfn hrest' hcalled (hkept (by simp)) fun _ => hdead ?_
        simpa [threadIsDead] using hd
      · next hd =>
        have hcode' : JoinCode u (.call .sleep :: .joinLoop u :: g.code) := .inr (by rw [hrest])
        refine owned_join (f := { g with code := .call .sleep :: .joinLoop u :: g.code }) hfn hcode' hm
          ?_ (fun _ _ => hoff) fun _ => halive (by simpa [threadIsDead] using hd)
        exact fits_join hfn hcode' hcalled (fun _ => hkept (by simp) hset) (by simp)
    · obtain ⟨rfl,hrest⟩ := List.cons_eq_cons.mp hk
      exact hstay (by simp) (by simp) hrest' g.eflags (by simp [hrest]) (by simp [hrest])
    · -- the call of `thread_preempt_enable`
      obtain ⟨rfl,hrest⟩ := List.cons_eq_cons.mp hk
      have hjoin := hstay (by simp) (by simp) hrest' g.eflags (by simp [hrest]) (by simp [hrest])
      refine owned_side (f := ⟨.preemptEnable,s.intr,false,Fn.code .preemptEnable⟩) trivial
        (List.suffix_refl _) ?_
        hjoin.1.tower hjoin.1.fits
      rintro (⟨v,-,hr,-⟩ | ⟨hs,-⟩)
      · simp [hrest] at hr
      · simp [hfn] at hs
    · obtain ⟨rfl,hrest⟩ := List.cons_eq_cons.mp hk
      exact hstay (by simp) (by simp) hrest' g.eflags (by simp [hrest]) (by simp [hrest])
    · cases hk
  · -- the call of `thread_sleep`
    obtain ⟨rfl,hrest⟩ := List.cons_eq_cons.mp hk
    have hoff : s'.intr = false := hc.intr.trans (hmask (by simp [hrest,joinTail])
      (by simp [hrest,joinTail]))
    have hjoin := hstay (by simp) (by simp) (.inl (by simp [hrest,suffix_join])) g.eflags
      (fun _ _ => hoff)
      (by simp [hrest,joinTail])
    have hwait : (s'.thread u).state ≠ .dead := halive (hproceeds.waiting _ rfl u hfn (by simp))
    have htower : Tower [⟨.sleep,s.intr,false,Fn.code .sleep⟩,g,m] :=
      .joinSleep rfl (List.suffix_refl _) hfn hrest hm
    refine ⟨⟨htower,fun f hf => ?_,?_,?_⟩,fun _ => hoff,?_⟩
    · rcases List.mem_cons.mp hf with rfl | hf
      · exact fits_plain (by simp) (by simp [Fn.code]) (by simp)
      · exact hjoin.1.fits f hf
    · rintro f f' l he - - hk
      obtain ⟨rfl,-⟩ := List.cons_eq_cons.mp he
      exact absurd rfl hk
    · rintro f f' l v he - hv -
      obtain ⟨rfl,hl⟩ := List.cons_eq_cons.mp he
      obtain ⟨rfl,-⟩ := List.cons_eq_cons.mp hl
      obtain rfl : u = v := by simpa [hfn] using hv
      exact hwait
    · simp [control]

theorem instr_joinSleep {u : Tid} {f m : Frame} (hfn : g.fn = .sleep)
    (hk : i :: g.code <:+ Fn.code .sleep) (hf : f.fn = .join u)
    (hfcode : f.code = .joinLoop u :: joinTail u) (hm : m.Base) (hsw : ¬i.Switches)
    (hfits : ∀ f' ∈ [f,m], f'.Fits s' joined s.current) (heflags : i ≠ .intrSave → g.eflags = false)
    (hoff : s.intr = false) (halive : .sleepSwitch ∈ i :: g.code → (s'.thread u).state ≠ .dead)
    (hrun : (s'.thread s.current).state ≠ .sleeping) (hc : Controlled s s' g [f,m] i) :
    Owned s' joined s.current (control s g [f,m] i).1 ∧ Proceeds s' (control s g [f,m] i).1 := by
  have hrest : g.code <:+ Fn.code .sleep := (List.suffix_cons i g.code).trans hk
  have hstay : s'.intr = false → Owned s' joined s.current [{ g with eflags := false },f,m] ∧
      Proceeds s' [{ g with eflags := false },f,m] := by
    intro hoff'
    refine ⟨⟨.joinSleep hfn hrest hf hfcode hm,fun f' hf' => ?_,?_,?_⟩,fun _ => hoff',?_⟩
    · rcases List.mem_cons.mp hf' with rfl | hf'
      · exact fits_plain (by simp [hfn]) (fun v hv => Fn.not_call_join v (hrest.subset hv))
          (by simp [hfn])
      · exact hfits f' hf'
    · rintro f₁ f₂ l he - - -
      obtain ⟨rfl,-⟩ := List.cons_eq_cons.mp he
      rfl
    · rintro f₁ f₂ l v he - hv hs
      obtain ⟨rfl,hl⟩ := List.cons_eq_cons.mp he
      obtain ⟨rfl,-⟩ := List.cons_eq_cons.mp hl
      obtain rfl : u = v := by simpa [hf] using hv
      exact halive (List.mem_cons_of_mem _ (hs.resolve_right hrun))
    · simp [hfn]
  have hsame : i ≠ .intrSave → ({ g with eflags := false } : Frame) = g := fun hi => by rw [← heflags hi]
  rcases suffix_sleep.mp hk with hk | hk | hk | hk | hk
  · obtain ⟨rfl,-⟩ := List.cons_eq_cons.mp hk
    simp only [control,hoff]
    exact hstay hc.intr
  · obtain ⟨rfl,-⟩ := List.cons_eq_cons.mp hk
    exact absurd trivial hsw
  · obtain ⟨rfl,-⟩ := List.cons_eq_cons.mp hk
    have := hstay (hc.intr.trans hoff)
    rwa [hsame (by simp)] at this
  · obtain ⟨rfl,-⟩ := List.cons_eq_cons.mp hk
    have := hstay (hc.intr.trans (heflags (by simp)))
    rwa [hsame (by simp)] at this
  · cases hk

end Instructions

/-! ## Steps -/

/-- `i` has been taken from the running frame `g`. -/
structure Loaded (s : State) (joined : Tid → Option Tid) (i : Instr) (g : Frame) (fs : List Frame) : Prop where
  owned : Owned s joined s.current ({ g with code := i :: g.code } :: fs)
  proceeds : Proceeds s ({ g with code := i :: g.code } :: fs)
  others : ∀ t, t ≠ s.current → Owned s joined t (s.stack t) ∧
    ∀ f ∈ (s.stack t).head?, Parked f (s.thread t).state

section Steps
variable {s s' : State} {joined : Tid → Option Tid} {t : Tid} {g : Frame} {fs : List Frame} {i : Instr}

theorem Parked.rouses {f : Frame} (h : Parked f (s.thread t).state) (hr : Rouses s s' t) :
    Parked f (s'.thread t).state := by
  rcases hr with hr | ⟨hs,hr⟩
  · rwa [hr]
  · rw [hs] at h
    rw [hr]
    exact .inr (.inl h)

theorem Owned.other (ho : Owned s joined t fs) (hp : ∀ f ∈ fs.head?, Parked f (s.thread t).state)
    (hcre : ∀ u ∈ s.created, u ∈ s'.created) (hrouse : ∀ u, u ∈ s.created ∨ u = t → Rouses s s' u)
    (hjoin : ∀ u ∈ s.created, joined u = some t → (s.thread u).joiner = some t →
      (s'.thread u).joiner = some t) :
    Owned s' joined t fs ∧ ∀ f ∈ fs.head?, Parked f (s'.thread t).state := by
  refine ⟨ho.transport hcre hjoin (fun u hu => (hrouse u hu).dead_iff.mpr) fun f g l u he hs hj hk => ?_,
    fun f hf => (hp f hf).rouses (hrouse t (.inr rfl))⟩
  have hu : u ∈ s.created := ((ho.fits g (by simp [he])).called u (.inl hj)).2.2
  rw [ne_eq,(hrouse u (.inl hu)).dead_iff]
  exact ho.alive f g l u he hs hj (hk.imp_right (hrouse t (.inr rfl)).sleeping)

/-- The code left in a frame is its function's, or the thread's own choice. -/
theorem Tower.mem_code {f : Frame} (h : Tower (f :: fs)) (hi : i ∈ f.code) : i.Own ∨ i ∈ f.fn.code := by
  cases h with
  | main hfn hcode =>
    rcases hcode with hcode | ⟨j,hj,hown⟩
    · exact .inr (hfn ▸ hcode.subset hi)
    · rw [hj,List.mem_singleton] at hi
      exact .inl (hi ▸ hown)
  | exit hfn hcode _ => exact .inr (hfn ▸ hcode.subset hi)
  | sleep hfn hcode _ => exact .inr (hfn ▸ hcode.subset hi)
  | join hfn hcode _ =>
    rcases hcode with hcode | hcode
    · exact .inr (hfn ▸ hcode.subset hi)
    · rw [hcode,List.mem_cons] at hi
      rcases hi with rfl | hi
      · exact .inl trivial
      · refine .inr (hfn ▸ List.IsSuffix.subset ?_ hi)
        simp [suffix_join]
  | joinSleep hfn hcode _ _ _ => exact .inr (hfn ▸ hcode.subset hi)
  | side hfn hcode _ _ => exact .inr (hcode.subset hi)

theorem Tower.joinSet {f : Frame} {u : Tid} (h : Tower (f :: fs)) (hk : .joinSet u ∈ f.code) :
    f.fn = .join u := by
  rcases h.mem_code hk with ho | hc
  · exact ho.elim
  · exact Fn.eq_home hc rfl

theorem Loaded.instr (h : Loaded s joined i g fs) (hsw : ¬i.Switches) (hc : Controlled s s' g fs i)
    (hrun : s.self.state = .running) : Joins s' joined := by
  have hown := h.owned
  have hself : (s'.thread s.current).state ≠ .sleeping := by
    rcases hc.rouses s.current with hr | ⟨-,hr⟩
    · rw [hr,show (s.thread s.current).state = .running from hrun]
      simp
    · simp [hr]
  have hset : ∀ u, i = .joinSet u → joined u = some s.current := by
    rintro u rfl
    exact ((hown.fits _ (by simp)).called u (.inl (hown.tower.joinSet (by simp)))).1
  have hjoin : ∀ t u, joined u = some t → (s.thread u).joiner = some t →
      (s'.thread u).joiner = some t := by
    intro t u hu hj
    rw [hc.joiner]
    split
    · next hi => rw [← hset u hi,hu]
    · exact hj
  have hfits : ∀ f ∈ fs, f.Fits s' joined s.current := fun f hf =>
    (hown.fits f (List.mem_cons_of_mem _ hf)).transport hc.grows.created (fun u _ => hjoin s.current u)
      fun u _ => (show Rouses s s' u from hc.rouses u).dead_iff.mpr
  have hnew : Owned s' joined s.current (control s g fs i).1 ∧ Proceeds s' (control s g fs i).1 := by
    obtain ⟨htower,hfit,heflags,halive⟩ := hown
    cases htower with
    | main hfn hcode =>
      refine instr_main hfn hcode fun u hu => ?_
      obtain ⟨h1,h2,h3⟩ := (hfit _ List.mem_cons_self).called u (.inr hu)
      exact ⟨h1,h2,hc.grows.created u h3⟩
    | exit hfn hcode hm => exact instr_exit hfn hcode hm hsw
    | sleep hfn hcode hm => exact instr_sleep hfn hcode hm hsw
    | join hfn hcode hm => exact instr_join hfn hcode hm (hfit _ List.mem_cons_self) h.proceeds hc
    | @joinSleep _ f m u hfn hcode hf hfcode hm =>
      have hfm : f.fn ≠ .main := by simp [hf]
      refine instr_joinSleep hfn hcode hf hfcode hm hsw hfits
        (fun hi => heflags { g with code := i :: g.code } f [m] rfl hfn hfm ?_)
          (h.proceeds.masked (.inr ⟨hfn,f,rfl,hfm⟩)) (fun hk => ?_) hself hc
      · intro he
        exact hi (List.cons_eq_cons.mp he).1
      · rw [ne_eq,(show Rouses s s' u from hc.rouses u).dead_iff]
        exact halive _ f [m] u rfl hfn hf (.inl hk)
    | side hfn hcode hopen htower => exact instr_side hfn hcode hsw hopen htower hfits
  have hothers : ∀ t, t ≠ s.current → Owned s' joined t (s.stack t) ∧
      ∀ f ∈ (s.stack t).head?, Parked f (s'.thread t).state := fun t ht =>
    (h.others t ht).1.other (h.others t ht).2 hc.grows.created (fun u _ => hc.rouses u)
      fun u _ => hjoin t u
  refine ⟨fun t => ?_,fun t ht => ?_,?_⟩
  · rw [hc.stack]
    by_cases ht : t = s.current
    · subst ht
      rw [Function.update_self]
      exact hnew.1
    · rw [Function.update_of_ne ht]
      exact (hothers t ht).1
  · rw [hc.current] at ht
    rw [hc.stack,Function.update_of_ne ht]
    exact (hothers t ht).2
  · rw [hc.current,hc.stack,Function.update_self]
    exact hnew.2

theorem Parked.not_join {f : Frame} {state : ThreadState} (h : Parked f state) (u : Tid) :
    f.fn ≠ .join u := by
  cases state with
  | running => rcases h with ⟨h,-⟩ | ⟨h,-⟩ | h <;> simp [h]
  | sleeping => simp [h.1]
  | dead => simp [h.1]

/-- The stacks that can come to a dispatch. -/
theorem Tower.switch (h : Tower ({ g with code := i :: g.code } :: fs)) (hi : i.Switches) :
    (i = .exitSwitch ∧ g.fn = .exit ∧ g.code = [.deadWalking] ∧ ∃ m, fs = [m] ∧ m.Base) ∨
    (i = .sleepSwitch ∧ g.fn = .sleep ∧ g.code = [.assertRunning,.intrRestore] ∧ ∃ m, fs = [m] ∧
      m.Base) ∨ (i = .sleepSwitch ∧ g.fn = .sleep ∧ g.code = [.assertRunning,.intrRestore] ∧
      ∃ f m u, fs = [f,m] ∧ f.fn = .join u ∧ f.code = .joinLoop u :: joinTail u ∧ m.Base) ∨
    (i = .yieldSwitch ∧ g.fn = .yield ∧ g.code = [.intrRestore,.preemptEnableNoYield] ∧ ¬Closed fs ∧
      Tower fs) := by
  have hsleep : i :: g.code <:+ Fn.code .sleep → i = .sleepSwitch ∧
      g.code = [.assertRunning,.intrRestore] := by
    intro hcode
    rcases Instr.switches_iff.mp hi with rfl | rfl | rfl <;> simp_all [suffix_sleep]
  have hcode : i ∈ g.fn.code := by
    rcases h.mem_code (i := i) List.mem_cons_self with ho | hc
    · rcases Instr.switches_iff.mp hi with rfl | rfl | rfl <;> exact ho.elim
    · exact hc
  cases h with
  | main hfn _ =>
    rw [show g.fn = .main from hfn] at hcode
    rcases Instr.switches_iff.mp hi with rfl | rfl | rfl <;> simp [Fn.code] at hcode
  | @exit _ m hfn hk hm =>
    have hexit : i = .exitSwitch ∧ g.code = [.deadWalking] := by
      rcases Instr.switches_iff.mp hi with rfl | rfl | rfl <;> simp_all [suffix_exit]
    exact .inl ⟨hexit.1,hfn,hexit.2,m,rfl,hm⟩
  | @sleep _ m hfn hk hm =>
    obtain ⟨rfl,hrest⟩ := hsleep hk
    exact .inr (.inl ⟨rfl,hfn,hrest,m,rfl,hm⟩)
  | join hfn _ _ =>
    rw [show g.fn = .join _ from hfn] at hcode
    rcases Instr.switches_iff.mp hi with rfl | rfl | rfl <;> simp [Fn.code] at hcode
  | @joinSleep _ f m u hfn hk hf hfcode hm =>
    obtain ⟨rfl,hrest⟩ := hsleep hk
    exact .inr (.inr (.inl ⟨rfl,hfn,hrest,f,m,u,rfl,hf,hfcode,hm⟩))
  | side hfn hk hopen htower =>
    have hg : g.fn = .yield := by
      rcases Instr.switches_iff.mp hi with rfl | rfl | rfl
      · exact Fn.eq_home hcode rfl
      · exact absurd (Fn.eq_home hcode rfl) hfn.ne.2.1
      · exact absurd (Fn.eq_home hcode rfl) hfn.ne.2.2.1
    have hk : i :: g.code <:+ Fn.code .yield := hg ▸ hk
    have hyield : i = .yieldSwitch ∧ g.code = [.intrRestore,.preemptEnableNoYield] := by
      rcases Instr.switches_iff.mp hi with rfl | rfl | rfl <;> simp_all [suffix_yield]
    exact .inr (.inr (.inr ⟨hyield.1,hg,hyield.2,hopen,htower⟩))

/-- The state in which a dispatch leaves the thread that calls it. -/
def Instr.leaves : Instr → ThreadState
  | .sleepSwitch => .sleeping
  | .exitSwitch => .dead
  | _ => .running

theorem Instr.leaves_dead {i : Instr} (h : i.leaves = .dead) : i = .exitSwitch := by
  cases i with
  | exitSwitch => rfl
  | _ => cases h

/-- What a dispatch does to the threads. `thread_exit` wakes the joiner. -/
structure Leaves (s s' : State) (i : Instr) : Prop where
  joiner : ∀ u, (s'.thread u).joiner = (s.thread u).joiner
  rouses : ∀ u, u ≠ s.current → Rouses s s' u
  self : (s'.thread s.current).state = i.leaves
  wakes : i = .exitSwitch → ∀ u ∈ s.self.joiner, u ≠ s.current → (s'.thread u).state = .running

theorem Fetched.leaves (h : Fetched s i g fs) (hsw : i.Switches) (hexec : Sched.exec s i = .ok s') :
    Leaves s s' i := by
  have hs := h.sound
  have hidle : ¬i.Halting → s.current ≠ s.idle := fun hn he => hn (h.allowed.1 he)
  cases i with
  | yieldSwitch =>
    have hcore : Core (threadClearYield s s.current) :=
      hs.toCore.modify _ (fun _ => rfl) (fun _ => rfl) (hs.level_lt _) (hs.joiner_mem _)
    have hq := quiet_modify s s.current (f := fun th => { th with yield := false }) (fun _ => rfl)
      fun _ => rfl
    obtain ⟨-,-,hsame,-⟩ := hcore.schedule.of_ok hexec
    refine ⟨fun u => ?_,fun u _ => .inl ?_,?_,by simp⟩
    · rw [hsame.thread]
      exact modify_member Thread.joiner s.current u fun _ => rfl
    · rw [hsame.thread]
      exact hq.state u
    · rw [hsame.thread]
      exact (hq.state s.current).trans hs.running
  | sleepSwitch =>
    obtain ⟨-,hexec⟩ := assert_ok hexec
    obtain ⟨-,-,hsame,-⟩ := ((hs.toCore.block (hidle id) .sleeping).schedule).of_ok hexec
    refine ⟨fun u => ?_,fun u hu => .inl ?_,?_,by simp⟩
    · rw [hsame.thread,setState_thread]
    · rw [hsame.thread,setState_thread]
      simp [hu]
    · rw [hsame.thread,setState_thread]
      simp [Instr.leaves]
  | exitSwitch =>
    obtain ⟨-,hexec⟩ := assert_ok hexec
    have hcore := hs.toCore.block (hidle id) .dead
    have hself : (threadSetState s s.current .dead).self = { s.self with state := .dead } := by
      change (threadSetState s s.current .dead).thread s.current = _
      simp [setState_thread,State.self]
    have hlevel : (threadSetState s s.current .dead).self.preemptLevel ≠ 0 := by
      rw [hself]
      have := h.holds
      simp only [Holds] at this
      change s.self.preemptLevel ≠ 0
      omega
    have hwake := hcore.wakeup (hcore.joiner_mem s.current) hlevel
    change (threadWakeup (threadSetState s s.current .dead)
      (threadSetState s s.current .dead).self.joiner >>= threadRunqSchedule) = _ at hexec
    cases hw : threadWakeup (threadSetState s s.current .dead)
      (threadSetState s s.current .dead).self.joiner with
    | error e => rw [hw] at hexec; cases hexec
    | ok s₁ =>
      rw [hw] at hexec
      obtain ⟨hcore₁,hwakes,hawake⟩ := hwake.of_ok hw
      obtain ⟨-,-,hsame,-⟩ := hcore₁.schedule.of_ok hexec
      refine ⟨fun u => ?_,fun u hu => ?_,?_,fun _ u hu hne => ?_⟩
      · rw [hsame.thread,hwakes.joiner,setState_thread]
      · have hr := hwakes.rouses u
        rw [setState_thread] at hr
        rw [Rouses,hsame.thread]
        simpa [hu] using hr
      · rw [hsame.thread]
        exact hwakes.dead s.current (by simp [setState_thread])
      · rw [hsame.thread]
        exact hawake u (by rw [setState_thread]; exact hu) hne
  | _ => exact hsw.elim

theorem Leaves.dead (hl : Leaves s s' i) (hrun : s.self.state = .running) {u : Tid}
    (hu : (s.thread u).state = .dead) : (s'.thread u).state = .dead := by
  have hne : u ≠ s.current := by
    rintro rfl
    rw [← State.self,hrun] at hu
    cases hu
  exact (hl.rouses u hne).dead_iff.mpr hu

theorem Leaves.joiner_eq (hl : Leaves s s' i) {t u : Tid} (hu : (s.thread u).joiner = some t) :
    (s'.thread u).joiner = some t := (hl.joiner u).trans hu

/-- What another thread relies on holds after the switch. -/
theorem Loaded.switch_other (h : Loaded s joined i g fs) (hrun : s.self.state = .running)
    (hsw : Switched s s') (hl : Leaves s s' i) {t : Tid} (ht : t ≠ s.current) :
    Owned s' joined t (s.stack t) ∧ ∀ f ∈ (s.stack t).head?, Parked f (s'.thread t).state := by
  obtain ⟨ho,hp⟩ := h.others t ht
  refine ⟨ho.transport (fun u hu => hsw.created ▸ hu) (fun u _ _ => hl.joiner_eq)
    (fun u _ => hl.dead hrun) fun f f' l u he hs hj hk => ?_,
    fun f hf => (hp f hf).rouses (hl.rouses t ht)⟩
  by_cases hu : u = s.current
  · subst hu
    rw [hl.self]
    intro hd
    -- the current thread exits, and `t` is its joiner
    have hi : i = .exitSwitch := Instr.leaves_dead hd
    have hset : Instr.joinSet s.current ∉ f'.code := by
      have := ho.tower
      rw [he] at this
      cases this with
      | joinSleep _ _ hfn hcode _ =>
        rw [hfn] at hj
        cases hj
        simp [hcode,joinTail]
      | exit hfn _ _ => simp [hfn] at hs
      | sleep _ _ hm => simp [hm.1] at hj
      | join hfn _ _ => simp [hfn] at hs
      | side hfn _ _ _ => exact absurd hs hfn.ne.2.1
    have hjoiner := (ho.fits f' (by simp [he])).joiner s.current hj hset
    have hawake := hl.wakes hi t hjoiner ht
    have hparked := hp f (by simp [he])
    rcases hk with hk | hk
    · cases hst : (s.thread t).state with
      | running =>
        rw [hst] at hparked
        rcases hparked with ⟨hfn,-⟩ | ⟨-,hcode⟩ | hfn
        · simp [hfn] at hs
        · simp [hcode] at hk
        · simp [hfn] at hs
      | sleeping =>
        rw [hst] at hparked
        simp [hparked.2] at hk
      | dead =>
        rw [hst] at hparked
        simp [hparked.1] at hs
    · simp [hawake] at hk
  · rw [ne_eq,(hl.rouses u hu).dead_iff]
    exact ho.alive f f' l u he hs hj (hk.imp_right (hl.rouses t ht).sleeping)

/-- The thread that is left is parked. -/
theorem Loaded.switch_self (h : Loaded s joined i g fs) (hrun : s.self.state = .running)
    (hi : i.Switches) (hsw : Switched s s') (hl : Leaves s s' i) :
    Owned s' joined s.current (g :: fs) ∧ Parked g (s'.thread s.current).state := by
  obtain ⟨htower,hfit,heflags,halive⟩ := h.owned
  have hfits : ∀ f ∈ fs, f.Fits s' joined s.current := fun f hf =>
    (hfit f (List.mem_cons_of_mem _ hf)).transport (fun u hu => hsw.created ▸ hu)
      (fun u _ _ => hl.joiner_eq)
      fun u _ => hl.dead hrun
  rw [hl.self]
  rcases htower.switch hi with ⟨rfl,hfn,hrest,m,rfl,hm⟩ | ⟨rfl,hfn,hrest,m,rfl,hm⟩ |
    ⟨rfl,hfn,hrest,f,m,u,rfl,hf,hfcode,hm⟩ | ⟨rfl,hfn,hrest,hopen,htower⟩
  · refine ⟨(Tower.owned (.exit hfn (by simp [hrest,suffix_exit]) hm) ?_ fun f hf => ?_).1,hfn,hrest⟩
    · rintro (⟨u,hu,-⟩ | ⟨hs,-⟩)
      · simp [hfn] at hu
      · simp [hfn] at hs
    · rcases List.mem_cons.mp hf with rfl | hf
      · exact ⟨by simp [hfn,hrest],by simp [hfn],by simp [hfn],fun _ _ => hl.self⟩
      · exact hfits f hf
  · refine ⟨(Tower.owned (.sleep hfn (by simp [hrest,suffix_sleep]) hm) ?_ fun f hf => ?_).1,hfn,hrest⟩
    · rintro (⟨u,hu,-⟩ | ⟨-,f,hf,hfm⟩)
      · simp [hfn] at hu
      · obtain rfl : m = f := by simpa using hf
        exact hfm hm.1
    · rcases List.mem_cons.mp hf with rfl | hf
      · exact fits_plain (by simp [hfn]) (by simp [hrest]) (by simp [hfn])
      · exact hfits f hf
  · have hu := (hfit f (by simp)).called u (.inl hf)
    refine ⟨⟨.joinSleep hfn (by simp [hrest,suffix_sleep]) hf hfcode hm,fun f' hf' => ?_,?_,?_⟩,hfn,
      hrest⟩
    · rcases List.mem_cons.mp hf' with rfl | hf'
      · exact fits_plain (by simp [hfn]) (by simp [hrest]) (by simp [hfn])
      · exact hfits f' hf'
    · rintro f₁ f₂ l he - - -
      obtain ⟨rfl,-⟩ := List.cons_eq_cons.mp he
      exact heflags { g with code := .sleepSwitch :: g.code } f [m] rfl hfn (by simp [hf])
        (by simp [Fn.code])
    · rintro f₁ f₂ l v he - hv -
      obtain ⟨rfl,hl'⟩ := List.cons_eq_cons.mp he
      obtain ⟨rfl,-⟩ := List.cons_eq_cons.mp hl'
      obtain rfl : u = v := by simpa [hf] using hv
      rw [ne_eq,(hl.rouses u hu.2.1.symm).dead_iff]
      exact halive { g with code := .sleepSwitch :: g.code } f [m] u rfl hfn hf (.inl (by simp))
  · have hown := owned_side (by rw [hfn]; trivial) (by simp [hfn,hrest,suffix_yield]) hopen htower hfits
    exact ⟨hown.1,.inl ⟨hfn,hrest⟩⟩

theorem Loaded.switch (h : Loaded s joined i g fs) (hstack : s.stack s.current = g :: fs)
    (hrun : s.self.state = .running) (hi : i.Switches) (hsw : Switched s s') (hl : Leaves s s' i) :
    Joins s' joined := by
  have hself := h.switch_self hrun hi hsw hl
  refine ⟨fun t => ?_,fun t ht f hf => ?_,fun _ => hsw.intr.2,fun f hf u hu => ?_⟩
  · rw [hsw.stack]
    by_cases ht : t = s.current
    · subst ht
      rw [hstack]
      exact hself.1
    · exact (h.switch_other hrun hsw hl ht).1
  · rw [hsw.stack] at hf
    by_cases htc : t = s.current
    · subst htc
      rw [hstack] at hf
      obtain rfl : g = f := by simpa using hf
      exact hself.2
    · exact (h.switch_other hrun hsw hl htc).2 f hf
  · rw [hsw.stack] at hf
    have hparked : ∃ state, Parked f state := by
      by_cases htc : s'.current = s.current
      · rw [htc,hstack] at hf
        obtain rfl : g = f := by simpa using hf
        exact ⟨_,hself.2⟩
      · exact ⟨_,(h.switch_other hrun hsw hl htc).2 f hf⟩
    obtain ⟨state,hparked⟩ := hparked
    exact absurd hu (hparked.not_join u)

/-- A new thread has called nothing, and nobody waits for it. -/
theorem Loaded.create {p : ℕ} (h : Loaded s joined (.createLocked p) g fs)
    (hstack : s.stack s.current = g :: fs) (hs : Sound s) : Joins (born s p) joined := by
  have hcur : s.current ≠ s.next := fun he => lt_irrefl _ (he ▸ hs.next_fresh _ hs.current_mem)
  obtain ⟨hc,-,hcre,-,-,hst⟩ := born_fields s p
  have hth := born_thread p hcur
  have hold : ∀ u, u ≠ s.next → ((born s p).thread u).state = (s.thread u).state ∧
      ((born s p).thread u).joiner = (s.thread u).joiner := fun u hu => by simp [hth,hu]
  have hfresh : ∀ u ∈ s.created, u ≠ s.next := fun u hu => (hs.next_fresh u hu).ne
  have hmem : ∀ u ∈ s.created, u ∈ (born s p).created := fun u hu => hcre ▸ List.mem_cons_of_mem _ hu
  have hrouse : ∀ t, t ≠ s.next → ∀ u, u ∈ s.created ∨ u = t → Rouses s (born s p) u := fun t ht u hu =>
    .inl (hold u (hu.elim (hfresh u) fun he => he ▸ ht)).1
  have hjoin : ∀ t, ∀ u ∈ s.created, joined u = some t → (s.thread u).joiner = some t →
      ((born s p).thread u).joiner = some t := fun t u hu _ hj => (hold u (hfresh u hu)).2.trans hj
  have hothers : ∀ t, t ≠ s.current → t ≠ s.next → Owned (born s p) joined t (s.stack t) ∧
      ∀ f ∈ (s.stack t).head?, Parked f ((born s p).thread t).state := fun t ht htn =>
    (h.others t ht).1.other (h.others t ht).2 hmem (hrouse t htn) (hjoin t)
  have hfn : g.fn.Side := by
    rcases h.owned.tower.mem_code (i := .createLocked p) List.mem_cons_self with ho | hc
    · exact ho.elim
    · rw [Fn.eq_home hc rfl]
      trivial
  obtain ⟨hcode,htower,hopen⟩ := h.owned.tail hfn
  have hself : Owned (born s p) joined s.current _ ∧ Proceeds (born s p) _ :=
    owned_side hfn ((List.suffix_cons _ _).trans hcode) hopen htower
      fun f hf => (h.owned.fits f (List.mem_cons_of_mem _ hf)).transport hmem (hjoin s.current)
      fun u hu => (hrouse s.current hcur u hu).dead_iff.mpr
  refine ⟨fun t => ?_,fun t ht => ?_,?_⟩
  · rw [hst]
    by_cases htn : t = s.next
    · subst htn
      rw [Function.update_self]
      exact (owned_main rfl (List.suffix_refl _)).1
    · rw [Function.update_of_ne htn]
      by_cases htc : t = s.current
      · subst htc
        rw [hstack]
        exact hself.1
      · exact (hothers t htc htn).1
  · rw [hc] at ht
    rw [hst]
    by_cases htn : t = s.next
    · subst htn
      intro f hf
      rw [Function.update_self] at hf
      obtain rfl : _ = f := Option.some.inj hf
      rw [hth,if_pos rfl]
      exact .inr (.inr rfl)
    · rw [Function.update_of_ne htn]
      exact (hothers t ht htn).2
  · rw [hc,hst,Function.update_of_ne hcur,hstack]
    exact hself.2

theorem Joins.setStack (h : Joins s joined)
    (hfs : Owned (s.setStack fs) joined s.current fs ∧ Proceeds (s.setStack fs) fs) :
    Joins (s.setStack fs) joined := by
  refine ⟨fun t => ?_,fun t ht => ?_,?_⟩
  · by_cases htc : t = s.current
    · subst htc
      change Owned _ joined s.current (Function.update s.stack s.current fs s.current)
      rw [Function.update_self]
      exact hfs.1
    · have ho := h.owned t
      change Owned (s.setStack fs) joined t (Function.update s.stack s.current fs t)
      rw [Function.update_of_ne htc]
      exact ho.congr rfl rfl
  · have ht' : t ≠ s.current := ht
    have hp := h.parked t ht'
    change ∀ f ∈ (Function.update s.stack s.current fs t).head?, _
    rw [Function.update_of_ne ht']
    exact hp
  · change Proceeds _ (Function.update s.stack s.current fs s.current)
    rw [Function.update_self]
    exact hfs.2

theorem Joins.ret {f : Frame} (h : Joins s joined) (hstack : s.stack s.current = f :: fs)
    (hmain : f.fn ≠ .main) : Joins (s.setStack fs) joined := by
  have hown := h.owned s.current
  have hproc := h.runs
  rw [hstack] at hown hproc
  have hfits : ∀ g ∈ fs, g.Fits (s.setStack fs) joined s.current := fun g hg =>
    (hown.fits g (List.mem_cons_of_mem _ hg)).congr rfl rfl
  refine h.setStack ?_
  have htower := hown.tower
  cases htower with
  | main hfn _ => exact absurd hfn hmain
  | exit _ _ hm => exact hm.owned
  | sleep _ _ hm => exact hm.owned
  | join _ _ hm => exact hm.owned
  | @joinSleep _ g m u hfn _ hg hgcode hm =>
    refine owned_join hg (.inl (by simp [hgcode,suffix_join])) hm (hfits g (by simp)) (fun _ _ => ?_)
      (by simp [hgcode,joinTail])
    exact hproc.masked (.inr ⟨hfn,g,rfl,by simp [hg]⟩)
  | side _ _ hopen htower => exact htower.owned hopen hfits

theorem Joins.invoke {f : Frame} (h : Joins s joined) (hfn : f.fn = .main) (hown : i.Own)
    (hcalled : ∀ u, i = .call (.join u) → joined u = some s.current ∧ s.current ≠ u ∧ u ∈ s.created) :
    Joins (s.setStack [{ f with code := [i] }]) joined := by
  refine h.setStack ⟨⟨.main hfn (.inr ⟨i,rfl,hown⟩),fun g hg => ?_,by simp,by simp⟩,
    fun hc => absurd hc (not_closed_main hfn),by simp [hfn]⟩
  obtain rfl := List.mem_singleton.mp hg
  refine ⟨fun u hu => ?_,by simp [hfn],by simp [hfn],by simp [hfn]⟩
  rcases hu with hu | hu
  · simp [hfn] at hu
  · exact hcalled u (List.mem_singleton.mp hu).symm

/-- Somebody is joined for the first time. -/
theorem Joins.record (h : Joins s joined) (hnone : joined t = none) :
    Joins s (Function.update joined t (some s.current)) := by
  have hkeep : ∀ u v, joined u = some v → Function.update joined t (some s.current) u = some v :=
    fun u v hu => by
    have hut : u ≠ t := by
      rintro rfl
      simp [hnone] at hu
    rwa [Function.update_of_ne hut]
  refine ⟨fun v => ⟨(h.owned v).tower,fun f hf => ?_,(h.owned v).eflags,(h.owned v).alive⟩,h.parked,
    h.runs⟩
  have hfit := (h.owned v).fits f hf
  refine ⟨fun u hu => ?_,hfit.joiner,hfit.done,hfit.walking⟩
  obtain ⟨h1,h2⟩ := hfit.called u hu
  exact ⟨hkeep u v h1,h2⟩

theorem Joins.interrupt (h : Joins s joined) (hs : Sound s) (hintr : s.intr = true)
    {acts : List Act} (hact : ∀ t, Act.wake t ∈ acts → t ∈ s.created)
    (hmain : cpuIntrMain s acts = .ok s') : Joins s' joined := by
  obtain ⟨s₁,-,hw,-,rfl⟩ :=
    (interrupt_spec (W := fun _ => True) hs acts fun t ht => ⟨hact t ht,trivial⟩).of_ok hmain
  have hq := quiet_interrupted s
  have hrouse : ∀ u, Rouses s s₁ u := fun u => by
    have := hw.rouses u
    rwa [hq.state] at this
  have hjoiner : ∀ u, (s₁.thread u).joiner = (s.thread u).joiner := fun u => by
    rw [hw.joiner,State.interrupted,setLevel_thread]
  have hcre : s₁.created = s.created := hw.created
  have hstack : s₁.stack = s.stack := hw.stack
  have hcur : s₁.current = s.current := hw.current
  have hopen : ¬Closed (s.stack s.current) := fun hc => by
    have := h.runs.masked hc
    simp [hintr] at this
  have hfits : ∀ f ∈ s.stack s.current, f.Fits s₁ joined s.current := fun f hf =>
    ((h.owned s.current).fits f hf).transport (fun u hu => hcre ▸ hu)
      (fun u _ _ hj => (hjoiner u).trans hj)
      fun u _ => (hrouse u).dead_iff.mpr
  have hcurrent := (h.owned s.current).tower.owned hopen hfits
  have hothers : ∀ t, t ≠ s.current → Owned s₁ joined t (s.stack t) ∧
      ∀ f ∈ (s.stack t).head?, Parked f (s₁.thread t).state := fun t ht =>
    (h.owned t).other (h.parked t ht) (fun u hu => hcre ▸ hu) (fun u _ => hrouse u)
      fun u _ _ hj => (hjoiner u).trans hj
  have h₁ : Joins s₁ joined := by
    refine ⟨fun t => ?_,fun t ht => ?_,?_⟩
    · rw [hstack]
      by_cases htc : t = s.current
      · subst htc
        exact hcurrent.1
      · exact (hothers t htc).1
    · rw [hcur] at ht
      rw [hstack]
      exact (hothers t ht).2
    · rw [hcur,hstack]
      exact hcurrent.2
  refine h₁.setStack (owned_side (f := ⟨.intr,true,false,Fn.code .intr⟩) trivial
    (List.suffix_refl _) hopen (h.owned s.current).tower fun f hf => ?_)
  rw [hcur]
  exact (hfits f hf).congr rfl rfl

/-! ## Runs -/

theorem Joins.loaded {f : Frame} {k : List Instr} (h : Joins s joined)
    (hstack : s.stack s.current = f :: fs) (hcode : f.code = i :: k) :
    Loaded (s.setStack ({ f with code := k } :: fs)) joined i { f with code := k } fs := by
  obtain ⟨fn,callIntr,eflags,code⟩ := f
  obtain rfl : code = i :: k := hcode
  have hown := h.owned s.current
  have hproc := h.runs
  rw [hstack] at hown hproc
  refine ⟨hown.congr rfl rfl,⟨hproc.masked,hproc.waiting⟩,fun t ht => ?_⟩
  have ht' : t ≠ s.current := ht
  have hst : (s.setStack (⟨fn,callIntr,eflags,k⟩ :: fs)).stack t = s.stack t :=
    Function.update_of_ne ht' _ _
  rw [hst]
  exact ⟨(h.owned t).congr rfl rfl,h.parked t ht'⟩

theorem Joins.threadStep (h : Joins s joined) (hs : Sound s) (hl : Leveled s)
    (hstep : ThreadStep s s')
    (hcalled : ∀ u, Invokes s s' (.call (.join u)) → joined u = some s.current ∧ s.current ≠ u ∧
      u ∈ s.created) : Joins s' joined := by
  cases hstep with
  | @instr _ f fs i k hstack hcode hexec =>
    have hf := Fetched.of_stack hs hl hstack hcode
    have hload := h.loaded hstack hcode
    by_cases hsw : i.Switches
    · exact hload.switch hf.stack hf.sound.running hsw ((hf.exec.of_ok hexec).2.2 hsw)
        (hf.leaves hsw hexec)
    by_cases hcr : ∃ p, i = .createLocked p
    · obtain ⟨p,rfl⟩ := hcr
      obtain ⟨rfl,-⟩ := (hf.sound.create (hf.leveled rfl (by simp)) p).of_ok hexec
      exact hload.create hf.stack hf.sound
    · exact hload.instr hsw (hf.controlled hsw (fun p hp => hcr ⟨p,hp⟩) hexec) hf.sound.running
  | ret hstack _ hmain => exact h.ret hstack hmain
  | @invoke f i hstack hfn hcode hidle hapi =>
    refine h.invoke hfn hapi.own ?_
    rintro u rfl
    exact hcalled u ⟨f,hstack,hfn,hcode,rfl⟩

theorem Boots.joins (h : Boots s) (he : threadEnableScheduler s = .ok s') : Joins s' fun _ => none := by
  obtain ⟨-,-,-,hstack,hstate⟩ := h.enable.of_ok he
  have hmain (t : Tid) : Owned s' (fun _ => none) t [⟨.main,false,false,Fn.code .main⟩] ∧
      Proceeds s' [⟨.main,false,false,Fn.code .main⟩] := owned_main rfl (List.suffix_refl _)
  refine ⟨fun t => ?_,fun t ht f hf => ?_,?_⟩
  · rw [hstack]
    exact (hmain t).1
  · rw [hstack] at hf
    obtain rfl : _ = f := Option.some.inj hf
    rw [hstate]
    exact .inr (.inr rfl)
  · rw [hstack]
    exact (hmain s'.current).2

end Steps

theorem JoinedOnce.joins {s : State} {joined : Tid → Option Tid} (h : JoinedOnce s joined) :
    Joins s joined := by
  induction h with
  | enable hb he => exact hb.boots.joins he
  | step hr hstep hno ih =>
    obtain ⟨hs,hl⟩ := hr.reachable.sound
    cases hstep with
    | thread hstep => exact ih.threadStep hs hl hstep fun u hu => absurd hu (hno u)
    | interrupt acts hintr hact hmain => exact ih.interrupt hs hintr hact hmain
  | join _ _ hfn _ _ hmem hne hnone ih =>
    refine (ih.record hnone).invoke hfn trivial fun u hu => ?_
    cases hu
    exact ⟨Function.update_self ..,hne.symm,hmem⟩

/-! ## What follows -/

/-- The thread is inside `thread_join(t)`. -/
def InsideJoin (s : State) (j t : Tid) : Prop := ∃ f ∈ s.stack j, f.fn = .join t

/-- The thread has left through the dispatch of its `thread_exit`, and was not resumed. -/
def SwitchedAway (s : State) (t : Tid) : Prop :=
  ∃ f fs, s.stack t = f :: fs ∧ f.fn = .exit ∧ f.code = [.deadWalking]

theorem Tower.destroy {f : Frame} {fs : List Frame} {t : Tid} {k : List Instr} (h : Tower (f :: fs))
    (hk : f.code = .destroy t :: k) : f.fn = .join t ∧ k = [] := by
  have hfn : f.fn = .join t := by
    rcases h.mem_code (i := .destroy t) (by simp [hk]) with ho | hc
    · exact ho.elim
    · exact Fn.eq_home hc rfl
  cases h with
  | join hj hcode _ =>
    cases hfn.symm.trans hj
    rcases hcode with hcode | hcode
    · rcases suffix_join.mp hcode with hc | hc | hc | hc | hc | hc | hc | hc <;> simp_all [joinTail]
    · simp [hk] at hcode
  | main hm _ => simp [hfn] at hm
  | exit he _ _ => simp [hfn] at he
  | sleep hs _ _ => simp [hfn] at hs
  | joinSleep hs _ _ _ _ => simp [hfn] at hs
  | side hside _ _ _ => exact absurd hfn (hside.ne.1 t)

theorem Tower.deadWalking {f : Frame} {fs : List Frame} {k : List Instr} (h : Tower (f :: fs))
    (hk : f.code = .deadWalking :: k) : f.fn = .exit ∧ k = [] := by
  have hfn : f.fn = .exit := by
    rcases h.mem_code (i := .deadWalking) (by simp [hk]) with ho | hc
    · exact ho.elim
    · exact Fn.eq_home hc rfl
  cases h with
  | exit _ hcode _ => rcases suffix_exit.mp hcode with hc | hc | hc | hc | hc | hc <;> simp_all
  | main hm _ => simp [hfn] at hm
  | sleep hs _ _ => simp [hfn] at hs
  | join hj _ _ => simp [hfn] at hj
  | joinSleep hs _ _ _ _ => simp [hfn] at hs
  | side hside _ _ _ => exact absurd hfn hside.ne.2.2.1

theorem Tower.exists_cons {fs : List Frame} (h : Tower fs) : ∃ f l, fs = f :: l := by
  cases h <;> exact ⟨_,_,rfl⟩

/-- A thread that does not run is awake if it is inside `thread_join` of a dead thread. -/
theorem Joins.awake {s : State} {joined : Tid → Option Tid} (h : Joins s joined)
    (hrun : s.self.state = .running) {j t : Tid} (hdead : (s.thread t).state = .dead)
    (hin : InsideJoin s j t) : (s.thread j).state = .running := by
  by_cases hj : j = s.current
  · rw [hj]
    exact hrun
  obtain ⟨f,hf,hfn⟩ := hin
  have htower := (h.owned j).tower
  obtain ⟨g,l,hstack⟩ := htower.exists_cons
  have hparked := h.parked j hj g (by simp [hstack])
  rw [hstack] at hf htower
  cases hst : (s.thread j).state with
  | running => rfl
  | sleeping =>
    rw [hst] at hparked
    have hg : g.fn = .sleep := hparked.1
    cases htower with
    | @joinSleep _ f' m u _ _ hf' _ hm =>
      have hft : f = f' := by
        rcases List.mem_cons.mp hf with rfl | hf
        · simp [hg] at hfn
        rcases List.mem_cons.mp hf with rfl | hf
        · rfl
        · obtain rfl := List.mem_singleton.mp hf
          simp [hm.1] at hfn
      subst hft
      exact absurd hdead ((h.owned j).alive g f [m] t hstack hg hfn (.inr hst))
    | @sleep _ m _ _ hm =>
      rcases List.mem_cons.mp hf with rfl | hf
      · simp [hg] at hfn
      · obtain rfl := List.mem_singleton.mp hf
        simp [hm.1] at hfn
    | main hm _ => simp [hg] at hm
    | exit he _ _ => simp [hg] at he
    | join hjn _ _ => simp [hg] at hjn
    | side hside _ _ _ => exact absurd hg hside.ne.2.1
  | dead =>
    rw [hst] at hparked
    have hg : g.fn = .exit := hparked.1
    cases htower with
    | @exit _ m _ _ hm =>
      rcases List.mem_cons.mp hf with rfl | hf
      · simp [hg] at hfn
      · obtain rfl := List.mem_singleton.mp hf
        simp [hm.1] at hfn
    | main hm _ => simp [hg] at hm
    | sleep he _ _ => simp [hg] at he
    | join hjn _ _ => simp [hg] at hjn
    | joinSleep he _ _ _ _ => simp [hg] at he
    | side hside _ _ _ => exact absurd hg hside.ne.2.2.1

/-- What is destroyed is dead, does not run, is in no list and has left for good. No dead thread runs,
so that the end of `thread_exit` is not reached. Who is inside `thread_join` of a dead thread is
awake. -/
theorem exit_join_safe (s : State) (joined : Tid → Option Tid) (h : JoinedOnce s joined) :
    (∀ f fs t k, s.stack s.current = f :: fs → f.code = .destroy t :: k →
      (s.thread t).state = .dead ∧ t ≠ s.current ∧ ¬Linked s t ∧ SwitchedAway s t) ∧
    (s.self.state ≠ .dead ∧ ∀ f fs k, s.stack s.current = f :: fs → f.code ≠ .deadWalking :: k) ∧
    (∀ j t, (s.thread t).state = .dead → InsideJoin s j t → (s.thread j).state = .running) := by
  obtain ⟨hs,-⟩ := h.reachable.sound
  have hj := h.joins
  have hrun : (s.thread s.current).state = .running := hs.running
  refine ⟨fun f fs t k hstack hcode => ?_,⟨by rw [hs.running]; simp,fun f fs k hstack hcode => ?_⟩,
    fun j t => hj.awake hs.running⟩
  · have hown := hj.owned s.current
    rw [hstack] at hown
    obtain ⟨hfn,rfl⟩ := hown.tower.destroy hcode
    have hdead := (hown.fits f (by simp)).done t hfn (by simp [hcode])
    have hne : t ≠ s.current := by
      rintro rfl
      simp [hrun] at hdead
    refine ⟨hdead,hne,fun hlinked => ?_,?_⟩
    · obtain ⟨queue,hq⟩ := hs.queued
      have := ((hq.mem_iff _ t).mp ((hq.linked_iff t).mp hlinked)).2.2.1
      simp [hdead] at this
    · obtain ⟨g,l,hst⟩ := (hj.owned t).tower.exists_cons
      have hparked := hj.parked t hne g (by simp [hst])
      rw [hdead] at hparked
      exact ⟨g,l,hst,hparked⟩
  · have hown := hj.owned s.current
    rw [hstack] at hown
    obtain ⟨hfn,rfl⟩ := hown.tower.deadWalking hcode
    have := (hown.fits f (by simp)).walking hfn hcode
    simp [hrun] at this

/-! ## A join written out -/

/-- A move of a run in which each thread is joined at most once. -/
def Move.once (run : State × (Tid → Option Tid)) (m : Move) : Option (State × (Tid → Option Tid)) := do
  let s ← m.run run.1
  match m with
  | .step => return (s,run.2)
  | .begin (.call (.join t)) =>
    if t ∈ run.1.created ∧ t ≠ run.1.current ∧ run.2 t = none
    then return (s,Function.update run.2 t (some run.1.current)) else none
  | .begin (.call .exit) => return (s,run.2)
  | _ => none

theorem Move.joinedOnce {m : Move} {run run' : State × (Tid → Option Tid)} (h : JoinedOnce run.1 run.2)
    (hm : m.once run = some run') : JoinedOnce run'.1 run'.2 := by
  obtain ⟨s,hs,hm⟩ := Option.bind_eq_some_iff.mp hm
  split at hm
  · cases hm
    refine .step h (Move.step_run (m := .step) (by simp) hs) ?_
    rintro t ⟨f,hstack,hfn,hcode,-⟩
    simp [Move.run,hstack,hfn,hcode] at hs
  · next t =>
    split at hm
    · next hc =>
      cases hm
      simp only [Move.run] at hs
      split at hs
      · next f hstack =>
        split at hs
        · next hf =>
          cases hs
          exact .join h hstack hf.1 hf.2.1 hf.2.2 hc.1 hc.2.1 hc.2.2
        · cases hs
      · cases hs
    · cases hm
  · cases hm
    refine .step h (Move.step_run (m := .begin (.call .exit)) (by simp [Instr.Api]) hs) ?_
    rintro t ⟨f,hstack,hfn,hcode,heq⟩
    simp only [Move.run,hstack] at hs
    split at hs
    · cases hs
      have := congrFun (congrArg State.stack heq) run.1.current
      simp [State.setStack] at this
    · cases hs
  · cases hm

/-- Thread 3 joins thread 2 and sleeps. Thread 2 exits, and 3 comes to destroy it. -/
def joinMoves : List Move :=
  List.replicate 6 .step ++ [.begin (.call (.join 2))] ++ List.replicate 14 .step ++
    [.begin (.call .exit)] ++ List.replicate 14 .step

theorem exit_join_sample : ∃ s joined f fs k, JoinedOnce s joined ∧ s.stack s.current = f :: fs ∧
    f.code = .destroy 2 :: k ∧ (s.thread 2).state = .dead ∧ 2 ≠ s.current ∧ ¬Linked s 2 ∧ SwitchedAway s 2 := by
  have hrun : ((bootWith [5,7]).toOption.bind fun s =>
      (joinMoves.foldlM Move.once (s,fun _ => none)).map fun x =>
        decide ((x.1.stack x.1.current).head?.map (·.code) = some [.destroy 2])) = some true := by
    decide +kernel
  obtain ⟨s₀,h₀,hrun⟩ := Option.bind_eq_some_iff.mp hrun
  obtain ⟨⟨s,joined⟩,hs,hv⟩ := Option.map_eq_some_iff.mp hrun
  obtain ⟨f,hf,hcode⟩ := Option.map_eq_some_iff.mp (of_decide_eq_true hv)
  obtain ⟨fs,hstack⟩ := List.head?_eq_some_iff.mp hf
  obtain ⟨b,hb,he⟩ := exists_booting (ok_of_toOption h₀)
  have honce : JoinedOnce s joined := foldlM_keeps (P := fun x => JoinedOnce x.1 x.2)
    (fun m _ x x' hx h => Move.joinedOnce hx h) (.enable hb he) hs
  exact ⟨s,joined,f,fs,[],honce,hstack,hcode,(exit_join_safe s joined honce).1 f fs 2 [] hstack hcode⟩

end X1.Sched
