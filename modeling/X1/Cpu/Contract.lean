import X1.Cpu.Invariant

/-! # Switches and interrupts are transparent

What a thread gets back when it is resumed or returns from an interrupt, after any number of
steps of the other threads, and how a new thread begins.
-/
namespace X1.Cpu
open X1 Relation

section
variable {T : Type} [DecidableEq T] {L : Layout T} {I : Image} {s s' : State T} {t : T}

/-! ## Contexts -/

/-- A thread that is not resumed keeps its context, and what it is born with. -/
theorem Step.keeps_saved (hstep : Step L I s s') (h : Inv L I s) {c : Context} (hs : s.saved t = some c)
    (hne : s'.current ≠ some t) : s'.saved t = some c ∧ s'.born t = s.born t := by
  have hcur : s.current ≠ some t := by
    intro hc
    have := h.running t hc
    simp [hs] at this
  cases hstep with
  | compute hw => exact ⟨hs,rfl⟩
  | @create u fn arg sp mem hc hf =>
    have htu : t ≠ u := by
      rintro rfl
      exact hc (.inl (by rw [hs]; rfl))
    exact ⟨(Function.update_of_ne htu _ _).trans hs,Function.update_of_ne htu _ _⟩
  | @load u hnone hsome harg =>
    have htu : t ≠ u := by
      rintro rfl
      exact hne rfl
    exact ⟨(Function.update_of_ne htu _ _).trans hs,Function.update_of_ne htu _ _⟩
  | @switch v u back hcall hsome =>
    have htu : t ≠ u := by
      rintro rfl
      exact hne rfl
    have htv : t ≠ v := by
      rintro rfl
      exact hcur hcall.current
    refine ⟨?_,Function.update_of_ne htu _ _⟩
    change Function.update (Function.update s.saved v _) u none t = _
    rw [Function.update_of_ne htu,Function.update_of_ne htv]
    exact hs
  | interrupt stub handler hi => exact ⟨hs,rfl⟩
  | iret flags flags' hc hp hesp => exact ⟨hs,rfl⟩

/-- A thread that is resumed is in its context, and its stack is what it left. -/
theorem Step.resumes (hstep : Step L I s s') (h : Inv L I s) {c : Context} (hs : s.saved t = some c)
    (hcur : s'.current = some t) :
    Context.of s'.machine s'.machine.eip = c ∧ Untouched L s.machine.mem s'.machine.mem t := by
  have hne : s.current ≠ some t := by
    intro hc
    have := h.running t hc
    simp [hs] at this
  cases hstep with
  | compute hw => exact absurd hcur hne
  | create hc hf => exact absurd hcur hne
  | @load u hnone hsome harg =>
    obtain rfl : u = t := by simpa using hcur
    obtain ⟨hctx,hmem⟩ := h.load_mem hs harg
    refine ⟨hctx,?_⟩
    change Untouched L s.machine.mem (run threadLoadContext s.machine).mem u
    rw [hmem]
    exact ⟨rfl,fun _ _ _ => rfl⟩
  | @switch v u back hcall hsome =>
    obtain rfl : u = t := by simpa [State.switch] using hcur
    obtain ⟨hctx,-,hother⟩ := h.switch_mem hcall hs back
    exact ⟨hctx,hother u hcall.ne⟩
  | interrupt stub handler hi => exact absurd hcur hne
  | iret flags flags' hc hp hesp => exact absurd hcur hne

theorem saved_of_run (h : Reachable L I s) {c : Context} (hs : s.saved t = some c)
    (hrun : ReflTransGen (fun a b => Step L I a b ∧ b.current ≠ some t) s s') :
    Reachable L I s' ∧ s'.saved t = some c ∧ s'.born t = s.born t := by
  induction hrun with
  | refl => exact ⟨h,hs,rfl⟩
  | tail _ hstep ih =>
    obtain ⟨hr,hsaved,hborn⟩ := ih
    obtain ⟨hsaved',hborn'⟩ := hstep.1.keeps_saved hr.inv hsaved hstep.2
    exact ⟨hr.step hstep.1,hsaved',hborn'.trans hborn⟩

/-! ## Interrupts -/

theorem Step.pending_cases (hstep : Step L I s s') (h : Inv L I s) (t : T) :
    s'.pending t = s.pending t ∨ (∃ m, s'.pending t = m :: s.pending t) ∨
      ∃ m, s.pending t = m :: s'.pending t ∧ s'.current = some t ∧
        s'.machine = { m with mem := s'.machine.mem } := by
  cases hstep with
  | compute hw => exact .inl rfl
  | create hc hf => exact .inl rfl
  | load hnone hsome harg => exact .inl rfl
  | switch back hcall hsome => exact .inl rfl
  | @interrupt u stub handler hi =>
    by_cases htu : t = u
    · subst htu
      exact .inr (.inl ⟨s.machine,Function.update_self ..⟩)
    · exact .inl (Function.update_of_ne htu _ _)
  | @iret u m ms flags flags' hc hp hesp =>
    by_cases htu : t = u
    · subst htu
      refine .inr (.inr ⟨m,?_,hc,?_⟩)
      · rw [hp]
        change m :: ms = m :: Function.update s.pending t ms t
        rw [Function.update_self]
      · change s.machine.leaveIntr flags flags' = { m with mem :=
          (s.machine.leaveIntr flags flags').mem }
        rw [h.iret_eq flags flags' hp hesp]
    · exact .inl (Function.update_of_ne htu _ _)

theorem pending_of_run (h : Reachable L I s) {m : Machine} {ms : List Machine}
    (hs : m :: ms <:+ s.pending t)
    (hrun : ReflTransGen (fun a b => Step L I a b ∧ ms.length < (b.pending t).length) s s') :
    Reachable L I s' ∧ m :: ms <:+ s'.pending t := by
  induction hrun with
  | refl => exact ⟨h,hs⟩
  | @tail a b _ hstep ih =>
    obtain ⟨hr,hsuffix⟩ := ih
    refine ⟨hr.step hstep.1,?_⟩
    rcases hstep.1.pending_cases hr.inv t with hp | ⟨m',hp⟩ | ⟨m',hp,-⟩
    · rw [hp]
      exact hsuffix
    · rw [hp]
      exact hsuffix.trans (List.suffix_cons m' _)
    · rw [hp,List.suffix_cons_iff] at hsuffix
      rcases hsuffix with heq | hsuffix
      · have hlen := hstep.2
        rw [(List.cons.inj heq).2] at hlen
        exact absurd hlen (lt_irrefl _)
      · exact hsuffix

/-- Entry of `thread_main` by a thread with a forged stack. -/
structure Starts (L : Layout T) (I : Image) (t : T) (fn arg : ℕ) (m : Machine) : Prop where
  eip : m.eip = I.threadMain
  fn : m.mem (m.reg .esp + 4) = fn
  arg : m.mem (m.reg .esp + 8) = arg
  intr : m.eflags &&& CPU_EFL_IF = 0
  stack : L.stack t ≤ m.reg .esp ∧ m.reg .esp < L.top t

omit [DecidableEq T] in
theorem starts_of_forged {m : Machine} {fn arg : ℕ} (hctx : Context.of m m.eip = .forged I (L.top t))
    (hfn : m.mem (L.top t - 8) = fn) (harg : m.mem (L.top t - 4) = arg) :
    Starts L I t fn arg (run (threadStart I) m) := by
  have hsize := L.size_min t
  have hfits := L.fits t
  have htop : L.top t = L.stack t + L.size t := rfl
  have hesp : m.reg .esp = L.top t - 8 := congrArg Context.esp hctx
  have hflags : m.eflags = CPU_EFL_ONE := congrArg Context.eflags hctx
  have hsub : Word.sub (m.reg .esp) 4 = L.top t - 12 := by
    rw [hesp]
    unfold Word.sub
    omega
  have hrun : run (threadStart I) m = { m.pushWord I.afterThreadMain with eip := I.threadMain } := rfl
  have hreg : (run (threadStart I) m).reg .esp = L.top t - 12 := by
    rw [hrun]
    change (m.pushWord I.afterThreadMain).reg .esp = _
    rw [Machine.pushWord_reg,if_pos rfl,hsub]
  have hmem : ∀ a, a ≠ L.top t - 12 → (run (threadStart I) m).mem a = m.mem a := by
    intro a ha
    rw [hrun]
    change (m.pushWord I.afterThreadMain).mem a = _
    rw [Machine.pushWord_mem,hsub,if_neg ha]
  refine ⟨rfl,?_,?_,?_,?_⟩
  · rw [hreg,hmem _ (by omega),show L.top t - 12 + 4 = L.top t - 8 by omega]
    exact hfn
  · rw [hreg,hmem _ (by omega),show L.top t - 12 + 8 = L.top t - 4 by omega]
    exact harg
  · change m.eflags &&& CPU_EFL_IF = 0
    rw [hflags]
    rfl
  · rw [hreg]
    omega

end

/-- In every run, on any layout: a thread that was created enters `thread_main` with its arguments, with
interrupts disabled, on its own stack, when it is first switched to; a thread that called
`thread_switch_context` and is switched to again returns from its call with the registers it had; and
an interrupt returns to the interrupted instruction with all registers as they were, whatever ran in
between. -/
theorem switches_transparent {T : Type} [DecidableEq T] (L : Layout T) (I : Image) :
    (∀ s, Reachable L I s → ∀ t fn arg, ¬Created s t →
      ∃ mem sp, threadStackForge I s.machine.mem (L.stack t) (L.size t) fn arg = some (mem,sp) ∧
      ∀ s₂ s₃, ReflTransGen (fun a b => Step L I a b ∧ b.current ≠ some t) (s.create L I t fn arg sp mem) s₂ →
        Step L I s₂ s₃ → s₃.current = some t →
        s₃.machine.eip = I.threadStart ∧ Starts L I t fn arg (run (threadStart I) s₃.machine)) ∧
    (∀ s, Reachable L I s → ∀ t u back s₂ s₃, Calls L s t u → (s.saved u).isSome = true →
      ReflTransGen (fun a b => Step L I a b ∧ b.current ≠ some t) (s.switch t u back) s₂ →
      Step L I s₂ s₃ → s₃.current = some t →
      Context.of s₃.machine s₃.machine.eip = Context.of s.machine back) ∧
    ∀ s, Reachable L I s → ∀ t stub handler s₂ s₃, Interruptible L s t →
      ReflTransGen (fun a b => Step L I a b ∧ (s.pending t).length < (b.pending t).length)
        (s.interrupt I t stub handler) s₂ →
      Step L I s₂ s₃ → (s₃.pending t).length = (s.pending t).length →
      s₃.current = some t ∧ s₃.machine = { s.machine with mem := s₃.machine.mem } := by
  refine ⟨fun s h t fn arg hc => ?_,fun s h t u back s₂ s₃ hcall hsome hrun hstep hcur => ?_,
    fun s h t stub handler s₂ s₃ hi hrun hstep hlen => ?_⟩
  · obtain ⟨mem,hf,-⟩ := forge_spec I s.machine.mem fn arg (L.size_min t)
      (show L.stack t + L.size t = L.top t from rfl) (L.fits t)
    refine ⟨mem,_,hf,fun s₂ s₃ hrun hstep hcur => ?_⟩
    have hsaved : (s.create L I t fn arg (L.top t - 32) mem).saved t = some (.forged I (L.top t)) :=
      Function.update_self ..
    obtain ⟨hr,hs,hborn⟩ := saved_of_run (h.step (.create hc hf)) hsaved hrun
    have hb : s₂.born t = some (fn,arg) := hborn.trans (Function.update_self ..)
    obtain ⟨-,hfn,harg⟩ := (hr.inv.kept t).born fn arg hb
    obtain ⟨hctx,hu⟩ := hstep.resumes hr.inv hs hcur
    have hsize := L.size_min t
    have htop : L.top t = L.stack t + L.size t := rfl
    refine ⟨congrArg Context.eip hctx,starts_of_forged hctx ?_ ?_⟩
    · rw [hu.2 _ (by omega) (by omega)]
      exact hfn
    · rw [hu.2 _ (by omega) (by omega)]
      exact harg
  · have hsaved : (s.switch t u back).saved t = some (.of s.machine back) := by
      change Function.update (Function.update s.saved t _) u none t = _
      rw [Function.update_of_ne (Ne.symm hcall.ne),Function.update_self]
    obtain ⟨hr,hs,-⟩ := saved_of_run (h.step (.switch back hcall hsome)) hsaved hrun
    exact (hstep.resumes hr.inv hs hcur).1
  · have hpending : s.machine :: s.pending t <:+ (s.interrupt I t stub handler).pending t := by
      have hself := Function.update_self t (s.machine :: s.pending t) s.pending
      exact ⟨[],hself.symm⟩
    obtain ⟨hr,hsuffix⟩ := pending_of_run (h.step (.interrupt stub handler hi)) hpending hrun
    have hle := hsuffix.length_le
    rw [List.length_cons] at hle
    rcases hstep.pending_cases hr.inv t with hp | ⟨m,hp⟩ | ⟨m,hp,hcur,hmachine⟩
    · rw [hp] at hlen
      omega
    · rw [hp,List.length_cons] at hlen
      omega
    · have heq : s.machine :: s.pending t = s₂.pending t := by
        refine hsuffix.eq_of_length_le ?_
        rw [hp,List.length_cons,List.length_cons,hlen]
      rw [hp] at heq
      obtain ⟨rfl,-⟩ := List.cons.inj heq
      exact ⟨hcur,hmachine⟩

/-! ## Two threads -/

/-- Two structures, and two stacks of 256 bytes. -/
def twoThreads : Layout Bool where
  thread := fun t => if t then 0x1100 else 0x1000
  stack := fun t => if t then 0x3000 else 0x2000
  size := fun _ => 0x100
  thread_lt := by decide
  thread_aligned := by decide
  thread_injective := fun t u h => by revert h; revert t u; decide
  stack_aligned := by decide
  size_aligned := by decide
  size_min := by decide
  fits := by decide
  disjoint := by decide
  apart := by decide

def sampleImage : Image := ⟨0x101000,0x102000,0x103000,0x104000,0x103005⟩

/-- The boot code is about to load the context of the first thread. -/
def bootState : State Bool where
  machine := ⟨fun _ => 0x8000,0x100000,8,2,fun a => if a = 0x8004 then 0x1000 else 0⟩
  current := none
  saved := fun _ => none
  pending := fun _ => []
  born := fun _ => none

theorem create_mem (s : State Bool) (t : Bool) (fn arg sp : ℕ) (mem : ℕ → ℕ) {a : ℕ}
    (ha : a ≠ twoThreads.thread t) :
    (s.create twoThreads sampleImage t fn arg sp mem).machine.mem a = mem a := by
  simp [State.create,ha]

theorem bootState_reachable : Reachable twoThreads sampleImage bootState :=
  .init ⟨rfl,fun _ => rfl,fun _ => rfl,fun _ => rfl⟩

/-- The running thread puts the arguments for a call on its stack, at an offset. -/
theorem sample_prepare {s : State Bool} {t : Bool} {o : ℕ} (hcur : s.current = some t)
    (ho : o % 4 = 0 ∧ 56 ≤ o ∧ o ≤ 0xf8) (hlimit : twoThreads.stack t + o + 8 ≤ limit twoThreads t (s.pending t)) :
    ∃ m : Machine, m.reg .esp = twoThreads.stack t + o ∧ Step twoThreads sampleImage s { s with machine := m } ∧
      Calls twoThreads { s with machine := m } t (!t) ∧ Interruptible twoThreads { s with machine := m } t := by
  let e := twoThreads.stack t + o
  let m : Machine := ⟨fun _ => e,0,8,2,Function.update
    (Function.update s.machine.mem e (twoThreads.thread t)) (e + 4) (twoThreads.thread !t)⟩
  -- The two words are on the stack of the thread, and far enough from its ends.
  have hstack : ∀ t : Bool, twoThreads.stack t % 4 = 0 ∧ 0x2000 ≤ twoThreads.stack t ∧ twoThreads.stack t ≤ 0x3000 := by
    decide
  have htop : twoThreads.top t = twoThreads.stack t + 0x100 := rfl
  have hthread : ∀ u : Bool, twoThreads.thread u < 0x2000 := by decide
  obtain ⟨haligned,hlow,hhigh⟩ := hstack t
  obtain ⟨ho₄,hroom,hbelow⟩ := ho
  refine ⟨m,rfl,.compute fun a ha u _ => ?_,⟨hcur,by simp,?_,?_,hlimit,?_,?_⟩,⟨hcur,?_,?_,?_,?_⟩⟩
  · have hae : a = e ∨ a = e + 4 := by
      by_contra hn
      push Not at hn
      exact ha ((Function.update_of_ne hn.2 _ _).trans (Function.update_of_ne hn.1 _ _))
    have hu := hthread u
    refine ⟨by omega,fun h₁ h₂ => ?_⟩
    have hbounds : twoThreads.stack t ≤ a ∧ a < twoThreads.top t := by omega
    obtain rfl : u = t := by
      by_contra hut
      have := twoThreads.disjoint u t hut
      simp only [Layout.top] at *
      omega
    exact ⟨hcur,by omega⟩
  · change e % 4 = 0
    omega
  · change twoThreads.stack t + 24 ≤ e
    omega
  · change Function.update (Function.update s.machine.mem e (twoThreads.thread t)) (e + 4) _ e = _
    rw [Function.update_of_ne (by omega),Function.update_self]
  · exact Function.update_self ..
  · change e % 4 = 0
    omega
  · change twoThreads.stack t + 56 ≤ e
    omega
  · change e ≤ limit twoThreads t (s.pending t)
    omega
  · change e < 2 ^ 32
    omega

/-- A state in which the first thread runs and the other has been created. -/
theorem sample_running : ∃ s, Reachable twoThreads sampleImage s ∧ s.current = some false ∧
    (s.saved true).isSome = true ∧ s.pending = fun _ => [] := by
  obtain ⟨mem,hmem,-,-,-,hkeep⟩ := forge_spec sampleImage bootState.machine.mem 0x5000 7
    (twoThreads.size_min false) rfl
    (twoThreads.fits false)
  let s₁ := bootState.create twoThreads sampleImage false 0x5000 7 (0x2100 - 32) mem
  have hs₁ : Reachable twoThreads sampleImage s₁ :=
    bootState_reachable.step (.create (by simp [Created,bootState]) hmem)
  obtain ⟨mem',hmem',-,-,-,hkeep'⟩ := forge_spec sampleImage s₁.machine.mem 0x6000 8
    (twoThreads.size_min true) rfl
    (twoThreads.fits true)
  let s₂ := s₁.create twoThreads sampleImage true 0x6000 8 (0x3100 - 32) mem'
  have hs₂ : Reachable twoThreads sampleImage s₂ :=
    hs₁.step (.create (by simp [Created,s₁,State.create,bootState]) hmem')
  have harg : s₂.machine.mem 0x8004 = 0x1000 := by
    rw [create_mem _ _ _ _ _ _ (by decide),hkeep' _ (.inr (by decide)),
      create_mem _ _ _ _ _ _ (by decide),hkeep _ (.inr (by decide))]
    rfl
  refine ⟨_,hs₂.step (.load (t := false) rfl ?_ harg),rfl,?_,rfl⟩
  · simp [s₂,s₁,State.create]
  · simp [s₂,State.create]

theorem switches_transparent_sample :
    (∃ mem sp s₃, threadStackForge sampleImage bootState.machine.mem 0x2000 0x100 0x5000 7 = some (mem,sp) ∧
      Step twoThreads sampleImage (bootState.create twoThreads sampleImage false 0x5000 7 sp mem) s₃ ∧
      Starts twoThreads sampleImage false 0x5000 7 (run (threadStart sampleImage) s₃.machine)) ∧
    ∃ s, Reachable twoThreads sampleImage s ∧
      (∃ s₃, ReflTransGen (Step twoThreads sampleImage) (s.switch false true 0x105000) s₃ ∧
        Context.of s₃.machine s₃.machine.eip = Context.of s.machine 0x105000) ∧
      ∃ s₂ s₃, ReflTransGen (Step twoThreads sampleImage) (s.interrupt sampleImage false (.intr 32) 0x106000) s₂ ∧
        s₂.current = some true ∧ ReflTransGen (Step twoThreads sampleImage) s₂ s₃ ∧
        s₃.machine = { s.machine with mem := s₃.machine.mem } := by
  obtain ⟨hfirst,hswitch,hintr⟩ := switches_transparent twoThreads sampleImage
  refine ⟨?_,?_⟩
  · obtain ⟨mem,sp,hf,hrest⟩ := hfirst bootState bootState_reachable false 0x5000 7
      (by simp [Created,bootState])
    have harg : (threadStackForge sampleImage bootState.machine.mem 0x2000 0x100 0x5000 7).map
        (fun r => r.1 0x8004) = some 0x1000 := by decide
    change threadStackForge sampleImage bootState.machine.mem 0x2000 0x100 0x5000 7 = _ at hf
    rw [hf] at harg
    have hmem :
        (bootState.create twoThreads sampleImage false 0x5000 7 sp mem).machine.mem 0x8004 = 0x1000 :=
      (create_mem _ _ _ _ _ _ (by decide)).trans (by simpa using harg)
    have hload :
        Step twoThreads sampleImage (bootState.create twoThreads sampleImage false 0x5000 7 sp mem) _ :=
      .load (t := false) rfl (by simp [State.create]) hmem
    exact ⟨mem,sp,_,hf,hload,(hrest _ _ .refl hload rfl).2⟩
  · obtain ⟨s₀,hs₀,hcur,hsaved,hpending⟩ := sample_running
    obtain ⟨m,hesp,hstep,hcall,hi⟩ := sample_prepare (o := 0x80) hcur (by decide) (by rw [hpending]; decide)
    refine ⟨_,hs₀.step hstep,?_,?_⟩
    · -- The other thread calls back.
      obtain ⟨m',-,hstep',hcall',-⟩ := sample_prepare
        (s := State.switch { s₀ with machine := m } false true 0x105000) (t := true) (o := 0x80) rfl (by decide)
          (by rw [State.switch,hpending]; decide)
      have hback := Step.switch (I := sampleImage) 0x107000 hcall' (by simp [State.switch])
      refine ⟨_,(ReflTransGen.single hstep').tail hback,?_⟩
      exact hswitch _ (hs₀.step hstep) false true 0x105000 _ _ hcall hsaved
        (.single ⟨hstep',by simp [State.switch]⟩) hback rfl
    · -- The handler calls the other thread, which calls back, and returns.
      let s₁ := State.interrupt sampleImage { s₀ with machine := m } false (.intr 32) 0x106000
      have hp₁ : s₁.pending false = [m] ∧ s₁.pending true = [] := by simp [s₁,State.interrupt,hpending]
      obtain ⟨m₁,-,hstep₁,hcall₁,-⟩ := sample_prepare (s := s₁) (t := false) (o := 0x40) hcur (by decide) (by
        rw [hp₁.1]
        change twoThreads.stack false + 0x40 + 8 ≤ m.reg .esp - 48
        omega)
      have hswitch₁ := Step.switch (I := sampleImage) 0x105000 hcall₁ hsaved
      let s₂ := State.switch { s₁ with machine := m₁ } false true 0x105000
      obtain ⟨m₂,-,hstep₂,hcall₂,-⟩ := sample_prepare (s := s₂) (t := true) (o := 0x80) rfl (by decide) (by
        change twoThreads.stack true + 0x80 + 8 ≤ limit twoThreads true (s₁.pending true)
        rw [hp₁.2]
        decide)
      have hswitch₂ := Step.switch (I := sampleImage) 0x107000 hcall₂ (by simp [s₂,State.switch])
      let s₃ := State.switch { s₂ with machine := m₂ } true false 0x107000
      let m' := s₃.machine.setReg .esp (m.reg .esp - 52)
      have hcompute : Step twoThreads sampleImage s₃ { s₃ with machine := m' } :=
        .compute fun a ha => absurd rfl ha
      have hiret := Step.iret (L := twoThreads) (I := sampleImage) (s := { s₃ with machine := m' }) (t := false)
        0 0 rfl hp₁.1 (by simp [m'])
      have hpend : ∀ s : State Bool, s.pending = s₁.pending → (s₀.pending false).length < (s.pending false).length := by
        intro s hs
        rw [hs,hp₁.1,hpending]
        exact Nat.zero_lt_one
      refine ⟨s₂,_,(ReflTransGen.single hstep₁).tail hswitch₁,rfl,
        (((ReflTransGen.single hstep₂).tail hswitch₂).tail hcompute).tail hiret,?_⟩
      have hrun := ((((ReflTransGen.single (r := fun a b => Step twoThreads sampleImage a b ∧
        (s₀.pending false).length < (b.pending false).length) ⟨hstep₁,hpend _ rfl⟩).tail ⟨hswitch₁,hpend _ rfl⟩).tail
          ⟨hstep₂,hpend _ rfl⟩).tail ⟨hswitch₂,hpend _ rfl⟩).tail ⟨hcompute,hpend _ rfl⟩
      refine (hintr _ (hs₀.step hstep) false (.intr 32) 0x106000 _ _ hi hrun hiret ?_).2
      simp [hpending]

end X1.Cpu
