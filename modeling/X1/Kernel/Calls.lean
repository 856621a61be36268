import X1.Kernel.Invariant

/-! # From a call to its return

A step changes a stack at its top only, and the frame of a call keeps the level and the
flag of the call for as long as it is there. So what a frame gives back when it ends is
what its caller had, whatever other threads and interrupts ran in between.
-/
namespace X1.Kernel
open X1.Flow

variable {f f' g h : Frame} {fs fs' below : List Frame}

/-- The same call, at another place of its code. -/
def Frame.SameCall (f f' : Frame) : Prop := f'.fn = f.fn ∧ f'.callLevel = f.callLevel ∧ f'.callIntr = f.callIntr

theorem Frame.SameCall.trans (hf : f.SameCall g) (hg : g.SameCall h) : f.SameCall h :=
  ⟨hg.1.trans hf.1,hg.2.1.trans hf.2.1,hg.2.2.trans hf.2.2⟩

/-- What a step does to the stack of a thread. -/
inductive StackStep : List Frame → List Frame → Prop where
  | same {fs : List Frame} : StackStep fs fs
  | top {f f' : Frame} {fs : List Frame} : f.SameCall f' → StackStep (f :: fs) (f' :: fs)
  | call {f f' g : Frame} {fs : List Frame} : f.SameCall f' → StackStep (f :: fs) (g :: f' :: fs)
  | interrupt {g : Frame} {fs : List Frame} : StackStep fs (g :: fs)
  | ret {f : Frame} {fs : List Frame} : StackStep (f :: fs) fs
  | forged {fs : List Frame} : StackStep fs forged.stack

/-- The frame right above `below` is that of the call `f`. -/
def Holds (f : Frame) (below fs : List Frame) : Prop := ∃ above f', fs = above ++ f' :: below ∧ f.SameCall f'

/-- The frame of a call stays until there is nothing of the call left on the stack. -/
theorem Holds.step (hh : Holds f below fs) (hstep : StackStep fs fs') (hne : below ≠ [])
    (hlong : ∃ above, above ≠ [] ∧ fs' = above ++ below) : Holds f below fs' := by
  obtain ⟨above,f₁,hfs,hf₁⟩ := hh
  cases hstep with
  | same => exact ⟨above,f₁,hfs,hf₁⟩
  | interrupt => exact ⟨_ :: above,f₁,congrArg _ hfs,hf₁⟩
  | top hsame =>
    cases above with
    | nil =>
      cases hfs
      exact ⟨[],_,rfl,hf₁.trans hsame⟩
    | cons a above =>
      cases hfs
      exact ⟨_ :: above,f₁,rfl,hf₁⟩
  | @call _ _ g _ hsame =>
    cases above with
    | nil =>
      cases hfs
      exact ⟨[g],_,rfl,hf₁.trans hsame⟩
    | cons a above =>
      cases hfs
      exact ⟨g :: _ :: above,f₁,rfl,hf₁⟩
  | ret =>
    cases above with
    | nil =>
      cases hfs
      obtain ⟨above',hne',hlong⟩ := hlong
      exact absurd (List.self_eq_append_left.1 hlong) hne'
    | cons a above =>
      cases hfs
      exact ⟨above,f₁,rfl,hf₁⟩
  | forged =>
    obtain ⟨above',hne',hforged⟩ := hlong
    have hlen := congrArg List.length hforged
    have hone := List.length_pos_of_ne_nil hne
    have hone' := List.length_pos_of_ne_nil hne'
    simp only [forged,List.length_cons,List.length_nil,List.length_append] at hlen
    omega

variable {T : Type} [DecidableEq T] {s s' : State T}

theorem stackStep_setStack (t : T) (hstep : StackStep s.self.stack fs) :
    StackStep (s.thread t).stack ((s.setStack fs).thread t).stack := by
  by_cases ht : t = s.current
  · subst ht
    have hself : ((s.setStack fs).thread s.current).stack = fs := by simp [State.setStack,State.modify]
    rw [hself]
    exact hstep
  · rw [State.thread_setStack fs ht]
    exact .same

/-- A step changes stacks at their top. -/
theorem Step.stackStep (hstep : Step s s') (t : T) :
    StackStep (s.thread t).stack (s'.thread t).stack := by
  cases hstep with
  | unfold hs _ => exact stackStep_setStack t (by rw [hs]; exact .top ⟨rfl,rfl,rfl⟩)
  | @act _ f fs a k u hs hcode hpick hexec =>
    have htop := stackStep_setStack t (show StackStep s.self.stack ({ f with code := k } :: fs) by
      rw [hs]
      exact .top ⟨rfl,rfl,rfl⟩)
    rcases exec_popped hpick hexec with ⟨l,-,hstays⟩ | ⟨-,-,rfl⟩ | ⟨-,rfl⟩
    · by_cases ht : t = s.current
      · have hself := hstays.stack
        unfold State.self at hself
        rw [hstays.current] at hself
        rw [ht,show (s.thread s.current).stack = f :: fs from hs]
        exact hself ▸ .top ⟨rfl,rfl,rfl⟩
      · rcases hstays.others t ht with hforged | ⟨-,-,-,hstack⟩
        · rw [hforged]
          exact .forged
        · rw [hstack]
          exact htop
    · rw [switch_stack]
      exact htop
    · exact htop
  | call hs hcode =>
    rw [State.push_setStack]
    exact stackStep_setStack t (by rw [hs]; exact .call ⟨rfl,rfl,rfl⟩)
  | ret hs _ _ _ _ => exact stackStep_setStack t (by rw [hs]; exact .ret)
  | user p hs _ _ _ => exact stackStep_setStack t (by rw [hs]; exact .top ⟨rfl,rfl,rfl⟩)
  | interrupt _ => exact stackStep_setStack t .interrupt

/-- A run in which the thread `t` is always above the frames `below`. -/
inductive Within (t : T) (below : List Frame) (s : State T) : State T → Prop where
  | refl : Within t below s s
  | step {s₁ s₂ : State T} : Within t below s s₁ → Step s₁ s₂ →
      (∃ above, above ≠ [] ∧ (s₂.thread t).stack = above ++ below) → Within t below s s₂

theorem Within.reachable {t : T} (hrun : Within t below s s') (h : Reachable s) : Reachable s' := by
  induction hrun with
  | refl => exact h
  | step _ hstep _ ih => exact .step ih hstep

theorem Within.holds {t : T} (hrun : Within t below s s') (hne : below ≠ [])
    (h : Holds f below (s.thread t).stack) : Holds f below (s'.thread t).stack := by
  induction hrun with
  | refl => exact h
  | step _ hstep hlong ih => exact ih.step (hstep.stackStep t) hne hlong

/-- Where the function called in `s` ends, the level and the flag are those of its caller. -/
theorem call_returns {fn : Fn} {k : List Code} (hreach : Reachable s) (hs : s.self.stack = f :: fs)
    (hcode : f.code = .call fn :: k) (hfn : fn ≠ .timerFn)
    (hrun : Within s.current ({ f with code := k } :: fs)
      ((s.setStack ({ f with code := k } :: fs)).push fn) s') (hcurrent : s'.current = s.current)
    (hs' : s'.self.stack = g :: { f with code := k } :: fs) (hend : g.code = []) :
    s'.self.level = s.self.level ∧ s'.intr = s.intr := by
  have hinv := (hrun.reachable (.step hreach (.call hs hcode))).inv
  -- the frame that ends is the one of the call
  have hcall : Holds ⟨fn,s.self.level,s.intr,false,fn.body⟩ ({ f with code := k } :: fs)
      s'.self.stack := by
    change Holds _ _ (s'.thread s'.current).stack
    rw [hcurrent]
    refine hrun.holds (List.cons_ne_nil _ _) ⟨[],_,?_,rfl,rfl,rfl⟩
    rw [State.push_setStack]
    simp [State.setStack,State.modify,State.self]
  obtain ⟨above,g',hstack,hname,hlevel,hintr⟩ := hcall
  rw [hs'] at hstack
  have habove : above = [] := by
    have hlen := congrArg List.length hstack
    simp only [List.length_cons,List.length_append] at hlen
    exact List.length_eq_zero_iff.1 (by omega)
  rw [habove] at hstack
  cases hstack
  obtain ⟨hmain,hboot,hcpu⟩ := (hreach.inv.typed hs).callee hcode
  have huser : g.fn.isUser = false := by
    rw [hname]
    cases fn <;> simp_all [Fn.isUser]
  obtain ⟨hlevel',hintr'⟩ := (hinv.typed hs').returned hend huser
  exact ⟨hlevel'.trans hlevel,(hintr' (by rw [hname]; exact hcpu)).trans hintr⟩

end X1.Kernel
