import X1.Cpu.Threads

/-! # What is kept on the stacks

For each thread, the words that its recorded contexts say are on its stack: the frames of the
interrupts it has not returned from, below them the stored context if it does not run, and
above it the arguments of `thread_main` if it has not run yet. A step writes to the
stack of one thread, and there below the frames.
-/
namespace X1.Cpu
open X1

variable {T : Type} [DecidableEq T] {L : Layout T} {I : Image} {mem mem' : ℕ → ℕ} {t u v : T}

/-- The frames of interrupts, one below the other. -/
def Frames (L : Layout T) (mem : ℕ → ℕ) (t : T) : List Machine → Prop
  | [] => True
  | m :: ms =>
    L.stack t + 56 ≤ m.reg .esp ∧ m.reg .esp ≤ limit L t ms ∧ m.reg .esp < 2 ^ 32 ∧ Framed mem m ∧
      Frames L mem t ms

/-- What is kept for a thread. -/
structure Kept (L : Layout T) (I : Image) (mem : ℕ → ℕ) (t : T) (saved : Option Context) (pending : List Machine)
    (born : Option (ℕ × ℕ)) : Prop where
  frames : Frames L mem t pending
  stored : ∀ c, saved = some c → L.stack t ≤ mem (L.thread t) ∧ Stored mem (mem (L.thread t)) c ∧
    c.esp ≤ limit L t pending
  born : ∀ fn arg, born = some (fn,arg) → saved = some (.forged I (L.top t)) ∧
    mem (L.top t - 8) = fn ∧ mem (L.top t - 4) = arg

structure Inv (L : Layout T) (I : Image) (s : State T) : Prop where
  kept : ∀ t, Kept L I s.machine.mem t (s.saved t) (s.pending t) (s.born t)
  running : ∀ t, s.current = some t → s.saved t = none
  fresh : ∀ t, ¬Created s t → s.pending t = []

omit [DecidableEq T] in
theorem Frames.limit_le {ms : List Machine} (h : Frames L mem t ms) :
    L.stack t ≤ limit L t ms ∧ limit L t ms ≤ L.top t := by
  induction ms with
  | nil => exact ⟨Nat.le_add_right _ _,le_rfl⟩
  | cons m ms ih =>
    obtain ⟨hlo,hhi,-,-,hms⟩ := h
    have := (ih hms).2
    simp only [limit]
    omega

omit [DecidableEq T] in
theorem Frames.congr {ms : List Machine} (h : Frames L mem t ms)
    (hmem : ∀ a, limit L t ms ≤ a → a < L.top t → mem' a = mem a) : Frames L mem' t ms := by
  induction ms with
  | nil => trivial
  | cons m ms ih =>
    obtain ⟨hlo,hhi,hlt,hframed,hms⟩ := h
    have htop := hms.limit_le.2
    simp only [limit] at hmem
    refine ⟨hlo,hhi,hlt,hframed.congr (by omega) fun a h₁ h₂ => hmem a h₁ (by omega),
      ih hms fun a h₁ h₂ => ?_⟩
    exact hmem a (by omega) h₂

/-- Neither `sp` nor the stack of the thread changes. -/
def Untouched (L : Layout T) (mem mem' : ℕ → ℕ) (t : T) : Prop :=
  mem' (L.thread t) = mem (L.thread t) ∧ ∀ a, L.stack t ≤ a → a < L.top t → mem' a = mem a

omit [DecidableEq T] in
theorem Kept.congr {saved : Option Context} {pending : List Machine} {born : Option (ℕ × ℕ)}
    (h : Kept L I mem t saved pending born) (hu : Untouched L mem mem' t) :
    Kept L I mem' t saved pending born := by
  obtain ⟨hlimit,htop⟩ := h.frames.limit_le
  refine ⟨h.frames.congr fun a h₁ h₂ => hu.2 a (by omega) h₂,fun c hc => ?_,fun fn arg hb => ?_⟩
  · obtain ⟨hsp,hstored,hesp⟩ := h.stored c hc
    rw [hu.1]
    refine ⟨hsp,hstored.congr fun a h₁ h₂ => hu.2 a (by omega) ?_,hesp⟩
    have := hstored.esp
    omega
  · obtain ⟨hc,hfn,harg⟩ := h.born fn arg hb
    have hsize := L.size_min t
    refine ⟨hc,?_,?_⟩
    · rw [hu.2 _ (by simp only [Layout.top]; omega) (by simp only [Layout.top]; omega)]
      exact hfn
    · rw [hu.2 _ (by simp only [Layout.top]; omega) (by simp only [Layout.top]; omega)]
      exact harg

omit [DecidableEq T] in
/-- What a thread writes on its own stack and into its own structure concerns no other thread. -/
theorem untouched_of_own (h : ∀ a, a ≠ L.thread t → (a < L.stack t ∨ L.top t ≤ a) → mem' a = mem a)
    (hne : v ≠ t) : Untouched L mem mem' v := by
  have hthread : L.thread v ≠ L.thread t := fun he => hne (L.thread_injective he)
  have happart := L.apart v t
  have happart' := L.apart t v
  have hdisjoint := L.disjoint v t hne
  simp only [Layout.top] at *
  refine ⟨h _ hthread ?_,fun a h₁ h₂ => h a ?_ ?_⟩
  · omega
  · rw [Layout.top] at h₂
    omega
  · rw [Layout.top] at h₂
    omega

/-! ## Steps -/

namespace Inv
variable {s : State T}

theorem compute (h : Inv L I s) {m : Machine} (hw : ∀ a, m.mem a ≠ s.machine.mem a → Writable L s a) :
    Inv L I { s with machine := m } := by
  refine ⟨fun t => ?_,h.running,h.fresh⟩
  change Kept L I m.mem t (s.saved t) (s.pending t) (s.born t)
  have hk := h.kept t
  have hkeep : ∀ a, ¬Writable L s a → m.mem a = s.machine.mem a :=
    fun a ha => by_contra fun hn => ha (hw a hn)
  by_cases hc : s.current = some t
  · have hnone := h.running t hc
    refine ⟨hk.frames.congr fun a h₁ h₂ => hkeep a fun ha => ?_,fun c hs => ?_,fun fn arg hb => ?_⟩
    · have := ((ha t (.inr hc)).2 (by have := hk.frames.limit_le.1; omega) h₂).2
      omega
    · simp [hnone] at hs
    · have := (hk.born fn arg hb).1
      simp [hnone] at this
  · by_cases hs : (s.saved t).isSome = true
    · refine hk.congr ⟨hkeep _ fun ha => (ha t (.inl hs)).1 rfl,fun a h₁ h₂ => hkeep a fun ha => ?_⟩
      exact hc ((ha t (.inl hs)).2 h₁ h₂).1
    · have hnone : s.saved t = none := by simpa using hs
      have hpending := h.fresh t (by simp [Created,hs,hc])
      refine ⟨by rw [hpending]; trivial,fun c hs => ?_,fun fn arg hb => ?_⟩
      · simp [hnone] at hs
      · have := (hk.born fn arg hb).1
        simp [hnone] at this

theorem create (h : Inv L I s) {fn arg sp : ℕ} {mem : ℕ → ℕ} (hc : ¬Created s t)
    (hf : threadStackForge I s.machine.mem (L.stack t) (L.size t) fn arg = some (mem,sp)) :
    Inv L I (s.create L I t fn arg sp mem) := by
  obtain ⟨mem₁,hmem₁,hstored,hfn,harg,hkeep⟩ := forge_spec I s.machine.mem fn arg (L.size_min t)
    (show L.stack t + L.size t = L.top t from rfl) (L.fits t)
  obtain ⟨rfl,rfl⟩ : mem₁ = mem ∧ L.top t - 32 = sp := by simpa [hf] using hmem₁.symm
  have hsize := L.size_min t
  have happart := L.apart t t
  have hstack : ∀ a, L.stack t ≤ a → a < L.top t → a ≠ L.thread t := by
    intro a h₁ h₂
    rw [Layout.top] at h₂
    omega
  have htop : L.top t = L.stack t + L.size t := rfl
  refine ⟨fun v => ?_,fun v hv => ?_,fun v hv => ?_⟩
  · change Kept L I (Function.update mem₁ (L.thread t) (L.top t - 32)) v
      (Function.update s.saved t _ v) (s.pending v) (Function.update s.born t _ v)
    by_cases hvt : v = t
    · subst hvt
      rw [Function.update_self,Function.update_self,h.fresh v hc]
      refine ⟨trivial,fun c hc => ?_,fun fn' arg' hb => ?_⟩
      · cases hc
        rw [Function.update_self]
        refine ⟨by omega,hstored.congr fun a h₁ h₂ => Function.update_of_ne
          (hstack a (by omega) (by omega)) _ _,?_⟩
        change L.top v - 8 ≤ L.top v
        omega
      · cases hb
        rw [Function.update_of_ne (hstack _ (by omega) (by omega)),
          Function.update_of_ne (hstack _ (by omega) (by omega))]
        exact ⟨rfl,hfn,harg⟩
    · rw [Function.update_of_ne hvt,Function.update_of_ne hvt]
      refine (h.kept v).congr (untouched_of_own (t := t) (fun a h₁ h₂ => ?_) hvt)
      rw [Function.update_of_ne h₁]
      exact hkeep a (by omega)
  · change Function.update s.saved t _ v = none
    have hvt : v ≠ t := by
      rintro rfl
      exact hc (.inr hv)
    rw [Function.update_of_ne hvt]
    exact h.running v hv
  · refine h.fresh v fun hcv => hv ?_
    rcases hcv with hcv | hcv
    · refine .inl ?_
      by_cases hvt : v = t
      · simp [State.create,hvt]
      · simpa [State.create,hvt] using hcv
    · exact .inr hcv

/-- A thread that is resumed has no context any more. -/
theorem resume {current : Option T} {saved : T → Option Context} {pending : T → List Machine}
    {born : T → Option (ℕ × ℕ)} {m : Machine}
    (hkept : ∀ v, v ≠ u → Kept L I m.mem v (saved v) (pending v) (born v))
    (hframes : Frames L m.mem u (pending u)) (hrunning : current = some u)
    (hfresh : ∀ v, v ≠ u → saved v = none → pending v = []) :
    Inv L I ⟨m,current,Function.update saved u none,pending,Function.update born u none⟩ := by
  refine ⟨fun v => ?_,fun v hv => ?_,fun v hv => ?_⟩
  · change Kept L I m.mem v (Function.update saved u none v) (pending v) (Function.update born u none v)
    by_cases hvu : v = u
    · subst hvu
      rw [Function.update_self,Function.update_self]
      exact ⟨hframes,by simp,by simp⟩
    · rw [Function.update_of_ne hvu,Function.update_of_ne hvu]
      exact hkept v hvu
  · obtain rfl : u = v := by
      change current = some v at hv
      simpa [hrunning] using hv
    exact Function.update_self ..
  · have hvu : v ≠ u := by
      rintro rfl
      exact hv (.inr hrunning)
    refine hfresh v hvu ?_
    by_contra hs
    refine hv (.inl ?_)
    change (Function.update saved u none v).isSome = true
    rw [Function.update_of_ne hvu]
    simpa [Option.isSome_iff_ne_none] using hs

omit [DecidableEq T] in
theorem switch_mem (h : Inv L I s) (hcall : Calls L s t u) {c : Context} (hc : s.saved u = some c)
    (back : ℕ) : Context.of (s.machine.switchContext back) (s.machine.switchContext back).eip = c ∧
    (s.machine.switchContext back).mem =
      Function.update (s.machine.pushAll (switchWords back s.machine)).mem (L.thread t) (s.machine.reg .esp - 24) ∧
    ∀ v, v ≠ t → Untouched L s.machine.mem (s.machine.switchContext back).mem v := by
  have htop := (h.kept t).frames.limit_le.2
  have hfits := L.fits t
  have hroom := hcall.room
  have hbelow := hcall.below
  have hlen : 4 * (switchWords back s.machine).length = 24 := rfl
  have htop' : L.top t = L.stack t + L.size t := rfl
  have hother : ∀ v, v ≠ t → Untouched L s.machine.mem (Function.update
      (s.machine.pushAll (switchWords back s.machine)).mem (L.thread t) (s.machine.reg .esp - 24))
        v := by
    intro v hv
    refine untouched_of_own (t := t) (fun a h₁ h₂ => ?_) hv
    rw [Function.update_of_ne h₁]
    exact Machine.pushAll_keeps rfl (by omega) (by omega) (by omega)
  obtain ⟨-,hstored,-⟩ := ((h.kept u).congr (hother u hcall.ne)).stored c hc
  obtain ⟨hctx,hmem⟩ := switchContext_spec rfl (by omega) (by omega) back hcall.prev hcall.next
    (L.thread_lt u) rfl hstored
  refine ⟨hctx,hmem,fun v hv => ?_⟩
  rw [hmem]
  exact hother v hv

theorem switch (h : Inv L I s) (hcall : Calls L s t u) {c : Context} (hc : s.saved u = some c)
    (back : ℕ) : Inv L I (s.switch t u back) := by
  obtain ⟨-,hmem,hother⟩ := h.switch_mem hcall hc back
  have htop := (h.kept t).frames.limit_le.2
  have htop' : L.top t = L.stack t + L.size t := rfl
  have hfits := L.fits t
  have hroom := hcall.room
  have hbelow := hcall.below
  have happart := L.apart t t
  have hlen : 4 * (switchWords back s.machine).length = 24 := rfl
  refine resume (fun v hv => ?_) ?_ rfl fun v hv hs => ?_
  · by_cases hvt : v = t
    · subst hvt
      rw [Function.update_self,hmem]
      refine ⟨(h.kept v).frames.congr fun a h₁ h₂ => ?_,fun c' hc' => ?_,fun fn arg hb => ?_⟩
      · rw [Function.update_of_ne (by omega)]
        exact Machine.pushAll_keeps rfl (by omega) (by omega) (by omega)
      · cases hc'
        rw [Function.update_self]
        refine ⟨by omega,(stored_pushAll rfl (by omega) (by omega) back).congr fun a h₁ h₂ => ?_,?_⟩
        · exact Function.update_of_ne (by omega) _ _
        · change s.machine.reg .esp ≤ _
          omega
      · have := ((h.kept v).born fn arg hb).1
        simp [h.running v hcall.current] at this
    · rw [Function.update_of_ne hvt]
      exact (h.kept v).congr (hother v hvt)
  · exact ((h.kept u).congr (hother u hcall.ne)).frames
  · have hvt : v ≠ t := by
      rintro rfl
      simp at hs
    rw [Function.update_of_ne hvt] at hs
    refine h.fresh v fun hcv => ?_
    rcases hcv with hcv | hcv
    · simp [hs] at hcv
    · have := hcall.current
      rw [hcv] at this
      exact hvt (by simpa using this)

omit [DecidableEq T] in
/-- `thread_load_context`, when the scheduler is enabled -/
theorem load_mem (h : Inv L I s) {c : Context} (hc : s.saved t = some c)
    (harg : s.machine.mem (Word.add s.machine.esp 4) = L.thread t) :
    Context.of (run threadLoadContext s.machine) (run threadLoadContext s.machine).eip = c ∧
      (run threadLoadContext s.machine).mem = s.machine.mem := by
  obtain ⟨-,hstored,-⟩ := (h.kept t).stored c hc
  exact loadContext_spec harg (L.thread_lt t) rfl hstored

theorem load (h : Inv L I s) {c : Context} (hnone : s.current = none) (hc : s.saved t = some c)
    (harg : s.machine.mem (Word.add s.machine.esp 4) = L.thread t) : Inv L I { s with
      machine := run threadLoadContext s.machine
      current := some t
      saved := Function.update s.saved t none
      born := Function.update s.born t none } := by
  obtain ⟨-,hmem⟩ := h.load_mem hc harg
  refine resume (fun v _ => ?_) ?_ rfl fun v _ hs => h.fresh v ?_
  · rw [hmem]
    exact h.kept v
  · rw [hmem]
    exact (h.kept t).frames
  · simp [Created,hs,hnone]

theorem setPending (h : Inv L I s) (hcur : s.current = some t) {m : Machine} {ms : List Machine}
    (hframes : Frames L m.mem t ms) (hother : ∀ v, v ≠ t → Untouched L s.machine.mem m.mem v) :
    Inv L I { s with machine := m, pending := Function.update s.pending t ms } := by
  have hnone := h.running t hcur
  refine ⟨fun v => ?_,h.running,fun v hv => ?_⟩
  · change Kept L I m.mem v (s.saved v) (Function.update s.pending t ms v) (s.born v)
    by_cases hvt : v = t
    · subst hvt
      rw [Function.update_self]
      refine ⟨hframes,by simp [hnone],fun fn arg hb => ?_⟩
      have := ((h.kept v).born fn arg hb).1
      simp [hnone] at this
    · rw [Function.update_of_ne hvt]
      exact (h.kept v).congr (hother v hvt)
  · change Function.update s.pending t ms v = []
    have hvt : v ≠ t := by
      rintro rfl
      exact hv (.inr hcur)
    rw [Function.update_of_ne hvt]
    exact h.fresh v hv

theorem interrupt (h : Inv L I s) (hi : Interruptible L s t) (stub : Stub) (handler : ℕ) :
    Inv L I (s.interrupt I t stub handler) := by
  have hroom := hi.room
  have hbelow := hi.below
  have htop := (h.kept t).frames.limit_le.2
  obtain ⟨hframed,hkeep⟩ := enterIntr_spec I stub handler (by omega) hi.lt
  refine h.setPending hi.current ⟨hroom,hbelow,hi.lt,hframed,
    (h.kept t).frames.congr fun a h₁ _ => ?_⟩ fun v hv => ?_
  · exact hkeep a (by omega)
  · exact untouched_of_own (fun a _ ha => hkeep a (by omega)) hv

omit [DecidableEq T] in
theorem iret_eq (h : Inv L I s) {m : Machine} {ms : List Machine} (flags flags' : ℕ)
    (hp : s.pending t = m :: ms) (hesp : s.machine.reg .esp = m.reg .esp - 52) :
    s.machine.leaveIntr flags flags' = { m with mem := s.machine.mem } := by
  have hframes := (h.kept t).frames
  rw [hp] at hframes
  obtain ⟨hlo,-,hlt,hframed,-⟩ := hframes
  exact leaveIntr_spec flags flags' (by omega) hlt hesp hframed

theorem iret (h : Inv L I s) {m : Machine} {ms : List Machine} (flags flags' : ℕ) (hcur : s.current = some t)
    (hp : s.pending t = m :: ms) (hesp : s.machine.reg .esp = m.reg .esp - 52) :
    Inv L I { s with machine := s.machine.leaveIntr flags flags', pending := Function.update s.pending t ms } := by
  have hmem : (s.machine.leaveIntr flags flags').mem = s.machine.mem := by rw [h.iret_eq flags flags' hp hesp]
  have hframes := (h.kept t).frames
  rw [hp] at hframes
  refine h.setPending hcur ?_ fun v _ => ?_
  · rw [hmem]
    exact hframes.2.2.2.2
  · rw [hmem]
    exact ⟨rfl,fun _ _ _ => rfl⟩

end Inv

theorem Step.inv {s s' : State T} (hstep : Step L I s s') (h : Inv L I s) : Inv L I s' := by
  cases hstep with
  | compute hw => exact h.compute hw
  | create hc hf => exact h.create hc hf
  | load hnone hs harg =>
    obtain ⟨c,hc⟩ := Option.isSome_iff_exists.mp hs
    exact h.load hnone hc harg
  | switch back hcall hs =>
    obtain ⟨c,hc⟩ := Option.isSome_iff_exists.mp hs
    exact h.switch hcall hc back
  | interrupt stub handler hi => exact h.interrupt hi stub handler
  | iret flags flags' hcur hp hesp => exact h.iret flags flags' hcur hp hesp

theorem Reachable.inv {s : State T} (h : Reachable L I s) : Inv L I s := by
  induction h with
  | init hi =>
    refine ⟨fun t => ?_,fun t _ => hi.saved t,fun t _ => hi.pending t⟩
    rw [hi.saved t,hi.pending t,hi.born t]
    exact ⟨trivial,by simp,by simp⟩
  | step _ hstep ih => exact hstep.inv ih

end X1.Cpu
