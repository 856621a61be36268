import X1.Base.Owner
import X1.Timer.Model

/-! # The list of timers and the calls

What holds of the list, the mutex and the calls of `timer_schedule` as long as no linked
timer is scheduled again, whatever the ticks are: the list is a ring of distinct timers,
the mutex is held by the thread that is in the middle of a function, and every call so far
has started its callback, or its timer is linked, or taken by the timer thread, and no two
of these.
-/
set_option linter.unusedSectionVars false

namespace X1.Timer
open X1.Lib X1.Owner X1.Ring
variable {K T : Type} [DecidableEq K]

/-- The timer is met on the way through the list from its head. -/
def Linked (d : Data K) (k : K) : Prop := ∃ n, d.links.nextOf^[n] .head = .timer k

theorem linked_iff {d : Data K} {ks : List K}
    (h : IsRing d.links.nextOf d.links.prevOf .head (ks.map .timer)) (k : K) :
    Linked d k ↔ k ∈ ks := by
  rw [Linked,← h.mem_iff_iterate]
  simp

/-! ## The functions on the list -/

/-- The loop stops at a node of the list. -/
theorem timerFind_spec {d : Data K} {ticks : ℕ} {ks : List K}
    (h : IsList d.links .head (ks.map .timer)) {fuel : ℕ} {tmp : Node K} :
    ∀ {l r : List K}, ks = l ++ r → timerFind d ticks fuel ((r.map .timer).headD .head) = some tmp →
    ∃ r₁ r₂, r = r₁ ++ r₂ ∧ tmp = (r₂.map .timer).headD .head ∧
    (∀ k ∈ r₁, timerExpired d k ticks = true) ∧ ∀ k ∈ r₂.head?, timerExpired d k ticks = false := by
  induction fuel with
  | zero =>
    intro l r _ hf
    cases hf
  | succ fuel ih =>
    intro l r hks hf
    cases r with
    | nil =>
      cases hf
      exact ⟨[],[],rfl,rfl,by simp,by simp⟩
    | cons k r =>
      simp only [List.map_cons,List.headD_cons,timerFind] at hf
      cases hexp : timerExpired d k ticks with
      | false =>
        simp only [hexp,Bool.not_false,↓reduceIte,Option.some.injEq] at hf
        exact ⟨[],k :: r,rfl,by simp [← hf],by simp,by simpa using hexp⟩
      | true =>
        have hnext : d.links.nextOf (.timer k) = (r.map .timer).headD .head := by
          rw [hks,List.map_append,List.map_cons] at h
          exact IsRing.next_node h
        rw [hexp,hnext] at hf
        obtain ⟨r₁,r₂,hr,htmp,h₁,h₂⟩ := ih (l := l ++ [k]) (r := r) (by simp [hks]) hf
        refine ⟨k :: r₁,r₂,by simp [hr],htmp,?_,h₂⟩
        simpa [hexp] using h₁

/-- With fuel for every timer the loop ends. -/
theorem timerFind_some {d : Data K} {ticks : ℕ} {ks : List K}
    (h : IsList d.links .head (ks.map .timer)) :
    ∀ {l r : List K} {fuel : ℕ}, ks = l ++ r → r.length < fuel →
    ∃ tmp, timerFind d ticks fuel ((r.map .timer).headD .head) = some tmp := by
  intro l r fuel hks hfuel
  induction r generalizing l fuel with
  | nil =>
    obtain ⟨n,rfl⟩ := Nat.exists_eq_add_of_lt hfuel
    exact ⟨.head,by rw [Nat.add_comm _ 1,Nat.add_comm 1]; rfl⟩
  | cons k r ih =>
    obtain ⟨n,rfl⟩ : ∃ n, fuel = n + 1 := ⟨fuel - 1,by omega⟩
    simp only [List.map_cons,List.headD_cons,timerFind]
    split
    · exact ⟨_,rfl⟩
    · have hnext : d.links.nextOf (.timer k) = (r.map .timer).headD .head := by
        rw [hks,List.map_append,List.map_cons] at h
        exact IsRing.next_node h
      rw [hnext]
      exact ih (l := l ++ [k]) (by simp [hks]) (by simpa using hfuel)

/-- `timer_schedule` of a timer that is not linked: it goes in front of the first timer that has not
expired at its ticks. -/
theorem timerInsert_spec {d d' : Data K} {fuel ticks : ℕ} {k : K} {ks : List K}
    (h : IsList d.links .head (ks.map .timer)) (hk : k ∉ ks)
    (hd : timerInsert fuel d k ticks = some d') :
    ∃ l r, ks = l ++ r ∧ IsList d'.links .head ((l ++ k :: r).map .timer) ∧
    d' = { d with links := d'.links, ticks := Function.update d.ticks k ticks } ∧
    (∀ j ∈ l, timerExpired d j ticks = true) ∧ ∀ j ∈ r.head?, timerExpired d j ticks = false := by
  obtain ⟨tmp,htmp,hd⟩ := Option.bind_eq_some_iff.mp hd
  have hfirst : listFirst d.links Node.head = (ks.map Node.timer).headD .head := IsRing.next_head h
  change timerFind _ ticks fuel (listFirst d.links Node.head) = some tmp at htmp
  rw [hfirst] at htmp
  obtain ⟨l,r,hks,rfl,hl,hr⟩ := timerFind_spec
    (d := { d with ticks := Function.update d.ticks k ticks }) h (l := []) rfl htmp
  -- The ticks of the timers in the list are the old ones.
  have hold : ∀ j ∈ ks, timerExpired { d with ticks := Function.update d.ticks k ticks } j ticks =
      timerExpired d j ticks := by
    intro j hj
    have hjk : j ≠ k := fun he => hk (he ▸ hj)
    simp [timerExpired,hjk]
  cases hd
  refine ⟨l,r,hks,?_,rfl,fun j hj => ?_,fun j hj => ?_⟩
  · rw [List.map_append,List.map_cons]
    rw [hks,List.map_append] at h
    refine isList_listInsertBefore independent_links (fun _ _ => trivial) trivial h ?_
    rw [← List.map_append,← hks]
    simpa using hk
  · rw [← hold j (by simp [hks,hj])]
    exact hl j hj
  · rw [← hold j (by simp [hks,List.mem_of_mem_head? hj])]
    exact hr j hj

/-- The new timer goes in at its place, whatever its place is measured by. -/
theorem sorted_insert {α : Type*} [LinearOrder α] (f : ℕ → α) {ticks : K → ℕ} {k : K} {t : ℕ}
    {l r : List K} (hsorted : (l ++ r).Pairwise fun a b => f (ticks a) ≤ f (ticks b))
    (hk : k ∉ l ++ r) (hl : ∀ j ∈ l, f (ticks j) < f t) (hr : ∀ j ∈ r.head?, f t ≤ f (ticks j)) :
    (l ++ k :: r).Pairwise fun a b => f (Function.update ticks k t a) ≤
      f (Function.update ticks k t b) := by
  have hold : ∀ j ∈ l ++ r, Function.update ticks k t j = ticks j := by
    intro j hj
    refine Function.update_of_ne ?_ _ _
    rintro rfl
    exact hk hj
  have hupdate : (l ++ r).Pairwise fun a b => f (Function.update ticks k t a) ≤
      f (Function.update ticks k t b) := by
    refine hsorted.imp_of_mem fun {a b} ha hb hab => ?_
    rw [hold a ha,hold b hb]
    exact hab
  rw [List.pairwise_append] at hupdate hsorted ⊢
  refine ⟨hupdate.1,List.pairwise_cons.mpr ⟨fun j hj => ?_,hupdate.2.1⟩,fun i hi j hj => ?_⟩
  · rw [Function.update_self,hold j (by simp [hj])]
    cases r with
    | nil => simp at hj
    | cons i r =>
      have hi := hr i rfl
      rcases List.mem_cons.mp hj with rfl | hj
      · exact hi
      · exact hi.trans ((List.pairwise_cons.mp hsorted.2.1).1 j hj)
  · rcases List.mem_cons.mp hj with rfl | hj
    · rw [Function.update_self,hold i (by simp [hi])]
      exact (hl i hi).le
    · exact hupdate.2.2 i hi j hj

theorem listFirst_cons {d : Data K} {k : K} {ks : List K} (h : IsList d.links .head ((k :: ks).map .timer)) :
    listFirst d.links Node.head = .timer k := IsRing.next_head h

/-! ## Where the threads are -/

namespace Pc

/-- The thread is between `mutex_lock` and `mutex_unlock`. -/
def holds : Pc K → Bool
  | scheduleInsert _ _ | schedulePublish | getTimeRead _ | unlock => true
  | _ => false

/-- `timer_schedule` has been called and has not linked its timer. -/
def pending : Pc K → Bool
  | scheduleLock _ _ | scheduleInsert _ _ => true
  | _ => false

def next : Pc K → Pc K
  | idle => idle
  | scheduleLock k ticks => scheduleInsert k ticks
  | scheduleInsert _ _ => schedulePublish
  | schedulePublish => unlock
  | getTimeLock k => getTimeRead k
  | getTimeRead _ => unlock
  | unlock => idle

end Pc

namespace TimerPc

/-- The call whose timer was removed from the list and whose callback has not started. -/
def taken : TimerPc K → Option ℕ
  | unlock _ _ _ c | process _ _ _ c => some c
  | _ => none

/-- The time `timer_process_list` works with. -/
def pass : TimerPc K → Option (ℕ × ℕ)
  | lock now asof | loop now asof => some (now,asof)
  | unlock now asof _ _ | process now asof _ _ | callback now asof _ _ _ => some (now,asof)
  | _ => none

def holds : TimerPc K → Bool
  | loop _ _ | unlock _ _ _ _ | finish | finishUnlock => true
  | callback _ _ _ _ pc => pc.holds
  | _ => false

@[simp] theorem taken_setInner (tpc : TimerPc K) (pc : Pc K) : (tpc.setInner pc).taken = tpc.taken := by
  cases tpc <;> rfl

@[simp] theorem pass_setInner (tpc : TimerPc K) (pc : Pc K) : (tpc.setInner pc).pass = tpc.pass := by
  cases tpc <;> rfl

end TimerPc

section
variable [DecidableEq T]

def State.at (s : State K T) : Actor T → Pc K
  | .timer => s.pc.inner
  | .thread t => s.thread t

def State.holds (s : State K T) : Actor T → Bool
  | .timer => s.pc.holds
  | .thread t => (s.thread t).holds

/-- The thread goes on at `pc`. -/
def State.put (s : State K T) (a : Actor T) (pc : Pc K) : State K T :=
  { s with
    pc := match a with
      | .timer => s.pc.setInner pc
      | .thread _ => s.pc
    thread := match a with
      | .timer => s.thread
      | .thread t => Function.update s.thread t pc }

/-- The thread can be in a call: the timer thread calls the module from callbacks. -/
def State.Calls (s : State K T) : Actor T → Prop
  | .timer => ∃ now asof k c pc, s.pc = .callback now asof k c pc
  | .thread _ => True

variable {s s' : State K T} {a b : Actor T} {pc : Pc K}

theorem inner_of_not_calls (h : ¬s.Calls .timer) : s.pc.inner = .idle := by
  cases hpc : s.pc with
  | callback now asof k c pc => exact absurd ⟨now,asof,k,c,pc,hpc⟩ h
  | _ => rfl

theorem at_put_self (h : s.Calls a) : (s.put a pc).at a = pc := by
  cases a with
  | timer =>
    obtain ⟨now,asof,k,c,pc',hpc⟩ := h
    simp [State.at,State.put,hpc,TimerPc.setInner,TimerPc.inner]
  | thread t => simp [State.at,State.put]

theorem at_put_of_ne (h : b ≠ a) : (s.put a pc).at b = s.at b := by
  cases a with
  | timer =>
    cases b with
    | timer => exact absurd rfl h
    | thread u => rfl
  | thread t =>
    cases b with
    | timer => rfl
    | thread u =>
      have hut : u ≠ t := fun he => h (by rw [he])
      simp [State.at,State.put,hut]

theorem holds_put_self (h : s.Calls a) : (s.put a pc).holds a = pc.holds := by
  cases a with
  | timer =>
    obtain ⟨now,asof,k,c,pc',hpc⟩ := h
    simp [State.holds,State.put,hpc,TimerPc.setInner,TimerPc.holds]
  | thread t => simp [State.holds,State.put]

theorem holds_put_of_ne (h : b ≠ a) : (s.put a pc).holds b = s.holds b := by
  cases a with
  | timer =>
    cases b with
    | timer => exact absurd rfl h
    | thread u => rfl
  | thread t =>
    cases b with
    | timer => rfl
    | thread u =>
      have hut : u ≠ t := fun he => h (by rw [he])
      simp [State.holds,State.put,hut]

theorem holds_of_calls (h : s.Calls a) : s.holds a = (s.at a).holds := by
  cases a with
  | timer =>
    obtain ⟨now,asof,k,c,pc',hpc⟩ := h
    simp [State.holds,State.at,hpc,TimerPc.holds,TimerPc.inner]
  | thread t => rfl

theorem taken_put : (s.put a pc).pc.taken = s.pc.taken := by
  cases a with
  | timer => exact TimerPc.taken_setInner _ _
  | thread t => rfl

theorem pass_put : (s.put a pc).pc.pass = s.pc.pass := by
  cases a with
  | timer => exact TimerPc.pass_setInner _ _
  | thread t => rfl

/-- The effect of a step in one of the two functions. -/
theorem callStep_cases {fuel : ℕ} {pc pc' : Pc K} (h : callStep fuel a s pc = some (s',pc')) :
    (s.mutex = none ∧ pc.holds = false ∧ s' = { s with mutex := some a } ∧ pc'.holds = true ∧
      pc ≠ .schedulePublish) ∨
    (∃ k ticks d, pc = .scheduleInsert k ticks ∧ timerInsert fuel s.toData k ticks.toNat = some d ∧
      s' = { s with toData := d }.issue k ticks.toNat ∧ pc' = .schedulePublish) ∨
    (∃ d, pc = .schedulePublish ∧ timerPublish s.toData = some d ∧ s' = { s with toData := d } ∧
      pc' = .unlock) ∨ (∃ k, pc = .getTimeRead k ∧ s' = s ∧ pc' = .unlock) ∨
    (pc = .unlock ∧ s' = { s with mutex := none } ∧ pc' = .idle) := by
  cases pc with
  | idle => cases h
  | scheduleLock k ticks =>
    cases hm : s.mutex with
    | some b => simp [callStep,hm] at h
    | none =>
      simp only [callStep,hm,Option.some.injEq,Prod.mk.injEq] at h
      exact .inl ⟨rfl,rfl,h.1.symm,by rw [← h.2]; rfl,by simp⟩
  | scheduleInsert k ticks =>
    obtain ⟨d,hd,he⟩ := Option.map_eq_some_iff.mp h
    cases he
    exact .inr (.inl ⟨k,ticks,d,rfl,hd,rfl,rfl⟩)
  | schedulePublish =>
    obtain ⟨d,hd,he⟩ := Option.map_eq_some_iff.mp h
    cases he
    exact .inr (.inr (.inl ⟨d,rfl,hd,rfl,rfl⟩))
  | getTimeLock k =>
    cases hm : s.mutex with
    | some b => simp [callStep,hm] at h
    | none =>
      simp only [callStep,hm,Option.some.injEq,Prod.mk.injEq] at h
      exact .inl ⟨rfl,rfl,h.1.symm,by rw [← h.2]; rfl,by simp⟩
  | getTimeRead k =>
    cases h
    exact .inr (.inr (.inr (.inl ⟨k,rfl,rfl,rfl⟩)))
  | unlock =>
    cases h
    exact .inr (.inr (.inr (.inr ⟨rfl,rfl,rfl⟩)))

theorem callStep_pc {fuel : ℕ} {pc pc' : Pc K} (h : callStep fuel a s pc = some (s',pc')) :
    s'.pc = s.pc ∧ s'.thread = s.thread := by
  rcases callStep_cases h with ⟨-,-,rfl,-⟩ | ⟨k,ticks,d,-,-,rfl,-⟩ | ⟨d,-,-,rfl,-⟩ | ⟨k,-,rfl,
    -⟩ | ⟨-,rfl,-⟩ <;>
    exact ⟨rfl,rfl⟩

theorem callStep_next {fuel : ℕ} {pc pc' : Pc K} (h : callStep fuel a s pc = some (s',pc')) :
    pc' = pc.next := by
  cases pc with
  | idle => cases h
  | scheduleLock k ticks | getTimeLock k =>
    simp only [callStep] at h
    split at h
    · cases h
      rfl
    · cases h
  | scheduleInsert k ticks | schedulePublish =>
    obtain ⟨d,hd,he⟩ := Option.map_eq_some_iff.mp h
    cases he
    rfl
  | getTimeRead k | unlock =>
    cases h
    rfl

theorem timerPublish_links {d d' : Data K} (h : timerPublish d = some d') :
    d'.links = d.links ∧ d'.ticks = d.ticks := by
  unfold timerPublish at h
  split at h
  · cases h
    exact ⟨rfl,rfl⟩
  · cases h

theorem timerFinish_links {d d' : Data K} (h : timerFinish d = some d') :
    d'.links = d.links ∧ d'.ticks = d.ticks := by
  unfold timerFinish at h
  split at h
  · cases h
    exact ⟨rfl,rfl⟩
  · split at h
    · cases h
      exact ⟨rfl,rfl⟩
    · cases h

/-- One step of a call links a timer, the others leave the list and the timers. -/
theorem callStep_links {fuel : ℕ} {pc pc' : Pc K} (h : callStep fuel a s pc = some (s',pc')) :
    (∃ k ticks, pc = .scheduleInsert k ticks) ∨
      (s'.links = s.links ∧ s'.ticks = s.ticks ∧ ∀ k ticks, pc ≠ .scheduleInsert k ticks) := by
  rcases callStep_cases h with ⟨-,hpc,rfl,-⟩ | ⟨k,ticks,d,rfl,-⟩ | ⟨d,rfl,hd,rfl,-⟩ | ⟨k,rfl,rfl,
    -⟩ | ⟨rfl,rfl,-⟩
  · refine .inr ⟨rfl,rfl,?_⟩
    rintro k ticks rfl
    cases hpc
  · exact .inl ⟨k,ticks,rfl⟩
  · exact .inr ⟨(timerPublish_links hd).1,(timerPublish_links hd).2,by simp⟩
  · exact .inr ⟨rfl,rfl,by simp⟩
  · exact .inr ⟨rfl,rfl,by simp⟩

/-- A call made by a callback. -/
theorem timerRun_callback {fuel now asof c : ℕ} {k : K} {pc : Pc K}
    (hpc : s.pc = .callback now asof k c pc) (hidle : pc ≠ .idle) (h : timerRun fuel s = some s') :
    ∃ r pc', callStep fuel .timer s (s.at .timer) = some (r,pc') ∧ s' = r.put .timer pc' := by
  have hat : s.at .timer = pc := by rw [State.at,hpc]; rfl
  have hrun : timerRun fuel s =
      (callStep fuel .timer s pc).map fun r => { r.1 with pc := .callback now asof k c r.2 } := by
    unfold timerRun
    cases pc <;> simp_all
  rw [hrun] at h
  obtain ⟨⟨r,pc'⟩,hr,rfl⟩ := Option.map_eq_some_iff.mp h
  refine ⟨r,pc',by rw [hat]; exact hr,?_⟩
  simp [State.put,(callStep_pc hr).1,hpc,TimerPc.setInner]

/-! ## The list and the calls -/

/-- The timers of the list, with the ticks of the calls that linked them; and every call so far is in
exactly one of three places. -/
structure Listed (s : State K T) (ks : List K) : Prop where
  ring : IsList s.links .head (ks.map .timer)
  ticks_lt : ∀ k ∈ ks, s.ticks k < 2 ^ 32
  due : ∀ k ∈ ks, s.due (s.call k) = s.ticks k
  calls : (s.pc.taken.toList ++ ks.map s.call ++ s.started).Perm (List.range s.issued)

namespace Listed
variable {ks : List K}

theorem nodup (h : Listed s ks) : ks.Nodup := List.Nodup.of_map _ (IsRing.nodup_nodes h.ring)

theorem unique (h : Listed s ks) {ks' : List K} (h' : Listed s' ks') (hlinks : s'.links = s.links) :
    ks = ks' := by
  have hring := h'.ring
  rw [hlinks] at hring
  exact List.map_injective_iff.mpr (fun a b hab => by simpa using hab) (IsRing.unique h.ring hring)

theorem congr (h : Listed s ks) (hlinks : s'.links = s.links) (hticks : s'.ticks = s.ticks)
    (hcall : s'.call = s.call) (hdue : s'.due = s.due) (hissued : s'.issued = s.issued)
    (hstarted : s'.started = s.started) (htaken : s'.pc.taken = s.pc.taken) : Listed s' ks := by
  refine ⟨?_,?_,?_,?_⟩
  · rw [hlinks]
    exact h.ring
  · rw [hticks]
    exact h.ticks_lt
  · rw [hdue,hcall,hticks]
    exact h.due
  · rw [htaken,hcall,hstarted,hissued]
    exact h.calls

theorem insert (h : Listed s ks) {fuel ticks : ℕ} {k : K} {d : Data K} (hlt : ticks < 2 ^ 32)
    (hk : k ∉ ks) (hd : timerInsert fuel s.toData k ticks = some d) :
    ∃ l r, ks = l ++ r ∧ Listed ({ s with toData := d }.issue k ticks) (l ++ k :: r) ∧
    d = { s.toData with links := d.links, ticks := Function.update s.ticks k ticks } ∧
    (∀ j ∈ l, timerExpired s.toData j ticks = true) ∧
    ∀ j ∈ r.head?, timerExpired s.toData j ticks = false := by
  obtain ⟨l,r,hks,hring,hd',hl,hr⟩ := timerInsert_spec h.ring hk hd
  refine ⟨l,r,hks,⟨hring,fun j hj => ?_,fun j hj => ?_,?_⟩,hd',hl,hr⟩
  · change d.ticks j < 2 ^ 32
    rw [hd']
    by_cases hjk : j = k
    · subst hjk
      simpa using hlt
    · have hmem : j ∈ ks := by simpa [hks,hjk] using hj
      simpa [hjk] using h.ticks_lt j hmem
  · change Function.update s.due s.issued ticks (Function.update s.call k s.issued j) = d.ticks j
    rw [hd']
    by_cases hjk : j = k
    · subst hjk
      simp
    · have hmem : j ∈ ks := by simpa [hks,hjk] using hj
      have hlt' : s.call j < s.issued := by
        have : s.call j ∈ s.pc.taken.toList ++ ks.map s.call ++ s.started := by
          simp only [List.mem_append,List.mem_map]
          exact .inl (.inr ⟨j,hmem,rfl⟩)
        simpa using h.calls.mem_iff.mp this
      simp only [ne_eq,hjk,not_false_eq_true,Function.update_of_ne,Function.update_of_ne hlt'.ne]
      exact h.due j hmem
  · change (s.pc.taken.toList ++ (l ++ k :: r).map (Function.update s.call k s.issued) ++ s.started).Perm
      (List.range (s.issued + 1))
    have hold : ∀ js : List K, (∀ j ∈ js, j ∈ ks) →
        js.map (Function.update s.call k s.issued) = js.map s.call := by
      intro js hjs
      refine List.map_congr_left fun j hj => Function.update_of_ne ?_ _ _
      rintro rfl
      exact hk (hjs j hj)
    have hcalls := h.calls
    rw [hks,List.map_append] at hcalls
    rw [List.map_append,List.map_cons,Function.update_self,hold l (by simp [hks]; tauto),
      hold r (by simp [hks]; tauto),List.range_succ]
    have hmove : (s.pc.taken.toList ++ (l.map s.call ++ s.issued :: r.map s.call) ++ s.started).Perm
        ((s.pc.taken.toList ++ (l.map s.call ++ r.map s.call) ++ s.started) ++ [s.issued]) := by
      rw [List.perm_iff_count]
      intro c
      simp only [List.count_append,List.count_cons,List.count_nil]
      omega
    exact hmove.trans (hcalls.append_right _)

theorem take {k : K} (h : Listed s (k :: ks)) (now asof : ℕ) (htaken : s.pc.taken = none) :
    Listed { s with links := listRemove s.links (.timer k), pc := .unlock now asof k (s.call k) }
    ks := by
  refine ⟨?_,fun j hj => h.ticks_lt j (by simp [hj]),fun j hj => h.due j (by simp [hj]),?_⟩
  · have hring := h.ring
    rw [List.map_cons] at hring
    exact isList_listRemove (l := []) independent_links (fun _ _ => trivial) hring
  · have hcalls := h.calls
    rw [htaken] at hcalls
    simpa [TimerPc.taken] using hcalls

theorem start (h : Listed s ks) {c : ℕ} {pc : TimerPc K} (htaken : s.pc.taken = some c)
    (hpc : pc.taken = none) : Listed { s with pc := pc, started := c :: s.started } ks := by
  refine ⟨h.ring,h.ticks_lt,h.due,?_⟩
  refine List.Perm.trans ?_ h.calls
  simp only [htaken,hpc]
  rw [List.perm_iff_count]
  intro e
  simp only [List.count_append,List.count_cons,List.count_nil,Option.toList_none,Option.toList_some]
  omega

theorem exists_cons (h : Listed s ks) {k : K} (hempty : Lib.listEmpty s.links Node.head ≠ true)
    (hfirst : listFirst s.links Node.head = .timer k) : ∃ ks', ks = k :: ks' := by
  cases ks with
  | nil => exact absurd ((listEmpty_iff h.ring).mpr rfl) hempty
  | cons k' ks' =>
    rw [listFirst_cons h.ring] at hfirst
    cases hfirst
    exact ⟨ks',rfl⟩

end Listed

/-- No thread is about to link a timer that is linked. -/
def Unlinked (s : State K T) : Prop := ∀ a k ticks, s.at a = .scheduleInsert k ticks → ¬Linked s.toData k

structure Inv (s : State K T) (ks : List K) : Prop where
  listed : Listed s ks
  held : Owned s.mutex s.holds

/-- What a step of the timer thread does at each place. -/
inductive Ran (fuel : ℕ) (s : State K T) : TimerPc K → State K T → Prop where
  | work : timerWorkPending s.toData = true →
      Ran fuel s .check { s with pc := .lock s.timerTicks s.elapsed }
  | rest : Ran fuel s .check { s with running := false }
  | lock {now asof : ℕ} : s.mutex = none →
      Ran fuel s (.lock now asof) { s with mutex := some .timer, pc := .loop now asof }
  | stop {now asof : ℕ} : Ran fuel s (.loop now asof) { s with pc := .finish }
  | take {now asof : ℕ} {k : K} : Lib.listEmpty s.links Node.head ≠ true →
      listFirst s.links Node.head = .timer k → timerOccurred s.toData k now = true →
      Ran fuel s (.loop now asof)
        { s with links := listRemove s.links (.timer k), pc := .unlock now asof k (s.call k) }
  | unlock {now asof c : ℕ} {k : K} :
      Ran fuel s (.unlock now asof k c) { s with mutex := none, pc := .process now asof k c }
  | process {now asof c : ℕ} {k : K} : Ran fuel s (.process now asof k c)
      { s with pc := .callback now asof k c .idle, started := c :: s.started }
  | back {now asof c : ℕ} {k : K} :
      Ran fuel s (.callback now asof k c .idle) { s with pc := .lock now asof }
  | call {now asof c : ℕ} {k : K} {pc pc' : Pc K} {r : State K T} :
      callStep fuel .timer s (s.at .timer) = some (r,pc') →
      Ran fuel s (.callback now asof k c pc) (r.put .timer pc')
  | finish {d : Data K} : timerFinish s.toData = some d →
      Ran fuel s .finish { s with toData := d, pc := .finishUnlock }
  | finishUnlock : Ran fuel s .finishUnlock { s with mutex := none, pc := .check }

theorem Ran.of_timerRun {fuel : ℕ} (hstep : timerRun fuel s = some s') :
    Ran fuel s s.pc s' := by
  have hstep' := hstep
  unfold timerRun at hstep
  cases hpc : s.pc with
  | check =>
    simp only [hpc] at hstep
    split at hstep
    · next hpending =>
      cases hstep
      exact .work hpending
    · cases hstep
      have hrest : Ran fuel s .check { s with running := false } := .rest
      simpa only [hpc] using hrest
  | lock now asof =>
    simp only [hpc] at hstep
    cases hm : s.mutex with
    | some b => simp [hm] at hstep
    | none =>
      simp only [hm,Option.some.injEq] at hstep
      cases hstep
      exact .lock hm
  | loop now asof =>
    simp only [hpc] at hstep
    split at hstep
    · cases hstep
      exact .stop
    · next hempty =>
      split at hstep
      · next k hfirst =>
        split at hstep
        · next hocc =>
          cases hstep
          exact .take hempty hfirst hocc
        · cases hstep
          exact .stop
      · cases hstep
  | unlock | process | finishUnlock =>
    simp only [hpc] at hstep
    cases hstep
    constructor
  | callback now asof k c pc =>
    by_cases hidle : pc = .idle
    · subst hidle
      simp only [hpc] at hstep
      cases hstep
      exact .back
    · obtain ⟨r,pc',hcall,rfl⟩ := timerRun_callback hpc hidle hstep'
      exact .call hcall
  | finish =>
    simp only [hpc] at hstep
    obtain ⟨d,hd,he⟩ := Option.map_eq_some_iff.mp hstep
    cases he
    exact .finish hd

namespace Inv
variable {ks : List K}

theorem callStep (h : Inv s ks) (ha : s.Calls a) (hu : Unlinked s) {fuel : ℕ} {pc' : Pc K}
    (hstep : callStep fuel a s (s.at a) = some (s',pc')) : ∃ ks', Inv (s'.put a pc') ks' := by
  have hholds := holds_of_calls ha
  have hother : ∀ {r : State K T}, r.pc = s.pc → r.thread = s.thread → ∀ b, b ≠ a →
      (r.put a pc').holds b = s.holds b := by
    intro r hr hr' b hb
    rw [holds_put_of_ne hb]
    cases b with
    | timer => simp [State.holds,hr]
    | thread u => simp [State.holds,hr']
  have hself : ∀ {r : State K T}, r.pc = s.pc → (r.put a pc').holds a = pc'.holds := by
    intro r hr
    refine holds_put_self ?_
    cases a with
    | timer => simpa [State.Calls,hr] using ha
    | thread t => trivial
  rcases callStep_cases hstep with ⟨hm,hno,rfl,hyes,-⟩ | ⟨k,ticks,d,hat,hd,rfl,rfl⟩ | ⟨d,hat,hd,rfl,
    rfl⟩ |
    ⟨k,hat,rfl,rfl⟩ | ⟨hat,rfl,rfl⟩
  · exact ⟨ks,h.listed.congr rfl rfl rfl rfl rfl rfl taken_put,
      h.held.update (hother rfl rfl) (.inr (.inl ⟨hm,rfl,(hself rfl).trans hyes⟩))⟩
  · have hk : k ∉ ks := fun hk => hu a k ticks hat ((linked_iff h.listed.ring k).mpr hk)
    obtain ⟨l,r,-,hl,-⟩ := h.listed.insert ticks.toNat_lt hk hd
    refine ⟨_,hl.congr rfl rfl rfl rfl rfl rfl taken_put,
      h.held.update (hother rfl rfl) (.inl ⟨rfl,(hself rfl).trans ?_⟩)⟩
    rw [hholds,hat]
    rfl
  · have hfields := timerPublish_links hd
    refine ⟨ks,h.listed.congr hfields.1 hfields.2 rfl rfl rfl rfl taken_put,
      h.held.update (hother rfl rfl) (.inl ⟨rfl,(hself rfl).trans ?_⟩)⟩
    rw [hholds,hat]
    rfl
  · refine ⟨ks,h.listed.congr rfl rfl rfl rfl rfl rfl taken_put,
      h.held.update (hother rfl rfl) (.inl ⟨rfl,(hself rfl).trans ?_⟩)⟩
    rw [hholds,hat]
    rfl
  · refine ⟨ks,h.listed.congr rfl rfl rfl rfl rfl rfl taken_put,
      h.held.update (hother rfl rfl) (.inr (.inr ⟨?_,rfl,hself rfl⟩))⟩
    rw [hholds,hat]
    rfl

theorem timerGoto (h : Inv s ks) {mutex : Option (Actor T)} {pc : TimerPc K}
    (htaken : pc.taken = s.pc.taken)
    (hself : (mutex = s.mutex ∧ pc.holds = s.pc.holds) ∨
      (s.mutex = none ∧ mutex = some .timer ∧ pc.holds = true) ∨
      (s.pc.holds = true ∧ mutex = none ∧ pc.holds = false)) :
    Inv { s with mutex := mutex, pc := pc } ks := by
  refine ⟨h.listed.congr rfl rfl rfl rfl rfl rfl htaken,
    h.held.update (a := .timer) (fun b hb => ?_) hself⟩
  cases b with
  | timer => exact absurd rfl hb
  | thread t => rfl

theorem timerRun (h : Inv s ks) (hu : Unlinked s) {fuel : ℕ} (hstep : timerRun fuel s = some s') :
    ∃ ks', Inv s' ks' := by
  have htimer : ∀ {r : State K T}, r.thread = s.thread → ∀ b, b ≠ Actor.timer →
      r.holds b = s.holds b := by
    intro r hr b hb
    cases b with
    | timer => exact absurd rfl hb
    | thread t => simp [State.holds,hr]
  have hran := Ran.of_timerRun hstep
  generalize hpc : s.pc = p at hran
  cases hran with
  | work | stop | back =>
    exact ⟨ks,h.timerGoto (by rw [hpc]; rfl) (.inl ⟨rfl,by rw [hpc]; rfl⟩)⟩
  | rest =>
    refine ⟨ks,h.listed.congr rfl rfl rfl rfl rfl rfl (by rw [hpc]),
      h.held.update (a := .timer) (htimer rfl) (.inl ⟨rfl,?_⟩)⟩
    rw [State.holds,State.holds,hpc]
  | lock hm => exact ⟨ks,h.timerGoto (by rw [hpc]; rfl) (.inr (.inl ⟨hm,rfl,rfl⟩))⟩
  | take hempty hfirst hocc =>
    obtain ⟨ks,rfl⟩ := h.listed.exists_cons hempty hfirst
    refine ⟨ks,h.listed.take _ _ (by rw [hpc]; rfl),
      h.held.update (a := .timer) (htimer rfl) (.inl ⟨rfl,?_⟩)⟩
    simp [State.holds,TimerPc.holds,hpc]
  | unlock | finishUnlock =>
    exact ⟨ks,h.timerGoto (by rw [hpc]; rfl) (.inr (.inr ⟨by rw [hpc]; rfl,rfl,rfl⟩))⟩
  | process =>
    refine ⟨ks,h.listed.start (by rw [hpc]; rfl) rfl,
      h.held.update (a := .timer) (htimer rfl) (.inl ⟨rfl,?_⟩)⟩
    simp [State.holds,TimerPc.holds,Pc.holds,hpc]
  | call hcall => exact h.callStep (a := .timer) ⟨_,_,_,_,_,hpc⟩ hu hcall
  | finish hd =>
    have hfields := timerFinish_links hd
    refine ⟨ks,h.listed.congr hfields.1 hfields.2 rfl rfl rfl rfl (by rw [hpc]; rfl),
      h.held.update (a := .timer) (htimer rfl) (.inl ⟨rfl,?_⟩)⟩
    simp [State.holds,TimerPc.holds,hpc]

end Inv

/-- A step of the timer thread outside of a callback leaves the list, takes the first timer, or starts
the callback of the timer it took. It sets no timer. -/
theorem timerRun_outside {ks : List K} (h : Inv s ks) (hout : ¬s.Calls .timer) {fuel : ℕ}
    (hstep : timerRun fuel s = some s') :
    s'.thread = s.thread ∧ s'.ticks = s.ticks ∧
    ((s'.links = s.links ∧ s'.pc.taken = s.pc.taken ∧ ¬s'.Calls .timer) ∨
      (∃ k ks', ks = k :: ks' ∧ Listed s' ks' ∧ s'.pc.taken.isSome = true ∧ ¬s'.Calls .timer) ∨
      (s'.links = s.links ∧ s.pc.taken.isSome = true ∧ s'.pc.taken = none ∧ s'.Calls .timer ∧
      s'.pc.inner = .idle)) := by
  have hran := Ran.of_timerRun hstep
  generalize hpc : s.pc = p at hran
  cases hran with
  | work | lock | stop | unlock | finishUnlock =>
    exact ⟨rfl,rfl,.inl ⟨rfl,rfl,by simp [State.Calls]⟩⟩
  | rest => exact ⟨rfl,rfl,.inl ⟨rfl,congrArg TimerPc.taken hpc,hout⟩⟩
  | take hempty hfirst hocc =>
    obtain ⟨ks,rfl⟩ := h.listed.exists_cons hempty hfirst
    exact ⟨rfl,rfl,.inr (.inl ⟨_,ks,rfl,h.listed.take _ _ (by rw [hpc]; rfl),rfl,by simp [State.Calls]⟩)⟩
  | process => exact ⟨rfl,rfl,.inr (.inr ⟨rfl,rfl,rfl,⟨_,_,_,_,_,rfl⟩,rfl⟩)⟩
  | back | call => exact absurd ⟨_,_,_,_,_,hpc⟩ hout
  | finish hd =>
    exact ⟨rfl,(timerFinish_links hd).2,.inl ⟨(timerFinish_links hd).1,rfl,by simp [State.Calls]⟩⟩

/-- A tick changes the clock, and the timer thread may run after it. -/
theorem timerReportTick_eq (s : State K T) :
    ∃ running, timerReportTick s = { s with
      timerTicks := (s.timerTicks + 1) % 2 ^ 32
      elapsed := s.elapsed + 1
      running := running } := by
  unfold timerReportTick
  simp only
  split
  · exact ⟨true,rfl⟩
  · exact ⟨s.running,rfl⟩

theorem Step.inv {ks : List K} (hstep : Step s s') (h : Inv s ks) (hu : Unlinked s) :
    ∃ ks', Inv s' ks' := by
  cases hstep with
  | tick =>
    obtain ⟨running,he⟩ := timerReportTick_eq s
    rw [he]
    exact ⟨ks,h.listed.congr rfl rfl rfl rfl rfl rfl rfl,h.held⟩
  | timer fuel _ hrun => exact h.timerRun hu hrun
  | timerBegin _ hpc hb =>
    refine ⟨ks,h.timerGoto (by rw [hpc]; rfl) (.inl ⟨rfl,?_⟩)⟩
    rw [hpc]
    cases hb <;> rfl
  | timerBlock _ => exact ⟨ks,h.listed.congr rfl rfl rfl rfl rfl rfl rfl,h.held⟩
  | timerWakeup => exact ⟨ks,h.listed.congr rfl rfl rfl rfl rfl rfl rfl,h.held⟩
  | @thread r t pc fuel hcall => exact h.callStep (a := .thread t) trivial hu hcall
  | @threadBegin t pc hidle hb =>
    refine ⟨ks,h.listed.congr rfl rfl rfl rfl rfl rfl rfl,
      h.held.update (a := .thread t) (fun b hb => holds_put_of_ne (s := s) (a := .thread t) hb)
        (.inl ⟨rfl,?_⟩)⟩
    refine (holds_put_self (s := s) (a := .thread t) trivial).trans ?_
    rw [State.holds,hidle]
    cases hb <;> rfl

theorem Initial.inv (h : Initial s) : Inv s [] := by
  obtain ⟨links,hlinks⟩ := h.links
  refine ⟨⟨?_,by simp,by simp,?_⟩,fun a => ?_⟩
  · rw [hlinks]
    exact isList_listInit independent_links trivial
  · simp [h.pc,TimerPc.taken,h.ghost.2.1,h.ghost.2.2]
  · rw [h.mutex]
    cases a with
    | timer => simp [State.holds,h.pc,TimerPc.holds]
    | thread t => simp [State.holds,h.thread,Pc.holds]

end

end X1.Timer
