import X1.Base.Circular
import X1.Timer.Lists

/-! # Timers in time

As long as the ticks of the pending timers, the time at which the interrupt handler is to
wake the timer thread, and the clock lie in one window, the list is sorted, and what the handler
knows is never too late for the first timer. The timer thread works with a time that it
has read before, and other threads insert timers meanwhile; that no timer is then taken too
early is the part of the invariant that follows a pass through the list.
-/
set_option linter.unusedSectionVars false

namespace X1.Timer
open X1 X1.Lib X1.Ring X1.Circular

/-! ## Comparisons of ticks -/

section
variable {clock a b v : ℕ}

theorem expired_iff (hab : place clock a < place clock b + 2 ^ 31)
    (hba : place clock b < place clock a + 2 ^ 31) :
    timerTicksExpired a b = true ↔ place clock a < place clock b := by
  obtain ⟨m,hm⟩ := place_spec clock a
  obtain ⟨n,hn⟩ := place_spec clock b
  unfold timerTicksExpired TIMER_THRESHOLD Word.sub
  rw [decide_eq_true_iff]
  omega

theorem place_of_occurred (h : timerTicksOccurred v (clock % 2 ^ 32) = true) :
    place clock v ≤ clock := by
  unfold timerTicksOccurred timerTicksExpired TIMER_THRESHOLD Word.sub at h
  unfold place
  simp only [Bool.or_eq_true,decide_eq_true_iff] at h ⊢
  split <;> omega

theorem occurred_of_place (hv : v < 2 ^ 32) (h : place clock v ≤ clock) :
    timerTicksOccurred v (clock % 2 ^ 32) = true := by
  unfold timerTicksOccurred timerTicksExpired TIMER_THRESHOLD Word.sub
  unfold place at h
  simp only [Bool.or_eq_true,decide_eq_true_iff] at h ⊢
  split at h <;> omega

theorem occurred_of_le (ha : a < 2 ^ 32) (hb : b < 2 ^ 32) (hle : place clock a ≤ place clock b)
    (hlt : place clock b < place clock a + 2 ^ 31) : timerTicksOccurred a b = true := by
  obtain ⟨m,hm⟩ := place_spec clock a
  obtain ⟨n,hn⟩ := place_spec clock b
  unfold timerTicksOccurred timerTicksExpired TIMER_THRESHOLD Word.sub
  simp only [Bool.or_eq_true,decide_eq_true_iff]
  omega

/-- A time that was read earlier still tells what lies less than half a turn ahead of it. -/
theorem not_occurred {asof : ℕ} (h₁ : (asof : ℤ) < place clock v) (h₂ : place clock v < asof + 2 ^ 31) :
    timerTicksOccurred v (asof % 2 ^ 32) = false := by
  rw [Bool.eq_false_iff]
  intro h
  obtain ⟨n,hn⟩ := place_spec clock v
  unfold timerTicksOccurred timerTicksExpired TIMER_THRESHOLD Word.sub at h
  simp only [Bool.or_eq_true,decide_eq_true_iff] at h
  omega

end

variable {K T : Type} [DecidableEq K] [DecidableEq T]

/-- The ticks that matter: of the clock, of the pending timers, linked or taken, and of the next
wake-up. -/
inductive Value (s : State K T) : ℕ → Prop where
  | clock : Value s s.timerTicks
  | linked {k : K} : Linked s.toData k → Value s (s.ticks k)
  | taken {c : ℕ} : s.pc.taken = some c → Value s (s.due c)
  | wakeup : s.listEmpty = false → Value s s.wakeupTicks

/-- No linked timer is scheduled again, and all ticks lie in one window. -/
structure Fair (s : State K T) : Prop where
  unlinked : Unlinked s
  window : Window (Value s)

/-- The wake-up the handler knows of is not after the time the pass works with, or it is less than half
a turn ahead of it and belongs to a timer in the list. -/
def Anchored (s : State K T) (ks : List K) (asof : ℕ) : Prop :=
  place s.elapsed s.wakeupTicks ≤ asof ∨
    (place s.elapsed s.wakeupTicks < asof + 2 ^ 31 ∧ ∃ k ∈ ks, s.ticks k = s.wakeupTicks)

structure Timed (s : State K T) (ks : List K) : Prop where
  clock : s.timerTicks = s.elapsed % 2 ^ 32
  sorted : ks.Pairwise fun a b => place s.elapsed (s.ticks a) ≤ place s.elapsed (s.ticks b)
  wakeup_lt : s.listEmpty = false → s.wakeupTicks < 2 ^ 32
  first : (∀ a, s.at a ≠ .schedulePublish) → ∀ k ∈ ks.head?,
    s.listEmpty = false ∧ place s.elapsed s.wakeupTicks ≤ place s.elapsed (s.ticks k)
  pass : ∀ now asof, s.pc.pass = some (now,asof) →
    now = asof % 2 ^ 32 ∧ asof ≤ s.elapsed ∧ s.listEmpty = false ∧ Anchored s ks asof
  taken : ∀ c, s.pc.taken = some c → s.due c < 2 ^ 32 ∧ place s.elapsed (s.due c) ≤ s.elapsed

namespace Timed
variable {s s' : State K T} {ks : List K} {a : Actor T}

theorem value_clock (h : Timed s ks) : Value s (s.elapsed % 2 ^ 32) := h.clock ▸ .clock

theorem close (h : Timed s ks) (hw : Window (Value s)) {v w : ℕ} (hv : Value s v) (hw' : Value s w) :
    place s.elapsed v < place s.elapsed w + 2 ^ 31 := hw.close h.value_clock hv hw'

theorem congr (h : Timed s ks) (hdata : s'.toData = s.toData) (helapsed : s'.elapsed = s.elapsed)
    (hdue : s'.due = s.due) (hpass : ∀ p, s'.pc.pass = some p → s.pc.pass = some p)
    (htaken : ∀ c, s'.pc.taken = some c → s.pc.taken = some c)
    (hpublish : (∀ a, s'.at a ≠ .schedulePublish) → ∀ a, s.at a ≠ .schedulePublish) : Timed s' ks := by
  refine ⟨?_,?_,?_,?_,?_,?_⟩
  · rw [hdata,helapsed]
    exact h.clock
  · rw [hdata,helapsed]
    exact h.sorted
  · rw [hdata]
    exact h.wakeup_lt
  · rw [hdata,helapsed]
    exact fun hp => h.first (hpublish hp)
  · intro now asof hp
    rw [Anchored,hdata,helapsed]
    exact h.pass now asof (hpass _ hp)
  · intro c hc
    rw [hdue,helapsed]
    exact h.taken c (htaken c hc)

theorem tick (h : Timed s ks) (hi : Listed s ks) (hw : Window (Value s)) :
    Timed (timerReportTick s) ks := by
  have hplace : ∀ v, Value s v → place (s.elapsed + 1) v = place s.elapsed v := fun v hv =>
    place_succ (hw.close_clock h.value_clock hv).2
  have hticks : ∀ k ∈ ks, place (s.elapsed + 1) (s.ticks k) = place s.elapsed (s.ticks k) := fun k hk =>
    hplace _ (.linked ((linked_iff hi.ring k).mpr hk))
  have hmain : Timed { s with timerTicks := (s.timerTicks + 1) % 2 ^ 32, elapsed := s.elapsed + 1 }
      ks := by
    refine ⟨?_,?_,h.wakeup_lt,fun hp k hk => ?_,fun now asof hp => ?_,fun c hc => ?_⟩
    · change (s.timerTicks + 1) % 2 ^ 32 = (s.elapsed + 1) % 2 ^ 32
      rw [h.clock]
      omega
    · refine h.sorted.imp_of_mem fun {a b} ha hb hab => ?_
      change place (s.elapsed + 1) (s.ticks a) ≤ place (s.elapsed + 1) (s.ticks b)
      rw [hticks a ha,hticks b hb]
      exact hab
    · obtain ⟨he,hle⟩ := h.first hp k hk
      refine ⟨he,?_⟩
      change place (s.elapsed + 1) s.wakeupTicks ≤ place (s.elapsed + 1) (s.ticks k)
      rw [hplace _ (.wakeup he),hticks k (List.mem_of_mem_head? hk)]
      exact hle
    · obtain ⟨hnow,hasof,he,hanchor⟩ := h.pass now asof hp
      refine ⟨hnow,hasof.trans (Nat.le_succ _),he,?_⟩
      change place (s.elapsed + 1) s.wakeupTicks ≤ asof ∨
        (place (s.elapsed + 1) s.wakeupTicks < asof + 2 ^ 31 ∧ _)
      rw [hplace _ (.wakeup he)]
      exact hanchor
    · obtain ⟨hlt,hle⟩ := h.taken c hc
      refine ⟨hlt,?_⟩
      change place (s.elapsed + 1) (s.due c) ≤ ((s.elapsed + 1 : ℕ) : ℤ)
      rw [hplace _ (.taken hc)]
      push_cast
      omega
  obtain ⟨running,he⟩ := timerReportTick_eq s
  rw [he]
  exact hmain.congr rfl rfl rfl (fun _ => id) (fun _ => id) id

/-- `timer_schedule` links a timer. What the handler knows may be too late until it is published. -/
theorem insert (h : Timed s ks) (hi : Listed s ks) {fuel t : ℕ} {k : K} {d : Data K}
    (hlt : t < 2 ^ 32) (hk : k ∉ ks) (hd : timerInsert fuel s.toData k t = some d) (ha : s.Calls a)
    (hw : Window (Value (({ s with toData := d }.issue k t).put a .schedulePublish))) :
    ∃ ks', Listed (({ s with toData := d }.issue k t).put a .schedulePublish) ks' ∧
    Timed (({ s with toData := d }.issue k t).put a .schedulePublish) ks' := by
  obtain ⟨l,r,hks,hlisted,hd',hl,hr⟩ := hi.insert hlt hk hd
  have hlisted' : Listed (({ s with toData := d }.issue k t).put a .schedulePublish) (l ++ k :: r) :=
    hlisted.congr rfl rfl rfl rfl rfl rfl taken_put
  have hticks : d.ticks = Function.update s.ticks k t := by rw [hd']
  have htimer : d.timerTicks = s.timerTicks := by rw [hd']
  have hempty : d.listEmpty = s.listEmpty := by rw [hd']
  have hwake : d.wakeupTicks = s.wakeupTicks := by rw [hd']
  have hold : ∀ j ∈ ks, d.ticks j = s.ticks j := by
    intro j hj
    rw [hticks]
    refine Function.update_of_ne ?_ _ _
    rintro rfl
    exact hk hj
  have hvalue : ∀ j ∈ l ++ k :: r, Value (({ s with toData := d }.issue k t).put a .schedulePublish)
      (d.ticks j) :=
    fun j hj => .linked ((linked_iff hlisted'.ring j).mpr hj)
  have hclock : Value (({ s with toData := d }.issue k t).put a .schedulePublish)
      (s.elapsed % 2 ^ 32) := by
    rw [← h.clock,← htimer]
    exact .clock
  have hcmp : ∀ j ∈ ks, timerExpired s.toData j t = true ↔
      place s.elapsed (s.ticks j) < place s.elapsed t := by
    intro j hj
    have hj' := hvalue j (by rw [hks] at hj; simp only [List.mem_append,List.mem_cons] at hj ⊢; tauto)
    have hk' := hvalue k (by simp)
    rw [hold j hj] at hj'
    rw [hticks,Function.update_self] at hk'
    exact expired_iff (hw.close hclock hj' hk') (hw.close hclock hk' hj')
  refine ⟨_,hlisted',?_,?_,?_,fun hp => ?_,fun now asof hp => ?_,fun c hc => ?_⟩
  · exact htimer.trans h.clock
  · change (l ++ k :: r).Pairwise fun a b => place s.elapsed (d.ticks a) ≤ place s.elapsed (d.ticks b)
    rw [hticks]
    refine sorted_insert (place s.elapsed) (hks ▸ h.sorted) (hks ▸ hk) (fun j hj => ?_) fun j hj => ?_
    · exact (hcmp j (by simp [hks,hj])).mp (hl j hj)
    · have hn := hr j hj
      rw [Bool.eq_false_iff,ne_eq,hcmp j (by simp [hks,List.mem_of_mem_head? hj])] at hn
      exact not_lt.mp hn
  · change d.listEmpty = false → d.wakeupTicks < 2 ^ 32
    rw [hempty,hwake]
    exact h.wakeup_lt
  · exact absurd (at_put_self (s := { s with toData := d }.issue k t) (by
      cases a with
      | timer => exact ha
      | thread t => trivial)) (hp a)
  · rw [pass_put] at hp
    obtain ⟨hnow,hasof,he,hanchor⟩ := h.pass now asof hp
    refine ⟨hnow,hasof,hempty.trans he,?_⟩
    change place s.elapsed d.wakeupTicks ≤ asof ∨ (place s.elapsed d.wakeupTicks < asof + 2 ^ 31 ∧
      ∃ j ∈ l ++ k :: r, d.ticks j = d.wakeupTicks)
    rw [hwake]
    refine hanchor.imp_right fun hj => ⟨hj.1,?_⟩
    obtain ⟨-,j,hj,he⟩ := hj
    refine ⟨j,?_,(hold j hj).trans he⟩
    rw [hks] at hj
    simp only [List.mem_append,List.mem_cons] at hj ⊢
    tauto
  · rw [taken_put] at hc
    change Function.update s.due s.issued t c < 2 ^ 32 ∧
      place s.elapsed (Function.update s.due s.issued t c) ≤ _
    have hne : c ≠ s.issued := by
      have : c ∈ s.pc.taken.toList ++ ks.map s.call ++ s.started := by
        have hc' : s.pc.taken = some c := hc
        simp [hc']
      have := hi.calls.mem_iff.mp this
      simp only [List.mem_range] at this
      omega
    rw [Function.update_of_ne hne]
    exact h.taken c hc

theorem head_le (h : Timed s (k :: ks)) {j : K} (hj : j ∈ k :: ks) :
    place s.elapsed (s.ticks k) ≤ place s.elapsed (s.ticks j) := by
  rcases List.mem_cons.mp hj with rfl | hj
  · exact le_rfl
  · exact (List.pairwise_cons.mp h.sorted).1 j hj

/-- The first timer is less than half a turn ahead of the time a pass works with. -/
theorem head_lt (h : Timed s (k :: ks)) (hi : Listed s (k :: ks)) (hw : Window (Value s)) {now asof : ℕ}
    (hp : s.pc.pass = some (now,asof)) : place s.elapsed (s.ticks k) < asof + 2 ^ 31 := by
  obtain ⟨-,-,he,hanchor⟩ := h.pass now asof hp
  rcases hanchor with hle | ⟨hlt,j,hj,htick⟩
  · have := h.close hw (.linked ((linked_iff hi.ring k).mpr (by simp))) (.wakeup he)
    omega
  · have := h.head_le hj
    rw [htick] at this
    omega

/-- The pair the handler reads is set from the first timer. -/
theorem publish (h : Timed s (k :: ks)) (hi : Listed s (k :: ks)) (hw : Window (Value s))
    (hdata : s'.toData = { s.toData with listEmpty := false, wakeupTicks := s.ticks k })
    (helapsed : s'.elapsed = s.elapsed) (hdue : s'.due = s.due)
    (hpass : ∀ p, s'.pc.pass = some p → s.pc.pass = some p)
    (htaken : ∀ c, s'.pc.taken = some c → s.pc.taken = some c) : Timed s' (k :: ks) := by
  refine ⟨?_,?_,fun _ => ?_,fun _ j hj => ?_,fun now asof hp => ?_,fun c hc => ?_⟩
  · rw [hdata,helapsed]
    exact h.clock
  · rw [hdata,helapsed]
    exact h.sorted
  · rw [hdata]
    exact hi.ticks_lt k (by simp)
  · obtain rfl : k = j := by simpa using hj
    rw [hdata]
    exact ⟨rfl,le_rfl⟩
  · have hp' := hpass _ hp
    obtain ⟨hnow,hasof,-,-⟩ := h.pass now asof hp'
    rw [Anchored,hdata,helapsed]
    exact ⟨hnow,hasof,rfl,.inr ⟨h.head_lt hi hw hp',k,by simp,rfl⟩⟩
  · rw [hdue,helapsed]
    exact h.taken c (htaken c hc)

/-- The timer thread takes the first timer: its time has come. -/
theorem take (h : Timed s (k :: ks)) (hi : Inv s (k :: ks)) (hw : Window (Value s)) {now asof : ℕ}
    (hpc : s.pc = .loop now asof) (hocc : timerOccurred s.toData k now = true) :
    Timed { s with links := listRemove s.links (.timer k), pc := .unlock now asof k (s.call k) } ks := by
  have hp : s.pc.pass = some (now,asof) := by rw [hpc]; rfl
  obtain ⟨hnow,hasof,he,hanchor⟩ := h.pass now asof hp
  have hlt := h.head_lt hi.listed hw hp
  -- A timer ahead of the time of the pass has not occurred.
  have hpast : ∀ j, place s.elapsed (s.ticks j) < asof + 2 ^ 31 → timerOccurred s.toData j now = true →
      place s.elapsed (s.ticks j) ≤ asof := by
    intro j hj hoccj
    by_contra hn
    rw [timerOccurred,hnow,not_occurred (not_le.mp hn) hj] at hoccj
    cases hoccj
  have hk := hpast k hlt hocc
  have hpublish : ∀ a, s.at a ≠ .schedulePublish := by
    intro a hat
    have hholds : s.holds a = true := by
      cases a with
      | timer =>
        rw [State.at,hpc] at hat
        cases hat
      | thread t =>
        rw [State.holds]
        rw [State.at] at hat
        rw [hat]
        rfl
    have := hi.held.unique hholds (b := .timer) (by rw [State.holds,hpc]; rfl)
    subst this
    rw [State.at,hpc] at hat
    cases hat
  refine ⟨h.clock,(List.pairwise_cons.mp h.sorted).2,h.wakeup_lt,fun _ j hj => ?_,
    fun now' asof' hp' => ?_,fun c hc => ?_⟩
  · obtain ⟨-,hle⟩ := h.first hpublish k rfl
    exact ⟨he,hle.trans (h.head_le (by simp [List.mem_of_mem_head? hj]))⟩
  · cases hp'
    refine ⟨hnow,hasof,he,?_⟩
    by_cases hle : place s.elapsed s.wakeupTicks ≤ asof
    · exact .inl hle
    · obtain ⟨hwlt,j,hj,htick⟩ := hanchor.resolve_left hle
      refine .inr ⟨hwlt,j,?_,htick⟩
      refine (List.mem_cons.mp hj).resolve_left ?_
      rintro rfl
      rw [htick] at hk
      exact hle hk
  · cases hc
    change s.due (s.call k) < 2 ^ 32 ∧ place s.elapsed (s.due (s.call k)) ≤ s.elapsed
    rw [hi.listed.due k (by simp)]
    exact ⟨hi.listed.ticks_lt k (by simp),hk.trans (by exact_mod_cast hasof)⟩

/-- A change of place that leaves nothing to publish. -/
theorem put (h : Timed s ks) (ha : s.Calls a) {pc : Pc K} (hat : s.at a ≠ .schedulePublish)
    (hdata : s'.toData = s.toData) (helapsed : s'.elapsed = s.elapsed) (hdue : s'.due = s.due)
    (hpc : s'.pc = (s.put a pc).pc) (hthread : s'.thread = (s.put a pc).thread) : Timed s' ks := by
  refine h.congr hdata helapsed hdue (fun p hp => ?_) (fun c hc => ?_) fun hp b => ?_
  · rw [hpc,pass_put] at hp
    exact hp
  · rw [hpc,taken_put] at hc
    exact hc
  · by_cases hb : b = a
    · subst hb
      exact hat
    · have hbat : s'.at b = (s.put a pc).at b := by
        cases b with
        | timer => simp [State.at,hpc]
        | thread u => simp [State.at,hthread]
      rw [at_put_of_ne hb] at hbat
      rw [← hbat]
      exact hp b

theorem callStep (h : Timed s ks) (hi : Inv s ks) (hf : Fair s) (ha : s.Calls a) {fuel : ℕ} {pc' : Pc K}
    (hstep : callStep fuel a s (s.at a) = some (s',pc')) (hw : Window (Value (s'.put a pc'))) :
    ∃ ks', Inv (s'.put a pc') ks' ∧ Timed (s'.put a pc') ks' := by
  obtain ⟨ks',hi'⟩ := hi.callStep ha hf.unlinked hstep
  rcases callStep_cases hstep with ⟨-,-,rfl,-,hat⟩ | ⟨k,ticks,d,hat,hd,rfl,rfl⟩ | ⟨d,hat,hd,rfl,rfl⟩ |
    ⟨k,hat,rfl,rfl⟩ | ⟨hat,rfl,rfl⟩
  · obtain rfl := hi.listed.unique hi'.listed rfl
    exact ⟨ks,hi',h.put ha hat rfl rfl rfl rfl rfl⟩
  · have hk : k ∉ ks := fun hk => hf.unlinked a k ticks hat ((linked_iff hi.listed.ring k).mpr hk)
    obtain ⟨ks'',hl,ht⟩ := h.insert hi.listed ticks.toNat_lt hk hd ha hw
    obtain rfl := hl.unique hi'.listed rfl
    exact ⟨ks'',hi',ht⟩
  · cases ks with
    | nil =>
      have hfirst : listFirst s.links Node.head = .head := IsRing.next_head hi.listed.ring
      simp [timerPublish,hfirst] at hd
    | cons k ks =>
      simp only [timerPublish,listFirst_cons hi.listed.ring,Option.some.injEq] at hd
      subst hd
      obtain rfl := hi.listed.unique hi'.listed rfl
      refine ⟨k :: ks,hi',h.publish hi.listed hf.window rfl rfl rfl (fun p hp => ?_) fun c hc => ?_⟩
      · rw [pass_put] at hp
        exact hp
      · rw [taken_put] at hc
        exact hc
  · obtain rfl := hi.listed.unique hi'.listed rfl
    exact ⟨ks,hi',h.put ha (by rw [hat]; simp) rfl rfl rfl rfl rfl⟩
  · obtain rfl := hi.listed.unique hi'.listed rfl
    exact ⟨ks,hi',h.put ha (by rw [hat]; simp) rfl rfl rfl rfl rfl⟩

theorem timerGoto (h : Timed s ks) (hdata : s'.toData = s.toData) (helapsed : s'.elapsed = s.elapsed)
    (hdue : s'.due = s.due) (hthread : s'.thread = s.thread) (hinner : s.pc.inner = .idle)
    (hpass : ∀ p, s'.pc.pass = some p → s.pc.pass = some p)
    (htaken : ∀ c, s'.pc.taken = some c → s.pc.taken = some c) : Timed s' ks := by
  refine h.congr hdata helapsed hdue hpass htaken fun hp b => ?_
  cases b with
  | timer =>
    rw [State.at,hinner]
    simp
  | thread u =>
    have := hp (.thread u)
    rwa [State.at,hthread] at this

theorem timerRun (h : Timed s ks) (hi : Inv s ks) (hf : Fair s) {fuel : ℕ}
    (hstep : timerRun fuel s = some s') (hw : Window (Value s')) : ∃ ks', Inv s' ks' ∧ Timed s' ks' := by
  obtain ⟨ks',hi'⟩ := hi.timerRun hf.unlinked hstep
  have hran := Ran.of_timerRun hstep
  generalize hpc : s.pc = p at hran
  cases hran with
  | work hpending =>
    obtain rfl := hi.listed.unique hi'.listed rfl
    rw [timerWorkPending,Bool.and_eq_true,Bool.not_eq_true',h.clock] at hpending
    refine ⟨ks,hi',h.clock,h.sorted,h.wakeup_lt,fun hp => h.first fun b => ?_,
      fun now asof hp => ?_,fun c hc => ?_⟩
    · cases b with
      | timer =>
        rw [State.at,hpc]
        simp [TimerPc.inner]
      | thread u => exact hp (.thread u)
    · cases hp
      exact ⟨h.clock,le_rfl,hpending.1,.inl (place_of_occurred hpending.2)⟩
    · cases hc
  | take hempty hfirst hocc =>
    obtain ⟨ks,rfl⟩ := hi.listed.exists_cons hempty hfirst
    have htake := h.take hi hf.window hpc hocc
    obtain rfl := (hi.listed.take _ _ (by rw [hpc]; rfl)).unique hi'.listed rfl
    exact ⟨ks,hi',htake⟩
  | rest | lock | unlock =>
    obtain rfl := hi.listed.unique hi'.listed rfl
    exact ⟨ks,hi',h.timerGoto rfl rfl rfl rfl (by rw [hpc]; rfl) (by rw [hpc]; exact fun _ => id)
      (by rw [hpc]; exact fun _ => id)⟩
  | process | back =>
    obtain rfl := hi.listed.unique hi'.listed rfl
    exact ⟨ks,hi',h.timerGoto rfl rfl rfl rfl (by rw [hpc]; rfl) (by rw [hpc]; exact fun _ => id)
      (by simp [TimerPc.taken])⟩
  | stop | finishUnlock =>
    obtain rfl := hi.listed.unique hi'.listed rfl
    exact ⟨ks,hi',h.timerGoto rfl rfl rfl rfl (by rw [hpc]; rfl) (by simp [TimerPc.pass])
      (by simp [TimerPc.taken])⟩
  | call hcall => exact h.callStep (a := .timer) hi hf ⟨_,_,_,_,_,hpc⟩ hcall hw
  | finish hd =>
    cases ks with
    | nil =>
      have hempty := (listEmpty_iff hi.listed.ring).mpr rfl
      simp only [timerFinish,hempty,↓reduceIte,Option.some.injEq] at hd
      subst hd
      obtain rfl := hi.listed.unique hi'.listed rfl
      exact ⟨[],hi',h.clock,h.sorted,by simp,by simp,by simp [TimerPc.pass],by simp [TimerPc.taken]⟩
    | cons k ks =>
      have hempty : Lib.listEmpty s.links Node.head ≠ true := fun he => by
        simpa using (listEmpty_iff hi.listed.ring).mp he
      simp only [timerFinish,hempty,Bool.false_eq_true,↓reduceIte,listFirst_cons hi.listed.ring,
        Option.some.injEq] at hd
      subst hd
      obtain rfl := hi.listed.unique hi'.listed rfl
      exact ⟨k :: ks,hi',h.publish hi.listed hf.window rfl rfl rfl (by simp [TimerPc.pass])
        (by simp [TimerPc.taken])⟩

end Timed

theorem Step.timed {s s' : State K T} {ks : List K} (hstep : Step s s') (hi : Inv s ks) (h : Timed s ks)
    (hf : Fair s) (hw : Window (Value s')) : ∃ ks', Inv s' ks' ∧ Timed s' ks' := by
  obtain ⟨ks',hi'⟩ := hstep.inv hi hf.unlinked
  cases hstep with
  | tick =>
    have htick := h.tick hi.listed hf.window
    obtain ⟨running,he⟩ := timerReportTick_eq s
    rw [he] at hi' htick ⊢
    obtain rfl := hi.listed.unique hi'.listed rfl
    exact ⟨ks,hi',htick⟩
  | timer fuel _ hrun => exact h.timerRun hi hf hrun hw
  | timerBegin _ hpc hb =>
    obtain rfl := hi.listed.unique hi'.listed rfl
    refine ⟨ks,hi',h.timerGoto rfl rfl rfl rfl (by rw [hpc]; rfl) ?_ (by simp [TimerPc.taken])⟩
    rw [hpc]
    exact fun _ => id
  | timerBlock _ =>
    obtain rfl := hi.listed.unique hi'.listed rfl
    exact ⟨ks,hi',h.congr rfl rfl rfl (fun _ => id) (fun _ => id) id⟩
  | timerWakeup =>
    obtain rfl := hi.listed.unique hi'.listed rfl
    exact ⟨ks,hi',h.congr rfl rfl rfl (fun _ => id) (fun _ => id) id⟩
  | @thread r t pc fuel hcall => exact h.callStep (a := .thread t) hi hf trivial hcall hw
  | @threadBegin t pc hidle hb =>
    obtain rfl := hi.listed.unique hi'.listed rfl
    have hat : s.at (.thread t) ≠ .schedulePublish := by
      rw [State.at,hidle]
      simp
    have hput : Timed (s.put (.thread t) pc) ks := h.put (a := .thread t) trivial hat rfl rfl rfl rfl rfl
    exact ⟨ks,hi',hput⟩

theorem Initial.timed {s : State K T} (h : Initial s) : Timed s [] := by
  refine ⟨?_,.nil,?_,by simp,?_,?_⟩
  · rw [h.data.1,h.ghost.1]
    rfl
  · simp [h.data.2]
  · simp [h.pc,TimerPc.pass]
  · simp [h.pc,TimerPc.taken]

end X1.Timer
