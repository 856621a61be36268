import Mathlib.Algebra.BigOperators.Group.List.Basic
import X1.Base.Circular
import X1.Timer.Lists

/-! # One call of timer_schedule, one pass of timer_process_list

The two functions on the list, each from its start to its end, while no other thread
schedules timers. Ticks that lie in one window of less than half a turn are in the order of
their distances from its beginning. A pass fires the first timer as long as its time has
come; a callback may put its own timer back at a later time, due or not, so the pass ends
because the timers get closer to its time, not because they get fewer.
-/
namespace X1.Timer
open X1 X1.Lib X1.Ring X1.Circular
variable {K : Type} [DecidableEq K]

/-- `timer_schedule` -/
def timerSchedule (fuel : ℕ) (d : Data K) (k : K) (ticks : ℕ) : Option (Data K) := do
  timerPublish (← timerInsert fuel d k ticks)

/-- The timers that a pass has fired, and those that its callbacks have scheduled, with their ticks. -/
structure Log (K : Type) where
  fired : List (K × ℕ)
  scheduled : List (K × ℕ)

/-- `timer_process`: the callback schedules its own timer at the ticks that `fn` gives, if any. -/
def timerProcess (fuel : ℕ) (fn : Log K → Data K → K → Option UInt32) (log : Log K) (d : Data K) (k : K) :
    Option (Log K × Data K) :=
  match fn log d k with
  | none => some (log,d)
  | some ticks => (timerSchedule fuel d k ticks.toNat).map fun d =>
      ({ log with scheduled := log.scheduled ++ [(k,ticks.toNat)] },d)

def timerProcessList (fn : Log K → Data K → K → Option UInt32) (now : ℕ) :
    ℕ → Log K → Data K → Option (Log K × Data K)
  | 0, _, _ => none
  | fuel + 1, log, d =>
    if Lib.listEmpty d.links Node.head then (timerFinish d).map fun d => (log,d)
    else
      match listFirst d.links Node.head with
      | .timer k =>
        if timerOccurred d k now then do
          let (log,d) ← timerProcess fuel fn { log with fired := log.fired ++ [(k,d.ticks k)] }
            { d with links := listRemove d.links (.timer k) } k
          timerProcessList fn now fuel log d
        else (timerFinish d).map fun d => (log,d)
      | .head => none

/-! ## Distances in a window -/

section
variable {base a b : ℕ}

theorem expired_iff_offset (ha : Word.sub a base < 2 ^ 31) (hb : Word.sub b base < 2 ^ 31) :
    timerTicksExpired a b = true ↔ Word.sub a base < Word.sub b base := by
  unfold timerTicksExpired TIMER_THRESHOLD
  rw [decide_eq_true_iff]
  unfold Word.sub at *
  omega

theorem occurred_iff_offset (ha : Word.sub a base < 2 ^ 31) (hb : Word.sub b base < 2 ^ 31)
    (hla : a < 2 ^ 32) (hlb : b < 2 ^ 32) :
    timerTicksOccurred a b = true ↔ Word.sub a base ≤ Word.sub b base := by
  unfold timerTicksOccurred
  rw [Bool.or_eq_true,decide_eq_true_iff,expired_iff_offset ha hb]
  unfold Word.sub at *
  omega

/-- Not after, in circular order. -/
def NotAfter (a b : ℕ) : Prop := Word.sub b a < 2 ^ 31

theorem notAfter_iff_offset (ha : Word.sub a base < 2 ^ 31) (hb : Word.sub b base < 2 ^ 31) :
    NotAfter a b ↔ Word.sub a base ≤ Word.sub b base := by
  unfold NotAfter
  unfold Word.sub at *
  omega

end

/-- The timers of the list, in a window that begins at `base`, in the order of their ticks. -/
structure Queue (d : Data K) (base : ℕ) (ks : List K) : Prop where
  ring : IsList d.links .head (ks.map .timer)
  window : ∀ k ∈ ks, Word.sub (d.ticks k) base < 2 ^ 31
  sorted : ks.Pairwise fun a b => Word.sub (d.ticks a) base ≤ Word.sub (d.ticks b) base

/-- What the interrupt handler reads is right. -/
structure Published (d : Data K) (ks : List K) : Prop where
  listEmpty : d.listEmpty = ks.isEmpty
  wakeupTicks : ∀ k ∈ ks.head?, d.wakeupTicks = d.ticks k

/-! ## timer_schedule -/

theorem timerInsert_some {d : Data K} {ks : List K} (h : IsList d.links .head (ks.map .timer))
    (k : K) (ticks : ℕ) {fuel : ℕ} (hfuel : ks.length < fuel) :
    ∃ d', timerInsert fuel d k ticks = some d' := by
  have hfirst : listFirst d.links Node.head = (ks.map Node.timer).headD .head := IsRing.next_head h
  have hlist : IsList { d with ticks := Function.update d.ticks k ticks }.links .head
      (ks.map .timer) := h
  obtain ⟨tmp,htmp⟩ : ∃ tmp, timerFind { d with ticks := Function.update d.ticks k ticks } ticks fuel
      ((ks.map Node.timer).headD .head) = some tmp := timerFind_some hlist (l := []) rfl hfuel
  rw [← hfirst] at htmp
  exact ⟨_,Option.bind_eq_some_iff.mpr ⟨tmp,htmp,rfl⟩⟩

/-- The pair is set from the first timer of a list that is not empty. -/
theorem timerPublish_spec {d : Data K} {ks : List K} (h : IsList d.links .head (ks.map .timer))
    (hne : ks ≠ []) : ∃ d', timerPublish d = some d' ∧
    d' = { d with listEmpty := false, wakeupTicks := d'.wakeupTicks } ∧ Published d' ks := by
  cases ks with
  | nil => exact absurd rfl hne
  | cons k ks =>
    refine ⟨{ d with listEmpty := false, wakeupTicks := d.ticks k },?_,rfl,rfl,by simp⟩
    rw [timerPublish,listFirst_cons h]

theorem Queue.schedule {d : Data K} {base ticks fuel : ℕ} {k : K} {ks : List K}
    (h : Queue d base ks) (hk : k ∉ ks) (hticks : Word.sub ticks base < 2 ^ 31)
    (hfuel : ks.length < fuel) :
    ∃ d' l r, timerSchedule fuel d k ticks = some d' ∧ ks = l ++ r ∧ Queue d' base (l ++ k :: r) ∧
    d'.ticks = Function.update d.ticks k ticks ∧ Published d' (l ++ k :: r) ∧
    d'.timerTicks = d.timerTicks := by
  obtain ⟨d₁,hd₁⟩ := timerInsert_some h.ring k ticks hfuel
  obtain ⟨l,r,hks,hring,hd,hl,hr⟩ := timerInsert_spec h.ring hk hd₁
  obtain ⟨d₂,hd₂,hfields,hpub⟩ := timerPublish_spec hring (by simp)
  have hlinks : d₂.links = d₁.links := by rw [hfields]
  have hnew : d₂.ticks = Function.update d.ticks k ticks := by rw [hfields,hd]
  have htimer : d₂.timerTicks = d.timerTicks := by rw [hfields,hd]
  have hcmp : ∀ j ∈ ks, timerExpired d j ticks = true ↔
      Word.sub (d.ticks j) base < Word.sub ticks base := by
    intro j hj
    exact expired_iff_offset (h.window j hj) hticks
  refine ⟨d₂,l,r,?_,hks,⟨?_,fun j hj => ?_,?_⟩,hnew,hpub,htimer⟩
  · rw [timerSchedule,hd₁]
    exact hd₂
  · rw [hlinks]
    exact hring
  · rw [hnew]
    by_cases hjk : j = k
    · rw [hjk,Function.update_self]
      exact hticks
    · rw [Function.update_of_ne hjk]
      exact h.window j (by simpa [hks,hjk] using hj)
  · rw [hnew]
    apply sorted_insert (fun v => Word.sub v base) (hks ▸ h.sorted) (hks ▸ hk)
    · intro j hj
      exact (hcmp j (by simp [hks,hj])).mp (hl j hj)
    · intro j hj
      have hn := hr j hj
      rw [Bool.eq_false_iff,ne_eq,hcmp j (by simp [hks,List.mem_of_mem_head? hj])] at hn
      exact not_lt.mp hn

/-- `timer_schedule` of a timer that is not linked, when all ticks lie in one window: the list stays in
order and gets the timer, and the handler is told of the earliest one. -/
theorem timerSchedule_sorted (d : Data K) (ks : List K) (k : K) (ticks : UInt32)
    (hring : IsRing d.links.nextOf d.links.prevOf .head (ks.map .timer)) (hk : k ∉ ks)
    (hwindow : Window fun v => v = ticks.toNat ∨ ∃ j ∈ ks, v = d.ticks j)
    (hsorted : ks.Pairwise fun a b => NotAfter (d.ticks a) (d.ticks b)) (fuel : ℕ) (hfuel : ks.length < fuel) :
    ∃ d' l r, timerSchedule fuel d k ticks.toNat = some d' ∧ ks = l ++ r ∧
      IsRing d'.links.nextOf d'.links.prevOf .head ((l ++ k :: r).map .timer) ∧
      d'.ticks = Function.update d.ticks k ticks.toNat ∧
      (l ++ k :: r).Pairwise (fun a b => NotAfter (d'.ticks a) (d'.ticks b)) ∧
      d'.listEmpty = false ∧ (∃ j ∈ l ++ k :: r, d'.wakeupTicks = d'.ticks j) ∧
      ∀ j ∈ l ++ k :: r, NotAfter d'.wakeupTicks (d'.ticks j) := by
  obtain ⟨base,hbase⟩ := hwindow
  have hold : ∀ j ∈ ks, Word.sub (d.ticks j) base < 2 ^ 31 := fun j hj => hbase _ (.inr ⟨j,hj,rfl⟩)
  have hqueue : Queue d base ks := by
    refine ⟨hring,hold,hsorted.imp_of_mem fun {a b} ha hb hab => ?_⟩
    exact (notAfter_iff_offset (hold a ha) (hold b hb)).mp hab
  obtain ⟨d',l,r,hd',hks,hq,hticks,hpub,-⟩ := hqueue.schedule hk (hbase _ (.inl rfl)) hfuel
  have horder : (l ++ k :: r).Pairwise fun a b => NotAfter (d'.ticks a) (d'.ticks b) :=
    hq.sorted.imp_of_mem fun {a b} ha hb hab => (notAfter_iff_offset (hq.window a ha)
      (hq.window b hb)).mpr hab
  refine ⟨d',l,r,hd',hks,hq.ring,hticks,horder,?_,?_⟩
  · rw [hpub.listEmpty]
    simp
  · obtain ⟨j,js,hjs⟩ : ∃ j js, l ++ k :: r = j :: js := List.exists_cons_of_ne_nil (by simp)
    have hwake := hpub.wakeupTicks
    have hsort := hq.sorted
    have hwin := hq.window
    rw [hjs] at hwake hsort hwin ⊢
    have hj : d'.wakeupTicks = d'.ticks j := hwake j rfl
    refine ⟨⟨j,by simp,hj⟩,fun i hi => ?_⟩
    rw [hj,notAfter_iff_offset (hwin j (by simp)) (hwin i hi)]
    rcases List.mem_cons.mp hi with rfl | hi
    · exact le_rfl
    · exact (List.pairwise_cons.mp hsort).1 i hi

/-- Two timers on both sides of the turn of the clock. -/
def samplePair : Data ℕ where
  ticks := fun k => if k = 0 then 2 ^ 32 - 2 else 1
  links :=
    { nextOf := fun n => if n = .head then .timer 0 else if n = .timer 0 then .timer 1 else .head
      prevOf := fun n => if n = .head then .timer 1 else if n = .timer 1 then .timer 0 else .head }
  timerTicks := 1
  listEmpty := false
  wakeupTicks := 2 ^ 32 - 2

theorem samplePair_ring : IsRing samplePair.links.nextOf samplePair.links.prevOf .head
    ([0,1].map .timer) := by
  refine ⟨by decide,by decide,by decide⟩

theorem timerSchedule_between : ∃ d' l r, timerSchedule 3 samplePair 2 0 = some d' ∧ [0,1] = l ++ r ∧
    (l ++ 2 :: r).Pairwise (fun a b => NotAfter (d'.ticks a) (d'.ticks b)) := by
  have hwindow : Window fun v => v = (0 : UInt32).toNat ∨ ∃ j ∈ [0,1], v = samplePair.ticks j := by
    refine ⟨2 ^ 32 - 2,?_⟩
    rintro v (rfl | ⟨j,hj,rfl⟩)
    · decide
    · rcases List.mem_pair.mp hj with rfl | rfl
      · decide
      · decide
  obtain ⟨d',l,r,hd',hlr,-,-,hsorted,-⟩ := timerSchedule_sorted samplePair [0,1] 2 0 samplePair_ring
    (by decide)
    hwindow (by unfold NotAfter; decide) 3 (by decide)
  exact ⟨d',l,r,hd',hlr,hsorted⟩

/-! ## timer_process_list -/

/-- The entries of the list: timers with their ticks. -/
def entries (d : Data K) (ks : List K) : List (K × ℕ) := ks.map fun k => (k,d.ticks k)

/-- How far the timers are behind the end of the tick `now`. -/
def lag (base now : ℕ) (es : List (K × ℕ)) : ℕ := (es.map fun e => Word.sub now base + 1 - Word.sub e.2 base).sum

/-- A callback that schedules its timer does so at a later time in the window. -/
def Reschedules (base now : ℕ) (fn : Log K → Data K → K → Option UInt32) : Prop :=
  ∀ log d k ticks, Word.sub (d.ticks k) base ≤ Word.sub now base → fn log d k = some ticks →
    Word.sub (d.ticks k) base < Word.sub ticks.toNat base ∧ Word.sub ticks.toNat base < 2 ^ 31

/-- What the callback of `k` asks for. -/
def asked (fn : Log K → Data K → K → Option UInt32) (log : Log K) (d : Data K) (k : K) : List (K × ℕ) :=
  ((fn log d k).map fun ticks => (k,ticks.toNat)).toList

/-- From one log to another: each timer that is fired has its callback run, once, and what this asks for is
scheduled. -/
inductive Calls (fn : Log K → Data K → K → Option UInt32) : Log K → Log K → Prop
  | nil (log : Log K) : Calls fn log log
  | cons {log log' : Log K} (d : Data K) (k : K) (h : Calls fn ⟨log.fired ++ [(k,d.ticks k)],
      log.scheduled ++ asked fn { log with fired := log.fired ++ [(k,d.ticks k)] } d k⟩ log') : Calls fn log log'

/-- What a pass from the list `ks` comes to: `f` are the timers it fires, `g` those scheduled meanwhile,
and `rs` is the list it leaves. -/
structure Pass (base now : ℕ) (d : Data K) (ks : List K) (f g : List (K × ℕ)) (rs : List K) (d' : Data K) : Prop where
  queue : Queue d' base rs
  ticks_lt : ∀ k ∈ rs, d'.ticks k < 2 ^ 32
  perm : (entries d ks ++ g).Perm (f ++ entries d' rs)
  fired : ∀ e ∈ f, Word.sub e.2 base ≤ Word.sub now base ∧ e.2 < 2 ^ 32
  sorted : f.Pairwise fun a b => Word.sub a.2 base ≤ Word.sub b.2 base
  after : ∀ v, (∀ k ∈ ks, v ≤ Word.sub (d.ticks k) base) → ∀ e ∈ f, v ≤ Word.sub e.2 base
  left : ∀ k ∈ rs, Word.sub now base < Word.sub (d'.ticks k) base
  published : Published d' rs

section
variable {d d₁ d' : Data K} {base now : ℕ} {k : K} {ks ks₁ rs : List K} {f g g₀ : List (K × ℕ)}

theorem Queue.head_le (h : Queue d base (k :: ks)) {j : K} (hj : j ∈ k :: ks) :
    Word.sub (d.ticks k) base ≤ Word.sub (d.ticks j) base := by
  rcases List.mem_cons.mp hj with rfl | hj
  · exact le_rfl
  · exact (List.pairwise_cons.mp h.sorted).1 j hj

theorem timerFinish_spec (h : IsList d.links .head (ks.map .timer)) : ∃ d', timerFinish d = some d' ∧
    d'.links = d.links ∧ d'.ticks = d.ticks ∧ Published d' ks := by
  unfold timerFinish
  cases ks with
  | nil =>
    rw [if_pos ((listEmpty_iff h).mpr rfl)]
    exact ⟨_,rfl,rfl,rfl,rfl,by simp⟩
  | cons k ks =>
    rw [if_neg fun he => by simpa using (listEmpty_iff h).mp he,listFirst_cons h]
    exact ⟨_,rfl,rfl,rfl,rfl,by simp⟩

/-- The pass ends: no timer, or the first one is not due. -/
theorem Queue.stop (h : Queue d base ks) (now : ℕ) (hlt : ∀ k ∈ ks, d.ticks k < 2 ^ 32)
    (hlater : ∀ k ∈ ks.head?, Word.sub now base < Word.sub (d.ticks k) base) :
    ∃ d', timerFinish d = some d' ∧ Pass base now d ks [] [] ks d' := by
  obtain ⟨d',hd',hlinks,hticks,hpub⟩ := timerFinish_spec h.ring
  refine ⟨d',hd',⟨?_,?_,?_⟩,?_,?_,by simp,.nil,by simp,fun j hj => ?_,hpub⟩
  · rw [hlinks]
    exact h.ring
  · rw [hticks]
    exact h.window
  · rw [hticks]
    exact h.sorted
  · rw [hticks]
    exact hlt
  · simp [entries,hticks]
  · rw [hticks]
    cases ks with
    | nil => simp at hj
    | cons k ks => exact (hlater k rfl).trans_le (h.head_le hj)

/-- The first timer is fired, `g₀` is what its callback schedules, and the pass goes on from `ks₁`. -/
theorem Pass.cons (hp : Pass base now d₁ ks₁ f g rs d') (hlt : d.ticks k < 2 ^ 32)
    (hdue : Word.sub (d.ticks k) base ≤ Word.sub now base)
    (hperm : (entries d₁ ks₁).Perm (entries d ks ++ g₀))
    (hge : ∀ j ∈ ks₁, Word.sub (d.ticks k) base ≤ Word.sub (d₁.ticks j) base) :
    Pass base now d (k :: ks) ((k,d.ticks k) :: f) (g₀ ++ g) rs d' := by
  refine ⟨hp.queue,hp.ticks_lt,?_,?_,?_,fun v hv => ?_,hp.left,hp.published⟩
  · change ((k,d.ticks k) :: (entries d ks ++ (g₀ ++ g))).Perm ((k,d.ticks k) :: (f ++ entries d' rs))
    rw [← List.append_assoc]
    exact ((hperm.symm.append_right g).trans hp.perm).cons _
  · intro e he
    rcases List.mem_cons.mp he with rfl | he
    · exact ⟨hdue,hlt⟩
    · exact hp.fired e he
  · exact List.pairwise_cons.mpr ⟨hp.after _ hge,hp.sorted⟩
  · have hk := hv k (by simp)
    intro e he
    rcases List.mem_cons.mp he with rfl | he
    · exact hk
    · exact hp.after v (fun j hj => hk.trans (hge j hj)) e he

omit [DecidableEq K] in
theorem lag_perm {es es' : List (K × ℕ)} (h : es.Perm es') : lag base now es = lag base now es' :=
  (h.map _).sum_eq

omit [DecidableEq K] in
theorem lag_cons (e : K × ℕ) (es : List (K × ℕ)) :
    lag base now (e :: es) = (Word.sub now base + 1 - Word.sub e.2 base) + lag base now es := by
  simp [lag]

end

theorem Queue.take {d : Data K} {base : ℕ} {k : K} {ks : List K} (h : Queue d base (k :: ks)) :
    k ∉ ks ∧ Queue { d with links := listRemove d.links (.timer k) } base ks := by
  have hring := h.ring
  rw [List.map_cons] at hring
  refine ⟨?_,?_,fun j hj => h.window j (by simp [hj]),(List.pairwise_cons.mp h.sorted).2⟩
  · have hnodup := IsRing.nodup_nodes hring
    simpa using (List.nodup_cons.mp hnodup).1
  · exact isList_listRemove (l := []) independent_links (fun _ _ => trivial) hring

/-- The callback of `k`, taken from the list, runs. The list is what it was, or has the timer again at a
later place; either way the timers have come closer to the time of the pass. -/
theorem Queue.process {fn : Log K → Data K → K → Option UInt32} {d : Data K} {base now fuel : ℕ}
    {k : K} {ks : List K} (hq : Queue d base ks) (hk : k ∉ ks) (hfn : Reschedules base now fn)
    (hlt : ∀ j ∈ ks, d.ticks j < 2 ^ 32) (hdue : Word.sub (d.ticks k) base ≤ Word.sub now base)
    (hhead : ∀ j ∈ ks, Word.sub (d.ticks k) base ≤ Word.sub (d.ticks j) base)
    (hfuel : ks.length < fuel) (log : Log K) :
    ∃ d₁ ks₁, timerProcess fuel fn log d k =
      some ({ log with scheduled := log.scheduled ++ asked fn log d k },d₁) ∧ Queue d₁ base ks₁ ∧
    (∀ j ∈ ks₁, d₁.ticks j < 2 ^ 32) ∧ (entries d₁ ks₁).Perm (entries d ks ++ asked fn log d k) ∧
    (∀ j ∈ ks₁, Word.sub (d.ticks k) base ≤ Word.sub (d₁.ticks j) base) ∧
    lag base now (entries d₁ ks₁) + ks₁.length < lag base now
    (entries d (k :: ks)) + (k :: ks).length := by
  have hcons : lag base now (entries d (k :: ks)) =
      (Word.sub now base + 1 - Word.sub (d.ticks k) base) + lag base now (entries d ks) := lag_cons _ _
  unfold timerProcess asked
  cases hf : fn log d k with
  | none =>
    refine ⟨d,ks,by simp,hq,hlt,by simp,hhead,?_⟩
    rw [hcons,List.length_cons]
    omega
  | some ticks =>
    obtain ⟨hlater,hwin⟩ := hfn log d k ticks hdue hf
    obtain ⟨d₁,l,r,hd₁,hks,hq₁,hticks,-,-⟩ := hq.schedule hk hwin hfuel
    have hold : ∀ j ∈ ks, d₁.ticks j = d.ticks j := by
      intro j hj
      rw [hticks]
      apply Function.update_of_ne
      rintro rfl
      exact hk hj
    have hnew : d₁.ticks k = ticks.toNat := by
      rw [hticks,Function.update_self]
    have hperm : (entries d₁ (l ++ k :: r)).Perm (entries d ks ++ [(k,ticks.toNat)]) := by
      have hmap : entries d₁ ks = entries d ks := List.map_congr_left fun j hj => by rw [hold j hj]
      have hmid : (l ++ k :: r).Perm (ks ++ [k]) := by
        rw [hks]
        exact List.perm_middle.trans (List.perm_append_singleton k (l ++ r)).symm
      rw [← hmap,← hnew]
      simpa [entries] using hmid.map fun j => (j,d₁.ticks j)
    have hmem : ∀ j ∈ l ++ k :: r, j = k ∨ j ∈ ks := by
      intro j hj
      rw [hks]
      simp only [List.mem_append,List.mem_cons] at hj ⊢
      tauto
    simp only
    rw [hd₁]
    refine ⟨d₁,l ++ k :: r,rfl,hq₁,fun j hj => ?_,hperm,fun j hj => ?_,?_⟩
    · rcases hmem j hj with rfl | hj
      · rw [hnew]
        exact ticks.toNat_lt
      · rw [hold j hj]
        exact hlt j hj
    · rcases hmem j hj with rfl | hj
      · rw [hnew]
        exact hlater.le
      · rw [hold j hj]
        exact hhead j hj
    · have hlen : (l ++ k :: r).length = ks.length + 1 := by
        simpa [entries] using hperm.length_eq
      rw [hcons,lag_perm (hperm.trans (List.perm_append_singleton _ _)),lag_cons,List.length_cons,hlen]
      simp only
      omega

/-- With fuel for the timers and for how far they are behind, a pass ends. -/
theorem timerProcessList_spec {fn : Log K → Data K → K → Option UInt32} {base now : ℕ}
    (hfn : Reschedules base now fn) (hnow : Word.sub now base < 2 ^ 31) (hnow' : now < 2 ^ 32) :
    ∀ {fuel : ℕ} (log : Log K) {d : Data K} {ks : List K}, Queue d base ks →
    (∀ k ∈ ks, d.ticks k < 2 ^ 32) → lag base now (entries d ks) + ks.length < fuel →
    ∃ f g rs d', timerProcessList fn now fuel log d =
      some (⟨log.fired ++ f,log.scheduled ++ g⟩,d') ∧ Calls fn log ⟨log.fired ++ f,log.scheduled ++ g⟩ ∧
      Pass base now d ks f g rs d' := by
  intro fuel
  induction fuel with
  | zero =>
    intro log d ks _ _ hfuel
    exact absurd hfuel (Nat.not_lt_zero _)
  | succ fuel ih =>
    intro log d ks hq hlt hfuel
    unfold timerProcessList
    cases ks with
    | nil =>
      obtain ⟨d',hd',hp⟩ := hq.stop now hlt (by simp)
      rw [if_pos ((listEmpty_iff hq.ring).mpr rfl),hd']
      refine ⟨[],[],[],d',by simp,?_,hp⟩
      rw [List.append_nil,List.append_nil]
      exact .nil log
    | cons k ks =>
      have hwin := hq.window k (by simp)
      have hltk := hlt k (by simp)
      rw [if_neg fun he => by simpa using (listEmpty_iff hq.ring).mp he,listFirst_cons hq.ring]
      simp only
      by_cases hocc : timerOccurred d k now = true
      · have hdue := (occurred_iff_offset hwin hnow hltk hnow').mp hocc
        obtain ⟨hk,hq₀⟩ := hq.take
        obtain ⟨d₁,ks₁,hd₁,hq₁,hlt₁,hperm,hge,hlag⟩ :=
          hq₀.process hk hfn (fun j hj => hlt j (by simp [hj])) hdue
          (fun j hj => hq.head_le (by simp [hj]))
          (show ks.length < fuel by simp only [List.length_cons] at hfuel; omega)
            { log with fired := log.fired ++ [(k,d.ticks k)] }
        generalize hg₀ : asked fn _ { d with links := listRemove d.links (.timer k) } k = g₀ at hd₁ hperm
        obtain ⟨f,g,rs,d',hd',hcalls,hp⟩ := ih ⟨log.fired ++ [(k,d.ticks k)],log.scheduled ++ g₀⟩ hq₁ hlt₁
          (Nat.lt_of_lt_of_le hlag (Nat.le_of_lt_succ hfuel))
        rw [if_pos hocc,hd₁]
        refine ⟨(k,d.ticks k) :: f,g₀ ++ g,rs,d',?_,?_,hp.cons hltk hdue hperm hge⟩
        · change timerProcessList fn now fuel _ d₁ = _
          rw [hd']
          simp
        · rw [List.append_assoc,List.append_assoc,List.singleton_append,← hg₀] at hcalls
          rw [← hg₀]
          exact .cons { d with links := listRemove d.links (.timer k) } k hcalls
      · have hlater : Word.sub now base < Word.sub (d.ticks k) base := by
          rw [timerOccurred,occurred_iff_offset hwin hnow hltk hnow'] at hocc
          exact not_le.mp hocc
        obtain ⟨d',hd',hp⟩ := hq.stop now hlt (by simpa using hlater)
        rw [if_neg hocc,hd']
        refine ⟨[],[],_,d',by simp,?_,hp⟩
        rw [List.append_nil,List.append_nil]
        exact .nil log

/-- A list that is made up of elements with a property and elements without it. -/
theorem perm_filter_of_perm_append {α : Type*} {p : α → Bool} {es f g : List α} (h : es.Perm (f ++ g))
    (hf : ∀ e ∈ f, p e = true) (hg : ∀ e ∈ g, p e = false) :
    f.Perm (es.filter p) ∧ g.Perm (es.filter fun e => !p e) := by
  constructor
  · have hfilter := h.filter p
    rw [List.filter_append,List.filter_eq_self.mpr hf,
      List.filter_eq_nil_iff (l := g).mpr (by simpa using hg),List.append_nil] at hfilter
    exact hfilter.symm
  · have hfilter := h.filter fun e => !p e
    rw [List.filter_append,List.filter_eq_nil_iff (l := f).mpr (by simpa using hf),
      List.filter_eq_self (l := g).mpr (by simpa using hg),List.nil_append] at hfilter
    exact hfilter.symm

/-- A pass over a list in order, whose callbacks schedule their own timers at later times or not at all,
ends. It fires what is due, in order, among the timers of the list and those that its callbacks
scheduled, and runs the callback of each. It leaves the rest, in order, with the handler told of the first. -/
theorem timerProcessList_complete (fn : Log K → Data K → K → Option UInt32) (d : Data K) (ks : List K) (now : UInt32)
    (base : ℕ) (hring : IsRing d.links.nextOf d.links.prevOf .head (ks.map .timer))
    (hticks : ∀ k ∈ ks, d.ticks k < 2 ^ 32 ∧ Word.sub (d.ticks k) base < 2 ^ 31)
    (hnow : Word.sub now.toNat base < 2 ^ 31)
    (hsorted : ks.Pairwise fun a b => NotAfter (d.ticks a) (d.ticks b)) (hfn : Reschedules base now.toNat fn) :
    ∃ n, ∀ fuel, n ≤ fuel → ∃ log d' rs, timerProcessList fn now.toNat fuel ⟨[],[]⟩ d = some (log,d') ∧
      Calls fn ⟨[],[]⟩ log ∧ log.fired.Pairwise (fun a b => NotAfter a.2 b.2) ∧
      log.fired.Perm ((entries d ks ++ log.scheduled).filter fun e => timerTicksOccurred e.2 now.toNat) ∧
      (entries d' rs).Perm ((entries d ks ++ log.scheduled).filter fun e => !timerTicksOccurred e.2 now.toNat) ∧
      IsRing d'.links.nextOf d'.links.prevOf .head (rs.map .timer) ∧
      rs.Pairwise (fun a b => NotAfter (d'.ticks a) (d'.ticks b)) ∧
      d'.listEmpty = rs.isEmpty ∧ ∀ k ∈ rs.head?, d'.wakeupTicks = d'.ticks k := by
  have hqueue : Queue d base ks := by
    refine ⟨hring,fun k hk => (hticks k hk).2,hsorted.imp_of_mem fun {a b} ha hb hab => ?_⟩
    exact (notAfter_iff_offset (hticks a ha).2 (hticks b hb).2).mp hab
  refine ⟨lag base now.toNat (entries d ks) + ks.length + 1,fun fuel hfuel => ?_⟩
  obtain ⟨f,g,rs,d',hd',hcalls,hp⟩ := timerProcessList_spec hfn hnow now.toNat_lt ⟨[],[]⟩ hqueue
    (fun k hk => (hticks k hk).1)
    hfuel
  have hfwin : ∀ e ∈ f, Word.sub e.2 base < 2 ^ 31 := fun e he => (hp.fired e he).1.trans_lt hnow
  have hdue : ∀ e ∈ f, timerTicksOccurred e.2 now.toNat = true := by
    intro e he
    exact (occurred_iff_offset (hfwin e he) hnow (hp.fired e he).2 now.toNat_lt).mpr (hp.fired e he).1
  have hlater : ∀ e ∈ entries d' rs, timerTicksOccurred e.2 now.toNat = false := by
    intro e he
    obtain ⟨k,hk,rfl⟩ := List.mem_map.mp he
    rw [Bool.eq_false_iff,ne_eq,
      occurred_iff_offset (hp.queue.window k hk) hnow (hp.ticks_lt k hk) now.toNat_lt,not_le]
    exact hp.left k hk
  have hsplit := perm_filter_of_perm_append hp.perm hdue hlater
  refine ⟨_,d',rs,hd',hcalls,?_,?_,?_,hp.queue.ring,?_,hp.published.listEmpty,hp.published.wakeupTicks⟩
  · exact hp.sorted.imp_of_mem fun {a b} ha hb hab => (notAfter_iff_offset (hfwin a ha)
      (hfwin b hb)).mpr hab
  · exact hsplit.1
  · exact hsplit.2
  · exact hp.queue.sorted.imp_of_mem fun {a b} ha hb hab =>
      (notAfter_iff_offset (hp.queue.window a ha) (hp.queue.window b hb)).mpr hab

/-- The callback of timer 0 counts ticks, as that of the stopwatch does, and the other fires once. -/
def everyTick (_ : Log ℕ) (d : Data ℕ) (k : ℕ) : Option UInt32 :=
  if k = 0 then some (UInt32.ofNat (d.ticks k + 1)) else none

theorem everyTick_reschedules : Reschedules (2 ^ 32 - 2) 1 everyTick := by
  intro log d k ticks hdue hf
  unfold everyTick at hf
  split at hf
  · cases hf
    rw [UInt32.toNat_ofNat']
    unfold Word.sub at *
    omega
  · cases hf

example : (timerProcessList everyTick 1 20 ⟨[],[]⟩ samplePair).map (fun r => r.1.fired) =
    some [(0,2 ^ 32 - 2),(0,2 ^ 32 - 1),(0,0),(0,1),(1,1)] := by decide

theorem timerProcessList_late : ∃ n, ∀ fuel, n ≤ fuel → ∃ log d', timerProcessList everyTick 1 fuel ⟨[],[]⟩ samplePair =
    some (log,d') ∧ Calls everyTick ⟨[],[]⟩ log ∧ log.fired.Pairwise (fun a b => NotAfter a.2 b.2) := by
  obtain ⟨n,hn⟩ := timerProcessList_complete everyTick samplePair [0,1] 1 (2 ^ 32 - 2)
    samplePair_ring (by decide)
    (by decide) (by unfold NotAfter; decide) everyTick_reschedules
  refine ⟨n,fun fuel hfuel => ?_⟩
  obtain ⟨log,d',rs,hd',hcalls,hfired,-⟩ := hn fuel hfuel
  exact ⟨log,d',hd',hcalls,hfired⟩

end X1.Timer
