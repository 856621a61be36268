import Mathlib.Data.List.Nodup
import X1.Base.Checked
import X1.Sched.Model

/-! # The run queue

The lists in memory are one ring for each priority, and `Queued` says which threads
they hold and what `nr_threads` counts. One thread may be left out of the lists: the
current one, outside of `thread_runq_schedule`. Each function of the run queue keeps
this, whatever assertion it may fail, and never dequeues from an empty list.
-/
namespace X1.Sched
open X1.Lib X1.Ring X1.Checked

/-- The threads of each list, front first. -/
abbrev Queues := ℕ → List Tid

def Rings (links : Links Node) (queue : Queues) : Prop :=
  ∀ p < THREAD_NR_PRIORITIES, IsList links (.head p) ((queue p).map .thread)

/-- No thread is in two lists. -/
def Separate (queue : Queues) : Prop := ∀ p q t, t ∈ queue p → t ∈ queue q → p = q

theorem thread_mem_ring {queue : Queues} {p : ℕ} {t : Tid} :
    Node.thread t ∈ Node.head p :: (queue p).map Node.thread ↔ t ∈ queue p := by simp

theorem ring_disjoint {queue : Queues} (hsep : Separate queue) {p q : ℕ} (hpq : q ≠ p) :
    ∀ a ∈ Node.head q :: (queue q).map Node.thread, a ∉ Node.head p :: (queue p).map Node.thread := by
  intro a ha hb
  cases a with
  | head r =>
    simp only [List.mem_cons,Node.head.injEq,List.mem_map,reduceCtorEq,and_false,exists_false,
      or_false] at ha hb
    exact hpq (ha.symm.trans hb)
  | thread t => exact hpq (hsep q p t (thread_mem_ring.mp ha) (thread_mem_ring.mp hb))

theorem Rings.enqueue {links : Links Node} {queue : Queues} {p : ℕ} {t : Tid} (h : Rings links queue)
    (hsep : Separate queue) (hp : p < THREAD_NR_PRIORITIES) (ht : ∀ q, t ∉ queue q) :
    Rings (threadListEnqueue links (.head p) t) (Function.update queue p (queue p ++ [t])) := by
  intro q hq
  have hnot : ∀ q, Node.thread t ∉ Node.head q :: (queue q).map Node.thread := fun q hm =>
    ht q (thread_mem_ring.mp hm)
  by_cases hqp : q = p
  · subst hqp
    have := isList_listInsertTail independent_links (fun _ _ => trivial) trivial (h q hq) (hnot q)
    simpa [threadListEnqueue] using this
  · rw [Function.update_of_ne hqp]
    exact isList_listInsertTail_frame independent_links (fun _ _ => trivial) (fun _ _ => trivial) trivial
      (h p hp) (h q hq) (ring_disjoint hsep hqp) (hnot p) (hnot q)

theorem Rings.remove {links : Links Node} {queue : Queues} {p : ℕ} {t : Tid} {l r : List Tid}
    (h : Rings links queue) (hsep : Separate queue) (hp : p < THREAD_NR_PRIORITIES)
    (hq : queue p = l ++ t :: r) :
    Rings (listRemove links (.thread t)) (Function.update queue p (l ++ r)) := by
  have hring := h p hp
  rw [hq,List.map_append,List.map_cons] at hring
  intro q hlt
  by_cases hqp : q = p
  · subst hqp
    simpa using isList_listRemove independent_links (fun _ _ => trivial) hring
  · rw [Function.update_of_ne hqp]
    refine isList_listRemove_frame independent_links (fun _ _ => trivial) (fun _ _ => trivial) hring
      (h q hlt) ?_
    have := ring_disjoint hsep hqp
    rwa [hq,List.map_append,List.map_cons] at this

/-- The downward scan stops at the highest list that is not empty, if there is one. -/
theorem threadRunqScan_spec {links : Links Node} {queue : Queues} (h : Rings links queue) (n : ℕ)
    (hn : n < THREAD_NR_PRIORITIES) {q : ℕ} (hq : q ≤ n) (hne : queue q ≠ []) :
    ∃ p ≤ n, threadRunqScan links n = .head p ∧ queue p ≠ [] ∧ ∀ i ≤ n, queue i ≠ [] → i ≤ p := by
  induction n with
  | zero =>
    obtain rfl : q = 0 := by omega
    exact ⟨0,le_rfl,rfl,hne,fun i hi _ => hi⟩
  | succ n ih =>
    have hempty := listEmpty_iff (h (n + 1) hn)
    by_cases he : queue (n + 1) = []
    · have hqn : q ≠ n + 1 := by rintro rfl; exact hne he
      obtain ⟨p,hp,hscan,hp',hmax⟩ := ih (by omega) (by omega)
      refine ⟨p,by omega,?_,hp',fun i hi hi' => ?_⟩
      · rw [threadRunqScan,if_pos (hempty.mpr (by simp [he])),hscan]
      · have hin : i ≠ n + 1 := by rintro rfl; exact hi' he
        exact hmax i (by omega) hi'
    · refine ⟨n + 1,le_rfl,?_,he,fun i hi _ => hi⟩
      rw [threadRunqScan,if_neg]
      intro hc
      exact he (by simpa using hempty.mp hc)

/-- The counted threads: every runnable thread but idle, and the one left out of the lists. -/
def Counted (s : State) (out : Option Tid) (t : Tid) : Prop :=
  t ≠ s.idle ∧ ((s.thread t).state = .running ∨ some t = out)

instance (s : State) (out : Option Tid) (t : Tid) : Decidable (Counted s out t) :=
  inferInstanceAs (Decidable (_ ∧ (_ ∨ _)))

/-- The lists hold exactly the runnable threads other than idle and `out`, each in the list of its
priority. -/
structure Queued (s : State) (out : Option Tid) (queue : Queues) : Prop where
  rings : Rings s.links queue
  mem_iff : ∀ p t, t ∈ queue p ↔ t ∈ s.created ∧ t ≠ s.idle ∧ (s.thread t).state = .running ∧
    some t ≠ out ∧ (s.thread t).priority = p
  nr_eq : s.nrThreads = (s.created.filter fun t => Counted s out t).length
  nr_lt : s.nrThreads < 2 ^ 32
  nodup : s.created.Nodup
  priority_lt : ∀ t ∈ s.created, (s.thread t).priority < THREAD_NR_PRIORITIES
  idle_mem : s.idle ∈ s.created
  idle_running : (s.thread s.idle).state = .running

theorem length_filter_add {l : List Tid} {P Q : Tid → Prop} [DecidablePred P] [DecidablePred Q] {t : Tid}
    (hnd : l.Nodup) (ht : t ∈ l) (hP : ¬P t) (hQ : Q t) (h : ∀ u ∈ l, u ≠ t → (Q u ↔ P u)) :
    (l.filter fun u => Q u).length = (l.filter fun u => P u).length + 1 := by
  induction l with
  | nil => simp at ht
  | cons a l ih =>
    rw [List.nodup_cons] at hnd
    by_cases hat : a = t
    · subst hat
      have hsame : (l.filter fun u => Q u) = l.filter fun u => P u := by
        refine List.filter_congr fun u hu => ?_
        have hua : u ≠ a := fun he => hnd.1 (he ▸ hu)
        simpa using h u (by simp [hu]) hua
      simp [hP,hQ,hsame]
    · have htl : t ∈ l := by simpa [Ne.symm hat] using ht
      have hih := ih hnd.2 htl fun u hu => h u (by simp [hu])
      have ha := h a (by simp) hat
      by_cases hQa : Q a
      · simp [hQa,ha.mp hQa,hih]
      · have hPa : ¬P a := fun hp => hQa (ha.mpr hp)
        simp [hQa,hPa,hih]

namespace Queued
variable {s s' : State} {out : Option Tid} {queue : Queues} {t : Tid} {p : ℕ}

theorem separate (h : Queued s out queue) : Separate queue := by
  intro p q t hp hq
  rw [h.mem_iff] at hp hq
  exact hp.2.2.2.2.symm.trans hq.2.2.2.2

/-- The queue depends on the lists, the threads that exist, and their states and priorities. -/
theorem congr (h : Queued s out queue) (hlinks : s'.links = s.links) (hnr : s'.nrThreads = s.nrThreads)
    (hcreated : s'.created = s.created) (hidle : s'.idle = s.idle)
    (hstate : ∀ t, (s'.thread t).state = (s.thread t).state)
    (hprio : ∀ t, (s'.thread t).priority = (s.thread t).priority) : Queued s' out queue := by
  refine ⟨?_,fun p t => ?_,?_,hnr ▸ h.nr_lt,?_,fun t ht => ?_,?_,?_⟩
  · rw [hlinks]
    exact h.rings
  · rw [hcreated,hidle,hstate,hprio]
    exact h.mem_iff p t
  · rw [hnr,hcreated,h.nr_eq]
    congr 1
    exact List.filter_congr fun t _ => decide_eq_decide.mpr (by simp only [Counted,hidle,hstate])
  · rw [hcreated]
    exact h.nodup
  · rw [hprio]
    exact h.priority_lt t (hcreated ▸ ht)
  · rw [hidle,hcreated]
    exact h.idle_mem
  · rw [hidle,hstate]
    exact h.idle_running

theorem nr_zero_iff (h : Queued s none queue) : s.nrThreads = 0 ↔ ∀ p, queue p = [] := by
  rw [h.nr_eq,List.length_eq_zero_iff,List.filter_eq_nil_iff]
  constructor
  · intro hall p
    refine List.eq_nil_iff_forall_not_mem.mpr fun t ht => ?_
    obtain ⟨hc,hidle,hrun,-,-⟩ := (h.mem_iff p t).mp ht
    exact hall t hc (by simpa [Counted] using ⟨hidle,hrun⟩)
  · intro hall t hc hcount
    simp only [Counted,reduceCtorEq,or_false,decide_eq_true_eq] at hcount
    have : t ∈ queue (s.thread t).priority := (h.mem_iff _ t).mpr ⟨hc,hcount.1,hcount.2,by simp,rfl⟩
    simp [hall] at this

theorem queue_priority (h : Queued s out queue) (ht : t ∈ queue p) : (s.thread t).priority = p :=
  ((h.mem_iff p t).mp ht).2.2.2.2

theorem lt_of_mem (h : Queued s out queue) (ht : t ∈ queue p) : p < THREAD_NR_PRIORITIES := by
  have := h.priority_lt t ((h.mem_iff p t).mp ht).1
  rwa [h.queue_priority ht] at this

end Queued

/-- A fault, if any, is a failed assertion. -/
abbrev Checks (r : Except Fault State) (P : State → Prop) : Prop := Safe (fun e => e = Fault.assertion) r P

theorem checks_assert {b : Bool} {f : Unit → Except Fault State} {P : State → Prop}
    (h : b = true → Checks (f ()) P) : Checks (assert b >>= f) P := by
  cases b with
  | true => exact h rfl
  | false => rfl

theorem assert_ok {α : Type} {b : Bool} {f : Unit → Except Fault α} {x : α}
    (h : (assert b >>= f) = .ok x) : b = true ∧ f () = .ok x := by
  cases b with
  | true => exact ⟨rfl,h⟩
  | false => cases h

/-- Only the run queue differs. -/
structure SameThreads (s s' : State) : Prop where
  thread : s'.thread = s.thread
  created : s'.created = s.created
  next : s'.next = s.next
  idle : s'.idle = s.idle
  intr : s'.intr = s.intr
  stack : s'.stack = s.stack

theorem SameThreads.trans {s s' s'' : State} (h : SameThreads s s') (h' : SameThreads s' s'') :
    SameThreads s s'' :=
  ⟨h'.thread.trans h.thread,h'.created.trans h.created,h'.next.trans h.next,h'.idle.trans h.idle,
    h'.intr.trans h.intr,h'.stack.trans h.stack⟩

/-- A runnable thread of priority `p`, other than idle. -/
def Ready (s : State) (p : ℕ) (t : Tid) : Prop :=
  t ∈ s.created ∧ t ≠ s.idle ∧ (s.thread t).state = .running ∧ (s.thread t).priority = p

/-- The dispatch rule: idle when the lists are empty, else the front of the highest list. -/
def Picks (queue : Queues) (idle next : Tid) (queue' : Queues) : Prop :=
  (∀ p, queue p = []) ∧ next = idle ∧ queue' = queue ∨
  ∃ p r, queue p = next :: r ∧ queue' = Function.update queue p r ∧ ∀ q, queue q ≠ [] → q ≤ p

namespace Queued
variable {s s' : State} {out : Option Tid} {queue : Queues} {t : Tid} {p : ℕ}

theorem pickIdle (h : Queued s none queue) :
    Queued { s with current := s.idle } (some s.idle) queue := by
  refine ⟨h.rings,fun p t => ?_,?_,h.nr_lt,h.nodup,h.priority_lt,h.idle_mem,h.idle_running⟩
  · rw [h.mem_iff]
    simp only [ne_eq,Option.some.injEq,reduceCtorEq,not_false_eq_true,true_and]
    tauto
  · change s.nrThreads = _
    rw [h.nr_eq]
    congr 1
    refine List.filter_congr fun t _ => decide_eq_decide.mpr ?_
    simp only [Counted,reduceCtorEq,or_false,Option.some.injEq]
    tauto

theorem pickFirst {r : List Tid} (h : Queued s none queue) (htr : queue p = t :: r) :
    Queued { s with links := listRemove s.links (.thread t), current := t } (some t)
      (Function.update queue p r) := by
  have htm : t ∈ queue p := by simp [htr]
  have hlt := h.lt_of_mem htm
  have hnd : (queue p).Nodup := (h.rings p hlt).nodup_nodes.of_map _
  have ht := (h.mem_iff p t).mp htm
  refine ⟨h.rings.remove h.separate hlt (l := []) htr,fun q u => ?_,?_,h.nr_lt,h.nodup,h.priority_lt,
    h.idle_mem,h.idle_running⟩
  · have hu := h.mem_iff q u
    simp only [ne_eq,reduceCtorEq,not_false_eq_true,true_and] at hu
    simp only [ne_eq,Option.some.injEq]
    by_cases hqp : q = p
    · subst hqp
      rw [htr,List.nodup_cons] at hnd
      rw [htr,List.mem_cons] at hu
      rw [Function.update_self]
      constructor
      · intro hur
        have hut : u ≠ t := fun he => hnd.1 (he ▸ hur)
        have := hu.mp (.inr hur)
        tauto
      · intro hall
        exact (hu.mpr (by tauto)).resolve_left hall.2.2.2.1
    · rw [Function.update_of_ne hqp,hu]
      constructor
      · rintro ⟨h1,h2,h3,h4⟩
        refine ⟨h1,h2,h3,?_,h4⟩
        rintro rfl
        exact hqp (h4.symm.trans ht.2.2.2.2)
      · tauto
  · change s.nrThreads = _
    rw [h.nr_eq]
    congr 1
    refine List.filter_congr fun u _ => decide_eq_decide.mpr ?_
    simp only [Counted,reduceCtorEq,or_false,Option.some.injEq]
    constructor
    · tauto
    · rintro ⟨h1,h2 | rfl⟩
      · exact ⟨h1,h2⟩
      · exact ⟨h1,ht.2.2.1⟩

/-- `thread_runq_get_next` returns, and never takes a list head for a thread. -/
theorem getNext (h : Queued s none queue) :
    ∃ s' queue', threadRunqGetNext s = .ok s' ∧ SameThreads s s' ∧ Queued s' (some s'.current) queue' ∧
      Picks queue s.idle s'.current queue' := by
  by_cases hz : s.nrThreads = 0
  · have hempty := h.nr_zero_iff.mp hz
    exact ⟨{ s with current := s.idle },queue,by rw [threadRunqGetNext,if_pos hz]; rfl,
      ⟨rfl,rfl,rfl,rfl,rfl,rfl⟩,h.pickIdle,.inl ⟨hempty,rfl,rfl⟩⟩
  · obtain ⟨q,hq⟩ : ∃ q, queue q ≠ [] := by
      by_contra hall
      exact hz (h.nr_zero_iff.mpr (by simpa using hall))
    have hbound : ∀ i, queue i ≠ [] → i ≤ THREAD_NR_PRIORITIES - 1 := by
      intro i hi
      obtain ⟨t,ht⟩ := List.exists_mem_of_ne_nil _ hi
      have := h.lt_of_mem ht
      omega
    obtain ⟨p,hp,hscan,hne,hmax⟩ :=
      threadRunqScan_spec h.rings (THREAD_NR_PRIORITIES - 1) (by decide) (hbound q hq) hq
    obtain ⟨t,r,htr⟩ := List.exists_cons_of_ne_nil hne
    have hlt : p < THREAD_NR_PRIORITIES := h.lt_of_mem (t := t) (by simp [htr])
    have hfirst : listFirst s.links (.head p) = .thread t := by
      rw [listFirst,(h.rings p hlt).next_head,htr]
      rfl
    refine ⟨{ s with links := listRemove s.links (.thread t), current := t },
      Function.update queue p r,?_,⟨rfl,rfl,rfl,rfl,rfl,rfl⟩,h.pickFirst htr,
      .inr ⟨p,r,htr,rfl,fun i hi => hmax i (hbound i hi) hi⟩⟩
    rw [threadRunqGetNext,if_neg hz,hscan,threadListDequeue,hfirst]
    rfl

/-- The first half of `thread_runq_schedule`. -/
def threadRunqPutBack (s : State) : Except Fault State := do
  let s1 ← threadRunqPutPrev s s.current
  if !threadIsRunning (s1.thread s.current) then threadRunqRemove s1 s.current else pure s1

/-- The current thread linked at the tail of its list. -/
def relinked (s : State) : State :=
  { s with links := threadListEnqueue s.links (.head s.self.priority) s.current }

theorem putPrev_eq (h : Queued s (some s.current) queue) (hc : s.current ∈ s.created)
    (hidle : s.current ≠ s.idle) : threadRunqPutPrev s s.current = .ok (relinked s) := by
  have hlt := h.priority_lt _ hc
  simp only [threadRunqPutPrev,hidle,↓reduceIte,threadRunqGetList,assert,hlt,decide_true]
  rfl

theorem not_mem_current (h : Queued s (some s.current) queue) (q : ℕ) : s.current ∉ queue q := fun hq =>
  ((h.mem_iff q _).mp hq).2.2.2.1 rfl

/-- The queues with the current thread back in its list. -/
abbrev withCurrent (s : State) (queue : Queues) : Queues :=
  Function.update queue s.self.priority (queue s.self.priority ++ [s.current])

theorem rings_relinked (h : Queued s (some s.current) queue) (hc : s.current ∈ s.created) :
    Rings (relinked s).links (withCurrent s queue) :=
  h.rings.enqueue h.separate (h.priority_lt _ hc) h.not_mem_current

theorem mem_withCurrent :
    t ∈ withCurrent s queue p ↔ t ∈ queue p ∨ t = s.current ∧ p = s.self.priority := by
  by_cases hp : p = s.self.priority
  · subst hp
    simp
  · simp [hp]

theorem separate_withCurrent (h : Queued s (some s.current) queue) : Separate (withCurrent s queue) := by
  intro p q t hp hq
  rw [mem_withCurrent] at hp hq
  rcases hp with hp | ⟨rfl,rfl⟩
  · rcases hq with hq | ⟨rfl,rfl⟩
    · exact h.separate p q t hp hq
    · exact absurd hp (h.not_mem_current p)
  · rcases hq with hq | ⟨-,rfl⟩
    · exact absurd hq (h.not_mem_current q)
    · rfl

theorem putBack_idle (h : Queued s (some s.current) queue) (hidle : s.current = s.idle) :
    threadRunqPutBack s = .ok s ∧ Queued s none queue := by
  have hrun : (s.thread s.idle).state = .running := h.idle_running
  refine ⟨?_,h.rings,fun p t => ?_,?_,h.nr_lt,h.nodup,h.priority_lt,h.idle_mem,h.idle_running⟩
  · simp only [threadRunqPutBack,threadRunqPutPrev,hidle,↓reduceIte,pure_bind,threadIsRunning,hrun]
    rfl
  · rw [h.mem_iff,hidle]
    simp only [ne_eq,Option.some.injEq,reduceCtorEq,not_false_eq_true,true_and]
    tauto
  · rw [h.nr_eq]
    congr 1
    refine List.filter_congr fun t _ => decide_eq_decide.mpr ?_
    simp only [Counted,reduceCtorEq,or_false,Option.some.injEq,hidle]
    tauto

theorem putBack_running (h : Queued s (some s.current) queue) (hc : s.current ∈ s.created)
    (hidle : s.current ≠ s.idle) (hrun : s.self.state = .running) :
    threadRunqPutBack s = .ok (relinked s) ∧ Queued (relinked s) none (withCurrent s queue) := by
  have hrun' : (s.thread s.current).state = .running := hrun
  refine ⟨?_,h.rings_relinked hc,fun p t => ?_,?_,h.nr_lt,h.nodup,h.priority_lt,h.idle_mem,
    h.idle_running⟩
  · rw [threadRunqPutBack,h.putPrev_eq hc hidle]
    change (if !threadIsRunning (s.thread s.current) then _ else _) = _
    rw [threadIsRunning,hrun']
    rfl
  · have ht := h.mem_iff p t
    simp only [ne_eq,Option.some.injEq] at ht
    simp only [mem_withCurrent,ht,relinked,ne_eq,reduceCtorEq,not_false_eq_true,true_and]
    constructor
    · rintro (⟨h1,h2,h3,-,h5⟩ | ⟨rfl,rfl⟩)
      · exact ⟨h1,h2,h3,h5⟩
      · exact ⟨hc,hidle,hrun,rfl⟩
    · rintro ⟨h1,h2,h3,h4⟩
      by_cases htc : t = s.current
      · exact .inr ⟨htc,by rw [← h4,htc]; rfl⟩
      · exact .inl ⟨h1,h2,h3,htc,h4⟩
  · change s.nrThreads = _
    rw [h.nr_eq]
    congr 1
    refine List.filter_congr fun t _ => decide_eq_decide.mpr ?_
    simp only [Counted,relinked,reduceCtorEq,or_false,Option.some.injEq]
    constructor
    · rintro ⟨h1,h2 | rfl⟩
      · exact ⟨h1,h2⟩
      · exact ⟨h1,hrun⟩
    · tauto

/-- A thread that blocks is linked and unlinked again, and no longer counted. -/
theorem putBack_blocked (h : Queued s (some s.current) queue) (hc : s.current ∈ s.created)
    (hidle : s.current ≠ s.idle) (hrun : s.self.state ≠ .running) :
    ∃ s', threadRunqPutBack s = .ok s' ∧ SameThreads s s' ∧ Queued s' none queue := by
  have hrun' : (s.thread s.current).state ≠ .running := hrun
  have hcount : s.nrThreads = (s.created.filter fun t => Counted s none t).length + 1 := by
    rw [h.nr_eq]
    refine length_filter_add h.nodup hc ?_ ⟨hidle,.inr rfl⟩ fun u _ hu => ?_
    · simp [Counted,hrun']
    · simp [Counted,hu]
  have hback := (h.rings_relinked hc).remove h.separate_withCurrent (h.priority_lt _ hc) (t := s.current)
    (l := queue s.self.priority) (r := []) (by simp [withCurrent,State.self])
  simp only [List.append_nil,withCurrent,State.self,Function.update_idem,
    Function.update_eq_self] at hback
  refine ⟨{ s with
      nrThreads := s.nrThreads - 1, links := listRemove (relinked s).links (.thread s.current) },?_,
    ⟨rfl,rfl,rfl,rfl,rfl,rfl⟩,hback,fun p t => ?_,?_,(Nat.sub_le _ _).trans_lt h.nr_lt,h.nodup,
      h.priority_lt,h.idle_mem,h.idle_running⟩
  · rw [threadRunqPutBack,h.putPrev_eq hc hidle]
    change (if !threadIsRunning (s.thread s.current) then threadRunqRemove (relinked s)
      s.current else _) = _
    have hnr : (relinked s).nrThreads ≠ 0 := by
      change s.nrThreads ≠ 0
      omega
    have hst : ((relinked s).thread s.current).state ≠ .running := hrun'
    simp only [threadIsRunning,hrun',decide_false,Bool.not_false,↓reduceIte,threadRunqRemove,assert,
      hnr,hst,ne_eq,not_false_eq_true,decide_true]
    rfl
  · rw [h.mem_iff]
    simp only [ne_eq,Option.some.injEq,reduceCtorEq,not_false_eq_true,true_and]
    constructor
    · tauto
    · rintro ⟨h1,h2,h3,h4⟩
      exact ⟨h1,h2,h3,fun he => hrun' (he ▸ h3),h4⟩
  · change s.nrThreads - 1 = _
    rw [hcount]
    rfl

/-- The queues the next thread is picked from. -/
def candidates (s : State) (queue : Queues) : Queues :=
  if s.current = s.idle ∨ s.self.state ≠ .running then queue else withCurrent s queue

theorem putBack (h : Queued s (some s.current) queue) (hc : s.current ∈ s.created) :
    ∃ s', threadRunqPutBack s = .ok s' ∧ SameThreads s s' ∧ Queued s' none (candidates s queue) := by
  by_cases hidle : s.current = s.idle
  · obtain ⟨hput,hq⟩ := h.putBack_idle hidle
    exact ⟨s,hput,⟨rfl,rfl,rfl,rfl,rfl,rfl⟩,by simpa [candidates,hidle] using hq⟩
  by_cases hrun : s.self.state = .running
  · obtain ⟨hput,hq⟩ := h.putBack_running hc hidle hrun
    exact ⟨relinked s,hput,⟨rfl,rfl,rfl,rfl,rfl,rfl⟩,by simpa [candidates,hidle,hrun] using hq⟩
  · obtain ⟨s',hput,hsame,hq⟩ := h.putBack_blocked hc hidle hrun
    exact ⟨s',hput,hsame,by simpa [candidates,hrun] using hq⟩

/-- `thread_runq_schedule` dispatches a runnable thread, and none of a lower priority than a thread
that is left waiting. -/
theorem schedule (h : Queued s (some s.current) queue) (hc : s.current ∈ s.created) :
    Checks (threadRunqSchedule s) fun s' => SameThreads s s' ∧ threadSchedulerLocked s = true ∧
    s.self.preemptLevel = 1 ∧ (∀ p t, t ∈ candidates s queue p ↔ Ready s' p t) ∧
    ∃ queue', Queued s' (some s'.current) queue' ∧
    Picks (candidates s queue) s.idle s'.current queue' := by
  have hsplit : threadRunqSchedule s = (do
      assert (threadSchedulerLocked s)
      assert (s.self.preemptLevel = 1)
      let s1 ← threadRunqPutBack s
      threadRunqGetNext s1) := by
    simp only [threadRunqSchedule,threadRunqPutBack,bind_assoc]
    congr 1; funext _; congr 1; funext _; congr 1; funext s1
    split <;> rfl
  rw [hsplit]
  refine checks_assert fun hlock => checks_assert fun hlevel => ?_
  obtain ⟨s1,hput,hsame,hq⟩ := h.putBack hc
  obtain ⟨s2,queue',hnext,hsame',hq',hpick⟩ := hq.getNext
  rw [hput]
  change Checks (threadRunqGetNext s1) _
  rw [hnext]
  refine ⟨hsame.trans hsame',hlock,by simpa using hlevel,fun p t => ?_,queue',hq',hsame.idle ▸ hpick⟩
  rw [hq.mem_iff,Ready,hsame'.created,hsame'.idle,hsame'.thread]
  simp

/-- What was picked is runnable and at least as urgent as what waits, and idle is picked only when
nothing waits. -/
theorem picked (h : Queued s (some s.current) queue) {queue₀ : Queues}
    (hpick : Picks queue₀ s.idle s.current queue) (hmem : ∀ p t, t ∈ queue₀ p → Ready s p t) :
    s.current ∈ s.created ∧ s.self.state = .running ∧ (∀ p t, t ∈ queue p → p ≤ s.self.priority) ∧
    (s.current = s.idle → ∀ p, queue p = []) := by
  rcases hpick with ⟨hempty,hidle,rfl⟩ | ⟨p,r,hp,rfl,hmax⟩
  · refine ⟨hidle ▸ h.idle_mem,?_,fun p t ht => by simp [hempty] at ht,fun _ => hempty⟩
    rw [State.self,hidle]
    exact h.idle_running
  · obtain ⟨h1,hi,h2,h3⟩ := hmem p s.current (by simp [hp])
    refine ⟨h1,h2,fun q t ht => ?_,fun he => absurd he hi⟩
    rw [State.self,h3]
    refine hmax q ?_
    by_cases hqp : q = p
    · subst hqp
      simp [hp]
    · rw [Function.update_of_ne hqp] at ht
      exact List.ne_nil_of_mem ht

end Queued

/-- The thread `t` linked at the tail of its list and counted. -/
def enqueued (s : State) (t : Tid) : State :=
  { s with links := threadListEnqueue s.links (.head (s.thread t).priority) t, nrThreads :=
    s.nrThreads + 1 }

theorem threadRunqAdd_spec {s : State} {t : Tid} (hnr : s.nrThreads < 2 ^ 32) :
    Checks (threadRunqAdd s t) fun s' => threadSchedulerLocked s = true ∧
      (s.thread t).priority < THREAD_NR_PRIORITIES ∧ s.nrThreads + 1 < 2 ^ 32 ∧
      s' = if (s.thread t).priority > s.self.priority then threadSetYield (enqueued s t) s.current
        else enqueued s t := by
  unfold threadRunqAdd threadRunqGetList
  refine checks_assert fun hlock => checks_assert fun hrun => ?_
  rw [bind_assoc]
  refine checks_assert fun hlt => ?_
  rw [pure_bind]
  refine checks_assert fun hne => ?_
  have hnr' : s.nrThreads + 1 < 2 ^ 32 := by
    simp only [ne_eq,decide_not,Bool.not_eq_eq_eq_not,Bool.not_true,decide_eq_false_iff_not] at hne
    omega
  rw [Nat.mod_eq_of_lt hnr']
  refine Safe.mono (P := fun s' => s' = if (s.thread t).priority > s.self.priority
    then threadSetYield (enqueued s t) s.current else enqueued s t) ?_
    fun s' hs' => ⟨hlock,by simpa using hlt,hnr',hs'⟩
  by_cases hp : (s.thread t).priority > (s.thread s.current).priority
  · change Safe _ (ite ((s.thread t).priority > (s.thread s.current).priority) _ _) _
    rw [if_pos hp]
    exact (if_pos hp).symm
  · change Safe _ (ite ((s.thread t).priority > (s.thread s.current).priority) _ _) _
    rw [if_neg hp]
    exact (if_neg hp).symm

namespace Queued
variable {s : State} {out : Option Tid} {queue : Queues} {p : ℕ}

/-- Linking one more thread: `s₁` is the state in which `t` has become runnable. -/
theorem link (h : Queued s out queue) (s₁ : State) (t : Tid) (hlinks : s₁.links = s.links)
    (hnr : s₁.nrThreads = s.nrThreads) (hidle : s₁.idle = s.idle) (ht : t ∈ s₁.created)
    (hti : t ≠ s.idle) (hrun : (s₁.thread t).state = .running) (hout : some t ≠ out)
    (hlt : (s₁.thread t).priority < THREAD_NR_PRIORITIES) (hnd : s₁.created.Nodup)
    (hlim : s.nrThreads + 1 < 2 ^ 32) (hnew : ∀ q, t ∉ queue q)
    (hother : ∀ u, u ≠ t → (u ∈ s₁.created ↔ u ∈ s.created) ∧
      (s₁.thread u).state = (s.thread u).state ∧ (s₁.thread u).priority = (s.thread u).priority)
    (hcount : (s₁.created.filter fun u => Counted s₁ out u).length =
      (s.created.filter fun u => Counted s out u).length + 1) :
    Queued (enqueued s₁ t) out
    (Function.update queue (s₁.thread t).priority (queue (s₁.thread t).priority ++ [t])) := by
  refine ⟨?_,fun p u => ?_,?_,?_,hnd,fun u hu => ?_,?_,?_⟩
  · change Rings (threadListEnqueue s₁.links _ t) _
    rw [hlinks]
    exact h.rings.enqueue h.separate hlt hnew
  · have hmem : u ∈ Function.update queue (s₁.thread t).priority
        (queue (s₁.thread t).priority ++ [t]) p ↔
        u ∈ queue p ∨ u = t ∧ p = (s₁.thread t).priority := by
      by_cases hp : p = (s₁.thread t).priority
      · subst hp
        simp
      · simp [hp]
    rw [hmem,h.mem_iff]
    simp only [enqueued,hidle]
    by_cases hut : u = t
    · subst hut
      have : ¬(u ∈ s.created ∧ u ≠ s.idle ∧ (s.thread u).state = .running ∧ some u ≠ out ∧
          (s.thread u).priority = p) := fun hc => hnew p ((h.mem_iff p u).mpr hc)
      constructor
      · rintro (hc | ⟨-,hp⟩)
        · exact absurd hc this
        · exact ⟨ht,hti,hrun,hout,hp.symm⟩
      · rintro ⟨-,-,-,-,hp⟩
        exact .inr ⟨rfl,hp.symm⟩
    · obtain ⟨hm,hst,hpr⟩ := hother u hut
      rw [hm,hst,hpr]
      simp [hut]
  · change s₁.nrThreads + 1 = (s₁.created.filter fun u => Counted s₁ out u).length
    rw [hnr,hcount,h.nr_eq]
  · change s₁.nrThreads + 1 < 2 ^ 32
    rwa [hnr]
  · by_cases hut : u = t
    · subst hut
      exact hlt
    · obtain ⟨hm,-,hpr⟩ := hother u hut
      change (s₁.thread u).priority < _
      rw [hpr]
      exact h.priority_lt u (hm.mp hu)
  · change s₁.idle ∈ s₁.created
    rw [hidle]
    exact ((hother s.idle hti.symm).1).mpr h.idle_mem
  · change (s₁.thread s₁.idle).state = .running
    rw [hidle,(hother s.idle hti.symm).2.1]
    exact h.idle_running

end Queued
end X1.Sched
