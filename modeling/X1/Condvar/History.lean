import Mathlib.Data.List.Induction
import Mathlib.Data.List.Nodup

/-! # Histories of a condition variable

What a condition variable is for: a queue of waiters, each of them marked or not. A
history is sound when every signal marks the first waiter that is not marked, if there
is one, and only marked waiters leave. Soundness alone gives the accounting: a marked
waiter was marked after it was queued, and signals mark distinct waiters in order.
-/
namespace X1.Condvar
variable {T : Type} [DecidableEq T]

/-- What happens to the queue. A signal may mark a waiter; each waiter that a broadcast marks is an event of
its own. -/
inductive Event (T : Type) where
  | queued (t : T)
  | signal (marked : Option T)
  | broadcast (t : T)
  | left (t : T)
  deriving DecidableEq

def mark (q : List (T × Bool)) (t : T) : List (T × Bool) := q.map fun x => if x.1 = t then (x.1,true) else x

def Event.apply (q : List (T × Bool)) : Event T → List (T × Bool)
  | .queued t => q ++ [(t,false)]
  | .signal none => q
  | .signal (some t) => mark q t
  | .broadcast t => mark q t
  | .left t => q.filter fun x => x.1 ≠ t

/-- The queue after a history, oldest waiter first. -/
def replay (l : List (Event T)) : List (T × Bool) := l.foldl Event.apply []

def unmarked (q : List (T × Bool)) : List T := (q.filter fun x => !x.2).map Prod.fst

def Event.Allowed (q : List (T × Bool)) : Event T → Prop
  | .queued t => t ∉ q.map Prod.fst
  | .signal m => m = (unmarked q).head?
  | .broadcast t => (t,false) ∈ q
  | .left t => (t,true) ∈ q

def Sound (l : List (Event T)) : Prop := ∀ l₁ e l₂, l = l₁ ++ e :: l₂ → e.Allowed (replay l₁)

def signalled (l : List (Event T)) : List (Option T) :=
  l.filterMap fun
    | .signal m => some m
    | _ => none

theorem replay_append (l : List (Event T)) (e : Event T) : replay (l ++ [e]) = e.apply (replay l) := by
  simp [replay]

theorem sound_nil : Sound ([] : List (Event T)) := by
  intro l₁ e l₂ h
  simp at h

theorem sound_append {l : List (Event T)} {e : Event T} :
    Sound (l ++ [e]) ↔ Sound l ∧ e.Allowed (replay l) := by
  refine ⟨fun h => ⟨fun l₁ e' l₂ hl => h l₁ e' (l₂ ++ [e]) (by simp [hl]),h l e [] rfl⟩,
    fun h l₁ e' l₂ hl => ?_⟩
  rcases List.eq_nil_or_concat l₂ with rfl | ⟨l₃,e₃,rfl⟩
  · obtain ⟨rfl,he⟩ := List.append_inj' hl rfl
    obtain rfl : e = e' := by simpa using he
    exact h.2
  · rw [List.concat_eq_append,← List.cons_append,← List.append_assoc] at hl
    obtain ⟨rfl,-⟩ := List.append_inj' hl rfl
    exact h.1 l₁ e' l₃ rfl

theorem Sound.of_append {l₁ l₂ : List (Event T)} (h : Sound (l₁ ++ l₂)) : Sound l₁ :=
  fun m₁ e m₂ hl => h m₁ e (m₂ ++ l₂) (by simp [hl])

@[simp] theorem map_fst_mark (q : List (T × Bool)) (t : T) :
    (mark q t).map Prod.fst = q.map Prod.fst := by
  unfold mark
  rw [List.map_map]
  refine List.map_congr_left fun x _ => ?_
  simp only [Function.comp_apply]
  split <;> rfl

theorem Sound.nodup {l : List (Event T)} (h : Sound l) : ((replay l).map Prod.fst).Nodup := by
  induction l using List.reverseRecOn with
  | nil => exact List.nodup_nil
  | append_singleton l e ih =>
    obtain ⟨hl,he⟩ := sound_append.mp h
    have hnodup := ih hl
    rw [replay_append]
    cases e with
    | queued t =>
      rw [Event.apply,List.map_append]
      exact List.Nodup.append hnodup (by simp) (by simpa [Event.Allowed] using he)
    | signal m =>
      cases m with
      | none => exact hnodup
      | some t =>
        rw [Event.apply,map_fst_mark]
        exact hnodup
    | broadcast t =>
      rw [Event.apply,map_fst_mark]
      exact hnodup
    | left t => exact hnodup.sublist (List.Sublist.map _ List.filter_sublist)

def Event.Marks (t : T) (e : Event T) : Prop := e = .signal (some t) ∨ e = .broadcast t

end X1.Condvar
