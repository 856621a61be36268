import Mathlib.Data.List.Basic
import Mathlib.Logic.Basic

/-! # Structured programs and their weakest preconditions

Programs of actions, calls, tests of a local state and choices that are left open. A
function gives its caller back the local state it has found and a loop has an
invariant, so that a weakest precondition is a recursion over the program. The
programs are executed one step at a time on a list of programs that are left to do,
and every step keeps the weakest precondition of what is left.
-/
namespace X1.Flow

variable {A C F L : Type*}

/-- Actions `A`, tests `C`, functions `F`. `loop` is repeated any number of times, `forever` without end. -/
inductive Prog (A C F : Type*) where
  | skip
  | act (a : A)
  | call (f : F)
  | seq (p q : Prog A C F)
  | choice (p q : Prog A C F)
  | ite (c : C) (p q : Prog A C F)
  | loop (p : Prog A C F)
  | forever (p : Prog A C F)

/-- One program after the other. -/
def block : List (Prog A C F) → Prog A C F
  | [] => .skip
  | p :: k => .seq p (block k)

/-- What actions assert of the local state and do to it, what tests find, and what functions ask of their
callers. -/
structure Spec (A C F L : Type*) where
  Safe : A → L → Prop
  Post : A → L → L → Prop
  holds : C → L → Bool
  Pre : F → L → Prop

variable {S : Spec A C F L} {P Q : L → Prop} {l l' : L}

/-- No assertion fails, no call is refused, and the program ends in a state with `Q`, if it ends. -/
def wp (S : Spec A C F L) : Prog A C F → (L → Prop) → L → Prop
  | .skip, Q, l => Q l
  | .act a, Q, l => S.Safe a l ∧ ∀ l', S.Post a l l' → Q l'
  | .call f, Q, l => S.Pre f l ∧ Q l
  | .seq p q, Q, l => wp S p (wp S q Q) l
  | .choice p q, Q, l => wp S p Q l ∧ wp S q Q l
  | .ite c p q, Q, l => (S.holds c l = true → wp S p Q l) ∧ (S.holds c l = false → wp S q Q l)
  | .loop p, Q, l => ∃ I : L → Prop, I l ∧ ∀ l', I l' → Q l' ∧ wp S p I l'
  | .forever p, _, l => ∃ I : L → Prop, I l ∧ ∀ l', I l' → wp S p I l'

theorem wp_mono {p : Prog A C F} (h : ∀ l, P l → Q l) : wp S p P l → wp S p Q l := by
  induction p generalizing P Q l with
  | skip => exact h l
  | act a => exact fun hw => ⟨hw.1,fun l' hl => h l' (hw.2 l' hl)⟩
  | call f => exact fun hw => ⟨hw.1,h l hw.2⟩
  | seq p q hp hq => exact hp fun _ => hq h
  | choice p q hp hq => exact fun hw => ⟨hp h hw.1,hq h hw.2⟩
  | ite c p q hp hq => exact fun hw => ⟨fun hc => hp h (hw.1 hc),fun hc => hq h (hw.2 hc)⟩
  | loop p _ => exact fun ⟨I,hl,hI⟩ => ⟨I,hl,fun l' hl' => ⟨h l' (hI l' hl').1,(hI l' hl').2⟩⟩
  | forever p _ => exact id

/-- The weakest precondition of a list of programs, one after the other. -/
def wps (S : Spec A C F L) : List (Prog A C F) → (L → Prop) → L → Prop
  | [], Q, l => Q l
  | p :: k, Q, l => wp S p (wps S k Q) l

theorem wps_mono {k : List (Prog A C F)} (h : ∀ l, P l → Q l) : wps S k P l → wps S k Q l := by
  induction k generalizing l with
  | nil => exact h l
  | cons p k ih => exact wp_mono fun _ => ih

/-- A loop whose body gives the local state back as it was. -/
theorem wp_loop_same {p : Prog A C F} (hp : wp S p (· = l) l) (hq : Q l) : wp S (.loop p) Q l := by
  refine ⟨(· = l),rfl,?_⟩
  intro l' hl'
  subst hl'
  exact ⟨hq,hp⟩

/-- The steps that only unfold what is left to do. -/
inductive Unfolds (S : Spec A C F L) (l : L) : List (Prog A C F) → List (Prog A C F) → Prop where
  | skip {k : List (Prog A C F)} : Unfolds S l (.skip :: k) k
  | seq {p q : Prog A C F} {k : List (Prog A C F)} : Unfolds S l (.seq p q :: k) (p :: q :: k)
  | left {p q : Prog A C F} {k : List (Prog A C F)} : Unfolds S l (.choice p q :: k) (p :: k)
  | right {p q : Prog A C F} {k : List (Prog A C F)} : Unfolds S l (.choice p q :: k) (q :: k)
  | ite {c : C} {p q : Prog A C F} {k : List (Prog A C F)} :
      Unfolds S l (.ite c p q :: k) ((if S.holds c l then p else q) :: k)
  | done {p : Prog A C F} {k : List (Prog A C F)} : Unfolds S l (.loop p :: k) k
  | again {p : Prog A C F} {k : List (Prog A C F)} : Unfolds S l (.loop p :: k) (p :: .loop p :: k)
  | forever {p : Prog A C F} {k : List (Prog A C F)} : Unfolds S l (.forever p :: k)
      (p :: .forever p :: k)

/-- Unfolding keeps the weakest precondition. -/
theorem wps_unfolds {k k' : List (Prog A C F)} (hu : Unfolds S l k k') (h : wps S k Q l) :
    wps S k' Q l := by
  cases hu with
  | skip => exact h
  | seq => exact h
  | left => exact h.1
  | right => exact h.2
  | @ite c p q k =>
    cases hc : S.holds c l with
    | true => exact h.1 hc
    | false => exact h.2 hc
  | done =>
    obtain ⟨I,hl,hI⟩ := h
    exact (hI l hl).1
  | again =>
    obtain ⟨I,hl,hI⟩ := h
    exact wp_mono (fun l' hl' => ⟨I,hl',hI⟩) (hI l hl).2
  | forever =>
    obtain ⟨I,hl,hI⟩ := h
    exact wp_mono (fun l' hl' => ⟨I,hl',hI⟩) (hI l hl)

end X1.Flow
