import Mathlib.Order.Bounds.Basic
import X1.Shell.Commands

/-! # Completing the name of a command

The commands that begin like a string are next to each other in the sorted list, so that
`shell_cmd_complete` compares the first with the last of them only: what these two have in
common, all of them have.
-/
namespace X1.Shell
open X1.CString X1.Chain X1.FirstDifference

section
variable {a b c str : List UInt8} {n : ℕ}

theorem strncmp_eq_zero_iff (ha : 0 ∉ a) (hb : 0 ∉ b) : strncmp a b n = 0 ↔ a.take n = b.take n :=
  strcmp_eq_zero_iff (fun h => ha (List.mem_of_mem_take h)) fun h => hb (List.mem_of_mem_take h)

/-- A name between two others that begin alike begins like them. -/
theorem take_between (hab : strcmp a b < 0) (hbc : strcmp b c < 0) (hac : a.take n = c.take n) :
    b.take n = a.take n := by
  have hpre : a.take n <+: b := difference_between (List.take_prefix n a) (hac ▸ List.take_prefix n c) hab hbc
  by_cases hlen : n ≤ a.length
  · rw [List.prefix_iff_eq_take.mp hpre,List.length_take,Nat.min_eq_left hlen]
  · -- the first name is what the last begins with, and so is the name between them
    obtain ⟨hall,hc⟩ : a.take n = a ∧ c = a := by
      have hshort : (c.take n).length = a.length := by rw [← hac,List.length_take]; omega
      have hless : c.length ≤ n := by rw [List.length_take] at hshort; omega
      rw [List.take_of_length_le (by omega : a.length ≤ n),List.take_of_length_le hless] at hac
      exact ⟨List.take_of_length_le (by omega),hac.symm⟩
    rw [hc,strcmp_swap] at hbc
    omega

/-- Different names that begin alike are not shorter than what they begin with. -/
theorem le_length_of_take_eq (hne : a ≠ b) (h : a.take n = b.take n) : n ≤ a.length := by
  by_contra hlen
  have hshort : (b.take n).length = a.length := by rw [← h,List.length_take]; omega
  have hless : b.length ≤ n := by rw [List.length_take] at hshort; omega
  rw [List.take_of_length_le (by omega : a.length ≤ n),List.take_of_length_le hless] at h
  exact hne h

/-- The loop counts the characters that two names have in common. -/
theorem commonLoop_eq (size : ℕ) (ha : 0 ∉ a) : ∃ p,commonLoop (a ++ [0]) (b ++ [0]) size = some (size + p.length) ∧
    p <+: a ∧ p <+: b ∧ ∀ q,q <+: a → q <+: b → q.length ≤ p.length := by
  induction a generalizing b size with
  | nil =>
    refine ⟨[],?_,List.nil_prefix,List.nil_prefix,fun q hq _ => by simp [List.prefix_nil.mp hq]⟩
    cases b <;> simp [commonLoop]
  | cons x a ih =>
    have hx : x ≠ 0 := fun h => ha (by simp [h])
    cases b with
    | nil =>
      exact ⟨[],by simp [commonLoop,hx],List.nil_prefix,List.nil_prefix,fun q _ hq => by simp [List.prefix_nil.mp hq]⟩
    | cons y b =>
      by_cases hxy : x = y
      · subst hxy
        obtain ⟨p,hloop,hpa,hpb,hmax⟩ := ih (b := b) (size + 1) fun h => ha (by simp [h])
        refine ⟨x :: p,?_,(List.prefix_cons_inj x).mpr hpa,(List.prefix_cons_inj x).mpr hpb,fun q hqa hqb => ?_⟩
        · rw [List.cons_append,List.cons_append,commonLoop,if_pos ⟨hx,rfl⟩,hloop,List.length_cons]
          congr 1
          omega
        · cases q with
          | nil => simp
          | cons z q =>
            have hlen := hmax q (List.cons_prefix_cons.mp hqa).2 (List.cons_prefix_cons.mp hqb).2
            simpa using hlen
      · refine ⟨[],by simp [commonLoop,hxy],List.nil_prefix,List.nil_prefix,fun q hqa hqb => ?_⟩
        cases q with
        | nil => simp
        | cons z q =>
          obtain ⟨rfl,-⟩ := List.cons_prefix_cons.mp hqa
          exact absurd (List.cons_prefix_cons.mp hqb).1 hxy

/-- What two names that begin alike have in common. -/
theorem commonLoop_drop (ha : 0 ∉ a) (hne : a ≠ b) (h : a.take n = b.take n) :
    ∃ p,commonLoop ((a ++ [0]).drop ((if n = 0 then 1 else n) - 1)) ((b ++ [0]).drop ((if n = 0 then 1 else n) - 1))
        (if n = 0 then 1 else n) = some (p.length + 1) ∧
      n ≤ p.length ∧ p <+: a ∧ p <+: b ∧ ∀ q,q <+: a → q <+: b → q.length ≤ p.length := by
  have hlena := le_length_of_take_eq hne h
  have hlenb := le_length_of_take_eq hne.symm h.symm
  obtain ⟨k,hk,hkn⟩ : ∃ k,(if n = 0 then 1 else n) = k + 1 ∧ k ≤ n := by
    split_ifs with hn
    · exact ⟨0,rfl,by omega⟩
    · exact ⟨n - 1,by omega,by omega⟩
  have hstart : a.take k = b.take k := by
    have := congrArg (List.take k) h
    rwa [List.take_take,List.take_take,Nat.min_eq_left hkn] at this
  rw [hk,Nat.add_sub_cancel,List.drop_append_of_le_length (by omega),List.drop_append_of_le_length (by omega)]
  obtain ⟨p,hloop,hpa,hpb,hmax⟩ := commonLoop_eq (a := a.drop k) (b := b.drop k) (k + 1)
    fun hzero => ha (List.mem_of_mem_drop hzero)
  have hmax' : ∀ q,q <+: a → q <+: b → q.length ≤ (a.take k ++ p).length := by
    intro q hqa hqb
    have hlen := hmax (q.drop k) (hqa.drop k) (hqb.drop k)
    rw [List.length_drop] at hlen
    rw [List.length_append,List.length_take]
    omega
  refine ⟨a.take k ++ p,?_,?_,?_,?_,hmax'⟩
  · rw [hloop,List.length_append,List.length_take]
    congr 1
    omega
  · have hlen := hmax' (a.take n) (List.take_prefix n a) (h ▸ List.take_prefix n b)
    rwa [List.length_take,Nat.min_eq_left hlena] at hlen
  · obtain ⟨r,hr⟩ := hpa
    exact ⟨r,by rw [List.append_assoc,hr,List.take_append_drop]⟩
  · obtain ⟨r,hr⟩ := hpb
    exact ⟨r,by rw [hstart,List.append_assoc,hr,List.take_append_drop]⟩

end

theorem takeWhile_congr {α : Type*} {test test' : α → Bool} {l : List α} (h : ∀ a ∈ l,test a = test' a) :
    l.takeWhile test = l.takeWhile test' := by
  induction l with
  | nil => rfl
  | cons a l ih =>
    have hrest := ih fun b hb => h b (by simp [hb])
    rw [List.takeWhile_cons,List.takeWhile_cons,h a (by simp),hrest]

/-- In a list whose failures are at its end, the elements that pass are those before the first failure. -/
theorem filter_eq_takeWhile {α : Type*} {test : α → Bool} {l : List α}
    (h : l.Pairwise fun a b => test b = true → test a = true) : l.filter test = l.takeWhile test := by
  induction l with
  | nil => rfl
  | cons a l ih =>
    obtain ⟨hfirst,hrest⟩ := List.pairwise_cons.mp h
    cases hpass : test a with
    | true => simp [hpass,ih hrest]
    | false =>
      have hnone : l.filter test = [] := by
        rw [List.filter_eq_nil_iff]
        intro b hb htest
        exact absurd (hfirst b hb htest) (by simp [hpass])
      simp [hpass,hnone]

/-- The commands whose names begin like a string. -/
def matching (sh : Registry) (cmds : List ℕ) (str : List UInt8) (size : ℕ) : List ℕ :=
  cmds.filter fun c => (sh.name c).take size = str.take size

/-- The length of the longest string that all the names of some commands begin with. -/
def IsCommonLength (sh : Registry) (cmds : List ℕ) (n : ℕ) : Prop :=
  IsGreatest {n | ∃ p : List UInt8,p.length = n ∧ ∀ c ∈ cmds,p <+: sh.name c} n

namespace Represents
variable {sh : Registry} {cmds l₁ l₂ : List ℕ} {turns size c last : ℕ} {str : List UInt8}

/-- What the first and the last of some sorted commands have in common, all of them have. -/
theorem isCommonLength {p : List UInt8} (hsorted : (c :: l₁ ++ [last]).Pairwise fun a b => strcmp (sh.name a) (sh.name b) < 0)
    (hc : p <+: sh.name c) (hlast : p <+: sh.name last)
    (hmax : ∀ q,q <+: sh.name c → q <+: sh.name last → q.length ≤ p.length) :
    IsCommonLength sh (c :: l₁ ++ [last]) p.length := by
  constructor
  · refine ⟨p,rfl,fun d hd => ?_⟩
    rw [List.cons_append,List.pairwise_cons,List.pairwise_append] at hsorted
    obtain ⟨hfirst,-,-,hend⟩ := hsorted
    rcases List.mem_append.mp hd with hd | hd
    · rcases List.mem_cons.mp hd with rfl | hd
      · exact hc
      · exact difference_between hc hlast (hfirst d (by simp [hd])) (hend d hd last (by simp))
    · rw [List.mem_singleton.mp hd]
      exact hlast
  · rintro n ⟨q,rfl,hq⟩
    exact hmax q (hq c (by simp)) (hq last (by simp))

/-- The commands that begin like the first one that does come right after it. -/
theorem matching_block (h : Represents sh (l₁ ++ c :: l₂)) (hc : (sh.name c).take size = str.take size) :
    l₂.filter (fun d => (sh.name d).take size = str.take size) =
      l₂.takeWhile fun d => (sh.name d).take size = str.take size := by
  have hsorted := h.sorted
  rw [List.pairwise_append,List.pairwise_cons] at hsorted
  obtain ⟨-,⟨hfirst,hrest⟩,-⟩ := hsorted
  refine filter_eq_takeWhile ((List.pairwise_iff_forall_sublist.mpr fun {a b} hab => ?_))
  have ha : a ∈ l₂ := hab.subset (by simp)
  have hless : strcmp (sh.name a) (sh.name b) < 0 := by
    have := hrest.sublist hab
    simpa using this
  intro hb
  simp only [decide_eq_true_eq] at hb ⊢
  rw [take_between (hfirst a ha) hless (hc.trans hb.symm),hc]

theorem match_eq (h : Represents sh cmds) (hturns : cmds.length < turns) (hstr : 0 ∉ str) :
    shellCmdMatch turns sh sh.list str size = some (matching sh cmds str size).head? := by
  have htest : ∀ c ∈ cmds,decide (strncmp (sh.name c) str size = 0) =
      decide ((sh.name c).take size = str.take size) := by
    intro c hc
    rw [decide_eq_decide]
    exact strncmp_eq_zero_iff (h.zero_not_mem hc) hstr
  rw [shellCmdMatch,find_eq _ h.list hturns,← List.head?_filter,List.filter_congr htest]
  rfl

/-- One match is completed to its name, several to what they have in common. -/
theorem complete (h : Represents sh cmds) (size : ℕ) (hturns : cmds.length < turns) (hstr : 0 ∉ str) :
    ∃ r,shellCmdComplete turns sh str size = some r ∧
      match matching sh cmds str size with
      | [] => r = .inval
      | [c] => r = .single c (sh.name c).length
      | c :: l => ∃ n,r = .again c n ∧ size ≤ n ∧ IsCommonLength sh (c :: l) n := by
  unfold shellCmdComplete
  rw [h.match_eq hturns hstr]
  cases hmatch : matching sh cmds str size with
  | nil => exact ⟨_,rfl,rfl⟩
  | cons c l =>
    -- the first match, what is before it in the list, and what is after it
    obtain ⟨l₁,l₂,rfl,-,hc,hl⟩ := List.filter_eq_cons_iff.mp hmatch
    replace hc : (sh.name c).take size = str.take size := of_decide_eq_true hc
    rw [matching_block h hc] at hl
    have hpath : Path sh.lsNext (sh.lsNext c) l₂ := h.list.of_append
    have hsorted := (List.pairwise_append.mp h.sorted).2.1
    have htest {d : ℕ} (hd : d ∈ l₂) :
        strncmp (sh.name c) (sh.name d) size = 0 ↔ (sh.name d).take size = str.take size := by
      rw [strncmp_eq_zero_iff (h.zero_not_mem (by simp)) (h.zero_not_mem (by simp [hd])),hc,eq_comm]
    dsimp only [List.head?_cons,bind,Option.bind]
    cases l₂ with
    | nil =>
      rw [show sh.lsNext c = none from hpath,← hl]
      exact ⟨_,rfl,rfl⟩
    | cons next l₃ =>
      rw [hpath.1]
      dsimp only
      by_cases hnext : (sh.name next).take size = str.take size
      · rw [if_neg (not_not.mpr ((htest (by simp)).mpr hnext))]
        have hstop : l₃.takeWhile (fun d => !decide (strncmp (sh.name c) (sh.name d) size ≠ 0)) =
            l₃.takeWhile fun d => decide ((sh.name d).take size = str.take size) := by
          refine takeWhile_congr fun d hd => ?_
          rw [Bool.eq_iff_iff]
          simpa using htest (List.mem_cons_of_mem _ hd)
        have hseek := seek_eq (fun d => decide (strncmp (sh.name c) (sh.name d) size ≠ 0)) hpath.2
          (show l₃.length < turns by simp at hturns; omega)
        rw [List.takeWhile_cons_of_pos (by simpa using hnext)] at hl
        rw [hstop,hl] at hseek
        obtain ⟨l',last,rfl⟩ : ∃ l' last,l = l' ++ [last] := ⟨_,_,(List.dropLast_append_getLast (by simp [← hl])).symm⟩
        rw [List.getLast?_concat] at hseek
        rw [hseek]
        have hlist : (c :: l' ++ [last]).Sublist (c :: next :: l₃) := by
          rw [List.cons_append,← hl]
          exact ((List.takeWhile_sublist _).cons_cons next).cons_cons c
        replace hsorted := hsorted.sublist hlist
        have hlast : (sh.name last).take size = str.take size := by
          have hmem : last ∈ matching sh (l₁ ++ c :: next :: l₃) str size := by
            rw [hmatch]
            simp
          exact of_decide_eq_true (List.mem_filter.mp hmem).2
        have hne : sh.name c ≠ sh.name last := by
          intro hname
          have hless := (List.pairwise_cons.mp hsorted).1 last (by simp)
          have hself := strcmp_swap (sh.name last) (sh.name last)
          rw [hname] at hless
          omega
        obtain ⟨p,hloop,hsize,hpc,hplast,hmax⟩ := commonLoop_drop (h.zero_not_mem (by simp)) hne (hc.trans hlast.symm)
        dsimp only
        rw [hloop]
        have hcommon := isCommonLength hsorted hpc hplast hmax
        rw [List.cons_append,← hl] at hcommon
        rw [← hl]
        exact ⟨_,rfl,p.length,rfl,hsize,hcommon⟩
      · rw [if_pos (fun hzero => hnext ((htest (by simp)).mp hzero))]
        rw [List.takeWhile_cons_of_neg (by simpa using hnext)] at hl
        subst hl
        exact ⟨_,rfl,rfl⟩

end Represents

end X1.Shell
