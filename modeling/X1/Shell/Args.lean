import X1.Shell.Line

/-! # The arguments of a command in lib/shell.c

`shell_process_args` copies the line and puts a NUL after each word of the copy. The
arguments are the words of the line, and there are fewer than 16 of them.
-/
namespace X1.Shell
open X1.Word X1.CString X1.Fmt

def SHELL_SEPARATOR : UInt8 := ' '.toUInt8

def SHELL_MAX_ARGS : ℕ := 16

/-- The characters from a pointer on, up to the NUL. -/
def stringAt (cs : List UInt8) : List UInt8 := cs.takeWhile (· ≠ 0)

/-- The array after `snprintf`, up to the NUL. -/
def snprintf (size : ℕ) (format : String) (args : List Arg) : Except Fault (List UInt8) := do
  let format := cstring format ++ [0]
  let (text,_,_) ← formatText format.length format args 0
  let _ ← checkLength text.length
  return text.take (size - 1) ++ [0]

/-- The loop from the characters at index `i` on: the array, and the indices of the arguments. -/
def argsLoop : List UInt8 → ℕ → UInt8 → ℕ → Except Error (List UInt8 × List ℕ)
  | [],_,_,_ => .ok ([],[])
  | c :: cs,i,prev,j =>
    if c = 0 then .ok (c :: cs,[])
    else if c = SHELL_SEPARATOR then do
      let (tmp,argv) ← argsLoop cs (i + 1) c j
      return ((if prev ≠ SHELL_SEPARATOR then 0 else c) :: tmp,argv)
    else if prev = SHELL_SEPARATOR then
      if j + 1 = SHELL_MAX_ARGS then .error .inval
      else do
        let (tmp,argv) ← argsLoop cs (i + 1) c (j + 1)
        return (c :: tmp,i :: argv)
    else do
      let (tmp,argv) ← argsLoop cs (i + 1) c j
      return (c :: tmp,argv)

/-- What is printed, and the arguments. -/
def shellProcessArgs (line : Line) : List (Except Fault (List UInt8)) × Except Error (List (List UInt8)) :=
  match snprintf SHELL_LINE_MAX_SIZE "%s" [.str (some (line.chars 0))] with
  | .error fault => ([.error fault],.ok []) -- nothing is said of what comes after a fault
  | .ok tmp =>
    match argsLoop tmp 0 SHELL_SEPARATOR 0 with
    | .error e => ([printf "shell: too many arguments\n" []],.error e)
    | .ok (tmp,argv) => ([],.ok (argv.map fun i => stringAt (tmp.drop i)))

/-- The words of a line. -/
def words (text : List UInt8) : List (List UInt8) := (text.splitOn SHELL_SEPARATOR).filter (· ≠ [])

theorem mem_of_mem_splitOn {sep c : UInt8} {text w : List UInt8} (hw : w ∈ text.splitOn sep) (hc : c ∈ w) :
    c ∈ text := by
  induction text generalizing w with
  | nil =>
    rw [List.splitOn_nil,List.mem_singleton] at hw
    rw [hw] at hc
    cases hc
  | cons x text ih =>
    rw [List.splitOn,List.splitOnP_cons_eq_if_modifyHead] at hw
    split_ifs at hw with hx
    · rcases List.mem_cons.mp hw with rfl | hw
      · cases hc
      · exact List.mem_cons_of_mem x (ih hw hc)
    · cases hsplit : text.splitOnP (· == sep) with
      | nil => exact absurd hsplit (List.splitOnP_ne_nil _ _)
      | cons first others =>
        rw [hsplit,List.modifyHead_cons,List.mem_cons] at hw
        rcases hw with rfl | hw
        · rcases List.mem_cons.mp hc with rfl | hc
          · exact List.mem_cons_self
          · exact List.mem_cons_of_mem x (ih (w := first) (by rw [List.splitOn,hsplit]; simp) hc)
        · exact List.mem_cons_of_mem x (ih (by rw [List.splitOn,hsplit]; simp [hw]) hc)

theorem mem_of_mem_words {c : UInt8} {text w : List UInt8} (hw : w ∈ words text) (hc : c ∈ w) : c ∈ text :=
  mem_of_mem_splitOn (List.mem_of_mem_filter hw) hc

theorem length_le_of_mem_splitOn {sep : UInt8} {text w : List UInt8} (hw : w ∈ text.splitOn sep) :
    w.length ≤ text.length := by
  induction text generalizing w with
  | nil =>
    rw [List.splitOn_nil,List.mem_singleton] at hw
    rw [hw]
  | cons x text ih =>
    rw [List.splitOn,List.splitOnP_cons_eq_if_modifyHead] at hw
    split_ifs at hw with hx
    · rcases List.mem_cons.mp hw with rfl | hw
      · exact Nat.zero_le _
      · exact Nat.le_succ_of_le (ih hw)
    · cases hsplit : text.splitOnP (· == sep) with
      | nil => exact absurd hsplit (List.splitOnP_ne_nil _ _)
      | cons first others =>
        rw [hsplit,List.modifyHead_cons,List.mem_cons] at hw
        rcases hw with rfl | hw
        · exact Nat.succ_le_succ (ih (w := first) (by rw [List.splitOn,hsplit]; simp))
        · exact Nat.le_succ_of_le (ih (by rw [List.splitOn,hsplit]; simp [hw]))

theorem length_le_of_mem_words {text w : List UInt8} (hw : w ∈ words text) : w.length ≤ text.length :=
  length_le_of_mem_splitOn (List.mem_of_mem_filter hw)

section
variable {text rest first tmp : List UInt8} {others : List (List UInt8)} {i j : ℕ} {prev c : UInt8} {argv : List ℕ}

/-- The words of which the beginning has not been met yet. -/
def ahead (prev : UInt8) (first : List UInt8) (others : List (List UInt8)) : List (List UInt8) :=
  if prev = SHELL_SEPARATOR then (first :: others).filter (· ≠ []) else others.filter (· ≠ [])

/-- What the loop has to give. -/
structure Split (i : ℕ) (prev : UInt8) (first : List UInt8) (others : List (List UInt8)) (tmp : List UInt8)
    (argv : List ℕ) : Prop where
  current : prev ≠ SHELL_SEPARATOR → stringAt tmp = first
  later : ∀ o ∈ argv,i ≤ o
  args : argv.map (fun o => stringAt (tmp.drop (o - i))) = ahead prev first others

theorem map_drop_cons (x : UInt8) (hlater : ∀ o ∈ argv,i + 1 ≤ o) :
    argv.map (fun o => stringAt ((x :: tmp).drop (o - i))) =
      argv.map fun o => stringAt (tmp.drop (o - (i + 1))) := by
  apply List.map_congr_left
  intro o ho
  have hpos := hlater o ho
  rw [show o - i = o - (i + 1) + 1 by omega,List.drop_succ_cons]

theorem argsLoop_eq (rest : List UInt8) (i j : ℕ) (prev : UInt8) (htext : 0 ∉ text) (hj : j < SHELL_MAX_ARGS)
    (hsplit : text.splitOn SHELL_SEPARATOR = first :: others) :
    if j + (ahead prev first others).length < SHELL_MAX_ARGS then
      ∃ tmp argv,argsLoop (text ++ 0 :: rest) i prev j = .ok (tmp,argv) ∧ Split i prev first others tmp argv
    else argsLoop (text ++ 0 :: rest) i prev j = .error .inval := by
  induction text generalizing i prev j first others with
  | nil =>
    obtain ⟨rfl,rfl⟩ : first = [] ∧ others = [] := by simpa [eq_comm] using hsplit
    have hnone : ahead prev [] [] = [] := by simp [ahead]
    rw [hnone,if_pos (by simpa using hj)]
    exact ⟨0 :: rest,[],rfl,fun _ => rfl,by simp,by simp [hnone]⟩
  | cons c text ih =>
    have hc : c ≠ 0 := fun h => htext (by simp [h])
    obtain ⟨first',others',hsplit'⟩ : ∃ first' others',text.splitOn SHELL_SEPARATOR = first' :: others' :=
      List.exists_cons_of_ne_nil (List.splitOnP_ne_nil _ _)
    have hrest {j : ℕ} (hj : j < SHELL_MAX_ARGS) :=
      ih (i + 1) j c (fun h => htext (by simp [h])) hj hsplit'
    rw [List.cons_append,argsLoop,if_neg hc]
    by_cases hsep : c = SHELL_SEPARATOR
    · obtain ⟨rfl,rfl⟩ : first = [] ∧ others = first' :: others' := by
        rw [List.splitOn,List.splitOnP_cons_eq_if_modifyHead,if_pos (by simp [hsep])] at hsplit
        rw [List.splitOn] at hsplit'
        simpa [hsplit',eq_comm] using hsplit
      have hahead : ahead prev [] (first' :: others') = ahead c first' others' := by simp [ahead,hsep]
      rw [hahead,if_pos hsep]
      have hloop := hrest hj
      by_cases hfew : j + (ahead c first' others').length < SHELL_MAX_ARGS
      · rw [if_pos hfew] at hloop ⊢
        obtain ⟨tmp,argv,hrun,hs⟩ := hloop
        refine ⟨_,_,by rw [hrun]; rfl,?_,?_,?_⟩
        · intro hprev
          simp [hprev,stringAt]
        · intro o ho
          exact Nat.le_of_succ_le (hs.later o ho)
        · rw [map_drop_cons _ hs.later,hs.args,hahead]
      · rw [if_neg hfew] at hloop ⊢
        rw [hloop]
        rfl
    · obtain ⟨rfl,rfl⟩ : first = c :: first' ∧ others = others' := by
        rw [List.splitOn,List.splitOnP_cons_eq_if_modifyHead,if_neg (by simpa using hsep)] at hsplit
        rw [List.splitOn] at hsplit'
        simpa [hsplit',eq_comm] using hsplit
      rw [if_neg hsep]
      by_cases hprev : prev = SHELL_SEPARATOR
      · have hahead : ahead prev (c :: first') others = (c :: first') :: ahead c first' others := by
          simp [ahead,hsep,hprev]
        rw [if_pos hprev,hahead]
        by_cases hlast : j + 1 = SHELL_MAX_ARGS
        · rw [if_pos hlast,if_neg (by simp; omega)]
        · rw [if_neg hlast]
          have hloop := hrest (j := j + 1) (by omega)
          rw [show j + 1 + (ahead c first' others).length = j + ((c :: first') :: ahead c first' others).length by
            simp; omega] at hloop
          split_ifs at hloop ⊢ with hfew
          · obtain ⟨tmp,argv,hrun,hs⟩ := hloop
            refine ⟨_,_,by rw [hrun]; rfl,?_,?_,?_⟩
            · intro h
              exact absurd hprev h
            · intro o ho
              rcases List.mem_cons.mp ho with rfl | ho
              · exact Nat.le_refl _
              · exact Nat.le_of_succ_le (hs.later o ho)
            · rw [List.map_cons,map_drop_cons _ hs.later,hs.args,hahead]
              have hword : stringAt tmp = first' := hs.current hsep
              simp [stringAt,hc] at hword ⊢
              exact hword
          · rw [hloop]
            rfl
      · have hahead : ahead prev (c :: first') others = ahead c first' others := by simp [ahead,hsep,hprev]
        rw [if_neg hprev,hahead]
        have hloop := hrest hj
        split_ifs at hloop ⊢ with hfew
        · obtain ⟨tmp,argv,hrun,hs⟩ := hloop
          refine ⟨_,_,by rw [hrun]; rfl,?_,?_,?_⟩
          · intro _
            have hword : stringAt tmp = first' := hs.current hsep
            simp [stringAt,hc] at hword ⊢
            exact hword
          · intro o ho
            exact Nat.le_of_succ_le (hs.later o ho)
          · rw [map_drop_cons _ hs.later,hs.args,hahead]
        · rw [hloop]
          rfl

end

end X1.Shell
