import X1.Shell.Registry

/-! # The containers of the commands

The sorted list and the hash table always hold the same commands, those that were registered
under a name of their own. The invariant is what the two kinds of links stand for.
-/
namespace X1.Shell
open X1.Word X1.CString X1.Chain X1.Fmt X1.FirstDifference

section
variable {a b c : List UInt8}

theorem strcmp_eq_zero_iff (ha : 0 ∉ a) (hb : 0 ∉ b) : strcmp a b = 0 ↔ a = b :=
  difference_eq_zero_iff signed_injective (signed_ne_zero ha) (signed_ne_zero hb)

theorem strcmp_trans (hb : 0 ∉ b) (hc : 0 ∉ c) (hab : strcmp a b < 0) (hbc : strcmp b c < 0) : strcmp a c < 0 :=
  difference_trans signed_injective (signed_ne_zero hb) (signed_ne_zero hc) hab hbc

theorem strcmp_swap (a b : List UInt8) : strcmp a b = -strcmp b a := difference_swap a b

/-- A name that does not come before another one, and is not the same, comes after it. -/
theorem strcmp_of_not_lt (ha : 0 ∉ a) (hb : 0 ∉ b) (hne : a ≠ b) (h : ¬strcmp a b < 0) : strcmp b a < 0 := by
  have hswap := strcmp_swap a b
  have hzero : strcmp a b ≠ 0 := fun h0 => hne ((strcmp_eq_zero_iff ha hb).mp h0)
  omega

theorem zero_not_mem_of_check (h : shellCmdCheck a = true) : 0 ∉ a := by
  intro hzero
  simp only [shellCmdCheck,Bool.and_eq_true,List.all_eq_true] at h
  exact absurd (h.1 0 hzero) (by decide)

end

/-- The commands of the sorted list, and of the hash table. -/
structure Represents (sh : Registry) (cmds : List ℕ) : Prop where
  list : Path sh.lsNext sh.list cmds
  sorted : cmds.Pairwise fun a b => strcmp (sh.name a) (sh.name b) < 0
  bucket : ∀ b,∃ chain,Path sh.htNext (sh.htable b) chain ∧
    ∀ c,c ∈ chain ↔ c ∈ cmds ∧ shellBucketGet (sh.name c) = b
  valid : ∀ c ∈ cmds,shellCmdCheck (sh.name c) = true
  fresh : ∀ c ∉ cmds,sh.htNext c = none

namespace Represents
variable {sh : Registry} {cmds : List ℕ} {turns cmd : ℕ} {name : List UInt8}

theorem zero_not_mem (h : Represents sh cmds) {c : ℕ} (hc : c ∈ cmds) : 0 ∉ sh.name c :=
  zero_not_mem_of_check (h.valid c hc)

theorem chain_length {b : ℕ} {chain : List ℕ} (hpath : Path sh.htNext (sh.htable b) chain)
    (hchain : ∀ c,c ∈ chain ↔ c ∈ cmds ∧ shellBucketGet (sh.name c) = b) : chain.length ≤ cmds.length :=
  (hpath.nodup.subperm fun c hc => ((hchain c).mp hc).1).length_le

theorem name_injective (h : Represents sh cmds) {c c' : ℕ} (hc : c ∈ cmds) (hc' : c' ∈ cmds)
    (hname : sh.name c = sh.name c') : c = c' := by
  by_contra hne
  have hzero : strcmp (sh.name c) (sh.name c') = 0 :=
    (strcmp_eq_zero_iff (h.zero_not_mem hc) (h.zero_not_mem hc')).mpr hname
  have hsymm : Std.Symm fun a b => strcmp (sh.name a) (sh.name b) ≠ 0 :=
    ⟨fun a b hab => by rw [strcmp_swap]; omega⟩
  have hdiff : cmds.Pairwise fun a b => strcmp (sh.name a) (sh.name b) ≠ 0 := h.sorted.imp (by omega)
  exact hdiff.forall hc hc' hne hzero

theorem lookup (h : Represents sh cmds) (hturns : cmds.length < turns) (hname : 0 ∉ name) :
    ∃ r,shellCmdLookup turns sh name = some r ∧ ∀ c,r = some c ↔ c ∈ cmds ∧ sh.name c = name := by
  obtain ⟨chain,hpath,hchain⟩ := h.bucket (shellBucketGet name)
  have hlen := chain_length hpath hchain
  refine ⟨_,find_eq _ hpath (by omega),fun c => ?_⟩
  have htest {c : ℕ} (hc : c ∈ cmds) : strcmp (sh.name c) name = 0 ↔ sh.name c = name :=
    strcmp_eq_zero_iff (h.zero_not_mem hc) hname
  constructor
  · intro hfind
    have hc := ((hchain c).mp (List.mem_of_find?_eq_some hfind)).1
    exact ⟨hc,(htest hc).mp (by simpa using List.find?_some hfind)⟩
  · rintro ⟨hc,rfl⟩
    cases hfind : chain.find? fun cmd => decide (strcmp (sh.name cmd) (sh.name c) = 0) with
    | none =>
      have hno := List.find?_eq_none.mp hfind c ((hchain c).mpr ⟨hc,rfl⟩)
      exact absurd ((htest hc).mpr rfl) (by simpa using hno)
    | some c' =>
      have hc' := ((hchain c').mp (List.mem_of_find?_eq_some hfind)).1
      rw [h.name_injective hc' hc ((htest hc').mp (by simpa using List.find?_some hfind))]

/-! ## A new command -/

/-- The place of a command among the others. -/
def insertCmd (sh : Registry) (cmd : ℕ) (cmds : List ℕ) : List ℕ :=
  cmds.takeWhile (fun c => !decide (strcmp (sh.name cmd) (sh.name c) < 0)) ++
    cmd :: cmds.dropWhile fun c => !decide (strcmp (sh.name cmd) (sh.name c) < 0)

theorem mem_insertCmd {c : ℕ} : c ∈ insertCmd sh cmd cmds ↔ c = cmd ∨ c ∈ cmds := by
  have hsplit := List.takeWhile_append_dropWhile (p := fun c => !decide (strcmp (sh.name cmd) (sh.name c) < 0))
    (l := cmds)
  have hmem : c ∈ cmds ↔ c ∈ cmds.takeWhile (fun c => !decide (strcmp (sh.name cmd) (sh.name c) < 0)) ∨
      c ∈ cmds.dropWhile fun c => !decide (strcmp (sh.name cmd) (sh.name c) < 0) := by
    rw [← List.mem_append,hsplit]
  rw [insertCmd,List.mem_append,List.mem_cons,hmem]
  tauto

theorem insertCmd_sorted (h : Represents sh cmds) (hcmd : 0 ∉ sh.name cmd)
    (hnew : ∀ c ∈ cmds,sh.name c ≠ sh.name cmd) :
    (insertCmd sh cmd cmds).Pairwise fun a b => strcmp (sh.name a) (sh.name b) < 0 := by
  unfold insertCmd
  generalize htest : (fun c => !decide (strcmp (sh.name cmd) (sh.name c) < 0)) = test
  have hsplit := List.takeWhile_append_dropWhile (p := test) (l := cmds)
  have hsorted := h.sorted
  rw [← hsplit,List.pairwise_append] at hsorted
  obtain ⟨hbefore,hafter,hacross⟩ := hsorted
  have hmem {c : ℕ} : c ∈ cmds.takeWhile test ∨ c ∈ cmds.dropWhile test → c ∈ cmds := by
    rw [← List.mem_append,hsplit]
    exact id
  have hless : ∀ c ∈ cmds.takeWhile test,strcmp (sh.name c) (sh.name cmd) < 0 := by
    intro c hc
    have hno : test c = true := List.mem_takeWhile_imp hc
    rw [← htest] at hno
    have hcmds := hmem (.inl hc)
    exact strcmp_of_not_lt hcmd (h.zero_not_mem hcmds) (hnew c hcmds).symm (by simpa using hno)
  have hmore : ∀ c ∈ cmds.dropWhile test,strcmp (sh.name cmd) (sh.name c) < 0 := by
    intro c hc
    cases hdrop : cmds.dropWhile test with
    | nil => simp [hdrop] at hc
    | cons d rest =>
      have hd : test d = false := by
        have := List.head_dropWhile_not test (l := cmds) (by simp [hdrop])
        simpa [hdrop] using this
      have hdlt : strcmp (sh.name cmd) (sh.name d) < 0 := by
        rw [← htest] at hd
        simpa using hd
      rw [hdrop] at hc hafter
      rcases List.mem_cons.mp hc with rfl | hc
      · exact hdlt
      · have hdmem := hmem (c := d) (.inr (by simp [hdrop]))
        have hcmem := hmem (c := c) (.inr (by simp [hdrop,hc]))
        exact strcmp_trans (h.zero_not_mem hdmem) (h.zero_not_mem hcmem) hdlt ((List.pairwise_cons.mp hafter).1 c hc)
  rw [List.pairwise_append,List.pairwise_cons]
  refine ⟨hbefore,⟨hmore,hafter⟩,fun a ha b hb => ?_⟩
  rcases List.mem_cons.mp hb with rfl | hb
  · exact hless a ha
  · exact hacross a ha b hb

theorem addList (hpath : Path sh.lsNext sh.list cmds) (hnew : cmd ∉ cmds) (hturns : cmds.length < turns) :
    ∃ lsNext list,shellCmdAddList turns sh cmd = some { sh with lsNext := lsNext, list := list } ∧
      Path lsNext list (insertCmd sh cmd cmds) := by
  unfold shellCmdAddList
  cases cmds with
  | nil =>
    rw [show sh.list = none from hpath]
    exact ⟨_,_,rfl,rfl,by rw [Function.update_self]; rfl⟩
  | cons prev rest =>
    rw [hpath.1]
    dsimp only
    by_cases hfirst : strcmp (sh.name cmd) (sh.name prev) < 0
    · rw [if_pos hfirst]
      refine ⟨_,_,rfl,?_⟩
      have hinsert : insertCmd sh cmd (prev :: rest) = cmd :: prev :: rest := by simp [insertCmd,hfirst]
      rw [hinsert]
      refine ⟨rfl,?_⟩
      rw [Function.update_self]
      have hrest : Path sh.lsNext (some prev) (prev :: rest) := ⟨rfl,hpath.2⟩
      refine hrest.congr fun c hc => ?_
      exact Function.update_of_ne (ne_of_mem_of_not_mem hc hnew) ..
    · rw [if_neg hfirst]
      have hseek := seek_eq (fun next => decide (strcmp (sh.name cmd) (sh.name next) < 0)) hpath.2
        (show rest.length < turns by simp at hturns; omega)
      have hkeep : insertCmd sh cmd (prev :: rest) =
          (prev :: rest.takeWhile fun c => !decide (strcmp (sh.name cmd) (sh.name c) < 0)) ++
            cmd :: rest.dropWhile fun c => !decide (strcmp (sh.name cmd) (sh.name c) < 0) := by
        simp [insertCmd,hfirst]
      generalize htest : (fun c => !decide (strcmp (sh.name cmd) (sh.name c) < 0)) = test at hseek hkeep
      obtain ⟨before,last,hlast⟩ : ∃ before last,prev :: rest.takeWhile test = before ++ [last] :=
        ⟨_,_,(List.dropLast_append_getLast (List.cons_ne_nil _ _)).symm⟩
      have hall : prev :: rest = before ++ last :: rest.dropWhile test := by
        have hsplit := List.takeWhile_append_dropWhile (p := test) (l := rest)
        calc prev :: rest = (prev :: rest.takeWhile test) ++ rest.dropWhile test := by rw [List.cons_append,hsplit]
          _ = _ := by rw [hlast,List.append_assoc]; rfl
      rw [hlast,List.getLast?_concat] at hseek
      have hinsert := Path.insert (hall ▸ hpath) (hall ▸ hnew)
      refine ⟨_,_,by rw [hseek]; rfl,?_⟩
      rw [hkeep,hlast,List.append_assoc,← hpath.1]
      exact hinsert

theorem bucketLoop_collision {tmp : ℕ} {rest : List ℕ} (hpath : Path sh.htNext (sh.htNext tmp) rest)
    (hturns : rest.length < turns) (hsame : ∃ c ∈ tmp :: rest,strcmp (sh.name cmd) (sh.name c) = 0) :
    bucketLoop sh cmd turns tmp = some (.error .exist) := by
  induction rest generalizing tmp turns with
  | nil =>
    obtain ⟨turns,rfl⟩ := Nat.exists_eq_succ_of_ne_zero (Nat.ne_of_gt hturns)
    obtain ⟨c,hc,hzero⟩ := hsame
    rw [List.mem_singleton] at hc
    rw [bucketLoop,if_pos (hc ▸ hzero)]
  | cons next rest ih =>
    obtain ⟨turns,rfl⟩ := Nat.exists_eq_succ_of_ne_zero (Nat.ne_of_gt (Nat.zero_lt_of_lt hturns))
    rw [bucketLoop]
    split_ifs with hfirst
    · rfl
    · rw [hpath.1]
      refine ih hpath.2 (by simpa using hturns) ?_
      obtain ⟨c,hc,hzero⟩ := hsame
      rcases List.mem_cons.mp hc with rfl | hc
      · exact absurd hzero hfirst
      · exact ⟨c,hc,hzero⟩

theorem bucketLoop_last {tmp : ℕ} {rest : List ℕ} (hpath : Path sh.htNext (sh.htNext tmp) rest)
    (hturns : rest.length < turns) (hnew : ∀ c ∈ tmp :: rest,strcmp (sh.name cmd) (sh.name c) ≠ 0) :
    ∃ before last,tmp :: rest = before ++ [last] ∧ bucketLoop sh cmd turns tmp = some (.ok last) := by
  induction rest generalizing tmp turns with
  | nil =>
    obtain ⟨turns,rfl⟩ := Nat.exists_eq_succ_of_ne_zero (Nat.ne_of_gt hturns)
    refine ⟨[],tmp,rfl,?_⟩
    rw [bucketLoop,if_neg (hnew tmp (by simp)),show sh.htNext tmp = none from hpath]
  | cons next rest ih =>
    obtain ⟨turns,rfl⟩ := Nat.exists_eq_succ_of_ne_zero (Nat.ne_of_gt (Nat.zero_lt_of_lt hturns))
    obtain ⟨before,last,hlast,hloop⟩ := ih hpath.2 (by simpa using hturns) fun c hc => hnew c (List.mem_cons_of_mem _ hc)
    refine ⟨tmp :: before,last,by rw [hlast]; rfl,?_⟩
    rw [bucketLoop,if_neg (hnew tmp (by simp)),hpath.1]
    exact hloop

/-- The containers with a command that was not in them. -/
theorem insert {lsNext htNext htable : ℕ → Option ℕ} {list : Option ℕ} (h : Represents sh cmds)
    (hcheck : shellCmdCheck (sh.name cmd) = true) (hnew : ∀ c ∈ cmds,sh.name c ≠ sh.name cmd)
    (hlist : Path lsNext list (insertCmd sh cmd cmds))
    (hbucket : ∃ chain,Path htNext (htable (shellBucketGet (sh.name cmd))) chain ∧
      ∀ c,c ∈ chain ↔ c = cmd ∨ c ∈ cmds ∧ shellBucketGet (sh.name c) = shellBucketGet (sh.name cmd))
    (hothers : ∀ b ≠ shellBucketGet (sh.name cmd),htable b = sh.htable b)
    (hlinks : ∀ c,(c ∈ cmds → shellBucketGet (sh.name c) ≠ shellBucketGet (sh.name cmd)) → htNext c = sh.htNext c) :
    Represents { sh with lsNext := lsNext, list := list, htNext := htNext, htable := htable }
      (insertCmd sh cmd cmds) where
  list := hlist
  sorted := by
    have hsorted := insertCmd_sorted h (zero_not_mem_of_check hcheck) hnew
    exact hsorted
  bucket b := by
    by_cases hb : b = shellBucketGet (sh.name cmd)
    · subst hb
      obtain ⟨chain,hpath,hchain⟩ := hbucket
      refine ⟨chain,hpath,fun c => ?_⟩
      rw [hchain,mem_insertCmd]
      constructor
      · rintro (rfl | hc)
        · exact ⟨.inl rfl,rfl⟩
        · exact ⟨.inr hc.1,hc.2⟩
      · rintro ⟨rfl | hc,hsame⟩
        · exact .inl rfl
        · exact .inr ⟨hc,hsame⟩
    · obtain ⟨chain,hpath,hchain⟩ := h.bucket b
      refine ⟨chain,?_,fun c => ?_⟩
      · change Path htNext (htable b) chain
        rw [hothers b hb]
        exact hpath.congr fun c hc => hlinks c fun _ heq => hb (((hchain c).mp hc).2.symm.trans heq)
      · rw [hchain,mem_insertCmd]
        constructor
        · rintro ⟨hc,hsame⟩
          exact ⟨.inr hc,hsame⟩
        · rintro ⟨rfl | hc,hsame⟩
          · exact absurd hsame.symm hb
          · exact ⟨hc,hsame⟩
  valid c hc := by
    rcases mem_insertCmd.mp hc with rfl | hc
    · exact hcheck
    · exact h.valid c hc
  fresh c hc := by
    obtain ⟨-,hc⟩ := not_or.mp fun h' => hc (mem_insertCmd.mpr h')
    exact (hlinks c fun h' => absurd h' hc).trans (h.fresh c hc)

/-- `shell_cmd_add` either finds the name, or puts the command into both containers. -/
theorem add (h : Represents sh cmds) (hturns : cmds.length < turns) (hcheck : shellCmdCheck (sh.name cmd) = true) :
    if ∃ c ∈ cmds,sh.name c = sh.name cmd then
      shellCmdAdd turns sh cmd =
        some (some .exist,[printf "shell: error: %s: shell command name collision" [strArg (sh.name cmd)]],sh)
    else ∃ sh',shellCmdAdd turns sh cmd = some (none,[],sh') ∧ sh'.name = sh.name ∧
      Represents sh' (insertCmd sh cmd cmds) := by
  obtain ⟨chain,hpath,hchain⟩ := h.bucket (shellBucketGet (sh.name cmd))
  have hlen := chain_length hpath hchain
  have hzero := zero_not_mem_of_check hcheck
  have htest {c : ℕ} (hc : c ∈ cmds) : strcmp (sh.name cmd) (sh.name c) = 0 ↔ sh.name c = sh.name cmd :=
    (strcmp_eq_zero_iff hzero (h.zero_not_mem hc)).trans eq_comm
  unfold shellCmdAdd
  dsimp only
  split_ifs with hsame
  · obtain ⟨c,hc,hname⟩ := hsame
    have hmem : c ∈ chain := (hchain c).mpr ⟨hc,by rw [hname]⟩
    cases chain with
    | nil => cases hmem
    | cons tmp rest =>
      rw [hpath.1]
      dsimp only
      rw [bucketLoop_collision hpath.2 (by simp at hlen; omega) ⟨c,hmem,(htest hc).mpr hname⟩]
      rfl
  · have hnew : ∀ c ∈ cmds,sh.name c ≠ sh.name cmd := fun c hc hname => hsame ⟨c,hc,hname⟩
    have hcmd : cmd ∉ cmds := fun hc => hnew cmd hc rfl
    cases chain with
    | nil =>
      have hlist : Path ({ sh with htable := Function.update sh.htable (shellBucketGet (sh.name cmd)) (some cmd) } :
        Registry).lsNext sh.list cmds := h.list
      obtain ⟨lsNext,list,hadd,hpath'⟩ := addList hlist hcmd hturns
      rw [show sh.htable (shellBucketGet (sh.name cmd)) = none from hpath]
      dsimp only
      rw [hadd]
      refine ⟨_,rfl,rfl,h.insert hcheck hnew hpath' ⟨[cmd],?_,fun c => ?_⟩
        (fun b hb => Function.update_of_ne hb ..) fun c _ => rfl⟩
      · exact ⟨Function.update_self ..,h.fresh cmd hcmd⟩
      · have hno := hchain c
        simp only [List.not_mem_nil,false_iff] at hno
        simp [hno]
    | cons tmp rest =>
      have hdiff : ∀ c ∈ tmp :: rest,strcmp (sh.name cmd) (sh.name c) ≠ 0 := by
        intro c hc hz
        have hc' := ((hchain c).mp hc).1
        exact hnew c hc' ((htest hc').mp hz)
      obtain ⟨before,last,hsplit,hloop⟩ := bucketLoop_last hpath.2 (by simp at hlen; omega : rest.length < turns) hdiff
      have hlast := (hchain last).mp (by rw [hsplit]; simp)
      have hlist : Path ({ sh with htNext := Function.update sh.htNext last (some cmd) } : Registry).lsNext sh.list cmds :=
        h.list
      obtain ⟨lsNext,list,hadd,hpath'⟩ := addList hlist hcmd hturns
      rw [hpath.1]
      dsimp only
      rw [hloop]
      dsimp only [bind,Option.bind]
      rw [hadd]
      refine ⟨_,rfl,rfl,h.insert hcheck hnew hpath' ⟨before ++ [last,cmd],?_,fun c => ?_⟩ (fun b hb => rfl) fun c hc => ?_⟩
      · -- the link of the new command is null already
        have hold := hsplit ▸ hpath
        have hnotin : cmd ∉ before ++ [last] := fun hc => hcmd ((hchain cmd).mp (hsplit ▸ hc)).1
        have hne : cmd ≠ last := fun heq => hnotin (by simp [heq])
        have hnull : sh.htNext last = none := hold.of_append
        refine (hold.insert hnotin).congr fun c _ => ?_
        by_cases hc : c = cmd
        · subst hc
          rw [Function.update_self,hnull]
          exact (Function.update_of_ne hne ..).trans (h.fresh c hcmd)
        · rw [Function.update_of_ne hc]
      · rw [show before ++ [last,cmd] = (before ++ [last]) ++ [cmd] by simp,← hsplit,List.mem_append,hchain,
          List.mem_singleton]
        tauto
      · have hne : c ≠ last := by
          rintro rfl
          exact hc hlast.1 hlast.2
        exact Function.update_of_ne hne ..

theorem register (h : Represents sh cmds) (cmd : ℕ) (hturns : cmds.length < turns) :
    if shellCmdCheck (sh.name cmd) = false then shellCmdRegister turns sh cmd = some (some .inval,[],sh)
    else if ∃ c ∈ cmds,sh.name c = sh.name cmd then
      shellCmdRegister turns sh cmd =
        some (some .exist,[printf "shell: error: %s: shell command name collision" [strArg (sh.name cmd)]],sh)
    else ∃ sh',shellCmdRegister turns sh cmd = some (none,[],sh') ∧ sh'.name = sh.name ∧
      Represents sh' (insertCmd sh cmd cmds) := by
  unfold shellCmdRegister
  cases hcheck : shellCmdCheck (sh.name cmd) with
  | false => rfl
  | true =>
    have hadd := h.add hturns hcheck
    simpa using hadd

end Represents

/-! ## Registrations, one after the other -/

/-- No command has been registered. -/
def emptyRegistry (name : ℕ → List UInt8) : Registry where
  name := name
  htNext _ := none
  lsNext _ := none
  htable _ := none
  list := none

/-- What the registrations return, and the containers after them. -/
def registerAll (turns : ℕ) : Registry → List ℕ → Option (List (Option Error) × Registry)
  | sh,[] => some ([],sh)
  | sh,cmd :: cmds => do
    let (e,_,sh) ← shellCmdRegister turns sh cmd
    let (es,sh) ← registerAll turns sh cmds
    return (e :: es,sh)

/-- The first command that was registered under a name. -/
def firstNamed (name : ℕ → List UInt8) (done : List ℕ) (n : List UInt8) : Option ℕ :=
  done.find? fun c => shellCmdCheck (name c) && name c == n

/-- What a registration is to return after others. -/
def verdict (name : ℕ → List UInt8) (done : List ℕ) (cmd : ℕ) : Option Error :=
  if shellCmdCheck (name cmd) = false then some .inval
  else if (firstNamed name done (name cmd)).isSome then some .exist
  else none

def verdicts (name : ℕ → List UInt8) : List ℕ → List ℕ → List (Option Error)
  | _,[] => []
  | done,cmd :: cmds => verdict name done cmd :: verdicts name (done ++ [cmd]) cmds

/-- The commands of the containers are the first ones of their names. -/
def Holds (name : ℕ → List UInt8) (done : List ℕ) (sh : Registry) : Prop :=
  sh.name = name ∧ ∃ cmds,Represents sh cmds ∧ ∀ c,c ∈ cmds ↔ firstNamed name done (name c) = some c

section
variable {name : ℕ → List UInt8} {done ops : List ℕ} {sh : Registry} {turns c cmd : ℕ} {n : List UInt8}

theorem firstNamed_some (h : firstNamed name done n = some c) :
    c ∈ done ∧ shellCmdCheck (name c) = true ∧ name c = n := by
  have htest := List.find?_some h
  simp only [Bool.and_eq_true,beq_iff_eq] at htest
  exact ⟨List.mem_of_find?_eq_some h,htest⟩

theorem firstNamed_append :
    firstNamed name (done ++ [cmd]) n =
      (firstNamed name done n).or (if shellCmdCheck (name cmd) = true ∧ name cmd = n then some cmd else none) := by
  unfold firstNamed
  rw [List.find?_append]
  congr 1
  have htest : (shellCmdCheck (name cmd) && name cmd == n) = decide (shellCmdCheck (name cmd) = true ∧ name cmd = n) := by
    rw [Bool.eq_iff_iff]
    simp
  rw [List.find?_cons,htest,List.find?_nil]
  by_cases hn : shellCmdCheck (name cmd) = true ∧ name cmd = n
  · rw [decide_eq_true hn,if_pos hn]
  · rw [decide_eq_false hn,if_neg hn]

theorem empty_represents : Represents (emptyRegistry name) [] where
  list := rfl
  sorted := List.Pairwise.nil
  bucket _ := ⟨[],rfl,by simp⟩
  valid _ hc := absurd hc (by simp)
  fresh _ _ := rfl

theorem Holds.start : Holds name [] (emptyRegistry name) :=
  ⟨rfl,[],empty_represents,fun c => by simp [firstNamed]⟩

/-- There are no more commands in the containers than there were registrations. -/
theorem length_le_of_first {cmds : List ℕ} (h : Represents sh cmds)
    (hfirst : ∀ c,c ∈ cmds ↔ firstNamed name done (name c) = some c) : cmds.length ≤ done.length :=
  (h.list.nodup.subperm fun c hc => (firstNamed_some ((hfirst c).mp hc)).1).length_le

theorem Holds.step (h : Holds name done sh) (cmd : ℕ) (hturns : done.length < turns) :
    ∃ out sh',shellCmdRegister turns sh cmd = some (verdict name done cmd,out,sh') ∧
      Holds name (done ++ [cmd]) sh' := by
  obtain ⟨rfl,cmds,hrep,hfirst⟩ := h
  have hlen := length_le_of_first hrep hfirst
  have hreg := hrep.register cmd (by omega : cmds.length < turns)
  have hknown : (∃ c ∈ cmds,sh.name c = sh.name cmd) ↔ (firstNamed sh.name done (sh.name cmd)).isSome := by
    constructor
    · rintro ⟨c,hc,hname⟩
      rw [← hname,(hfirst c).mp hc]
      rfl
    · intro hsome
      obtain ⟨c,hc⟩ := Option.isSome_iff_exists.mp hsome
      have hname := (firstNamed_some hc).2.2
      exact ⟨c,(hfirst c).mpr (hname ▸ hc),hname⟩
  have hsame (hno : ¬(shellCmdCheck (sh.name cmd) = true ∧ firstNamed sh.name done (sh.name cmd) = none)) (c : ℕ) :
      c ∈ cmds ↔ firstNamed sh.name (done ++ [cmd]) (sh.name c) = some c := by
    rw [hfirst,firstNamed_append]
    cases hdone : firstNamed sh.name done (sh.name c) with
    | some c' => simp
    | none =>
      have hother : ¬(shellCmdCheck (sh.name cmd) = true ∧ sh.name cmd = sh.name c) :=
        fun h => hno ⟨h.1,h.2 ▸ hdone⟩
      rw [if_neg hother]
      simp
  unfold verdict
  by_cases hcheck : shellCmdCheck (sh.name cmd) = false
  · rw [if_pos hcheck] at hreg ⊢
    exact ⟨_,_,hreg,rfl,cmds,hrep,hsame fun h => by simp [hcheck] at h⟩
  · rw [if_neg hcheck] at hreg ⊢
    by_cases hexist : ∃ c ∈ cmds,sh.name c = sh.name cmd
    · rw [if_pos hexist] at hreg
      rw [if_pos (hknown.mp hexist)]
      refine ⟨_,_,hreg,rfl,cmds,hrep,hsame fun h => ?_⟩
      have := hknown.mp hexist
      simp [h.2] at this
    · rw [if_neg hexist] at hreg
      have hnone : firstNamed sh.name done (sh.name cmd) = none := by
        simpa using fun h => hexist (hknown.mpr h)
      obtain ⟨sh',hrun,hname,hrep'⟩ := hreg
      rw [if_neg (fun h => hexist (hknown.mpr h))]
      refine ⟨_,_,hrun,hname,_,hrep',fun c => ?_⟩
      rw [Represents.mem_insertCmd,firstNamed_append,hfirst]
      by_cases hc : sh.name c = sh.name cmd
      · rw [hc,hnone]
        simp [hcheck,eq_comm]
      · have hne : c ≠ cmd := fun h => hc (by rw [h])
        rw [if_neg (fun h => hc h.2.symm)]
        simp [hne]

/-- After any registrations, from the start: each of them has returned what its name calls for, the list is
sorted and holds the first command of each valid name, and so does the hash table. -/
theorem registerAll_holds (h : Holds name done sh) (hturns : done.length + ops.length < turns) :
    ∃ sh',registerAll turns sh ops = some (verdicts name done ops,sh') ∧ Holds name (done ++ ops) sh' := by
  induction ops generalizing done sh with
  | nil => exact ⟨sh,rfl,by simpa using h⟩
  | cons cmd ops ih =>
    simp only [List.length_cons] at hturns
    obtain ⟨out,sh₁,hrun,h₁⟩ := h.step cmd (by omega : done.length < turns)
    obtain ⟨sh₂,hrest,h₂⟩ := ih h₁ (by simp; omega)
    refine ⟨sh₂,?_,by simpa using h₂⟩
    rw [registerAll,hrun]
    simp only [bind,Option.bind,hrest]
    rfl

end

end X1.Shell
