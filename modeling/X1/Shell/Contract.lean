import X1.Shell.History

/-! # The contract of lib/shell.c -/
namespace X1.Shell
open X1.Chain X1.Display X1.CommonPrefix

variable {name : ℕ → List UInt8} {ops : List ℕ} {events : List Event} {turns : ℕ}

/-! ## Registrations -/

/-- The commands that registrations leave in the containers. -/
def registered (name : ℕ → List UInt8) (ops : List ℕ) : List ℕ :=
  ops.filter fun c => firstNamed name ops (name c) = some c

theorem mem_registered {c : ℕ} : c ∈ registered name ops ↔ firstNamed name ops (name c) = some c := by
  rw [registered,List.mem_filter,decide_eq_true_iff]
  exact ⟨fun h => h.2,fun h => ⟨(firstNamed_some h).1,h⟩⟩

theorem registerAll_represents (name : ℕ → List UInt8) (hturns : ops.length < turns) :
    ∃ sh cmds,registerAll turns (emptyRegistry name) ops = some (verdicts name [] ops,sh) ∧ sh.name = name ∧
      Represents sh cmds ∧ (∀ c,c ∈ cmds ↔ c ∈ registered name ops) ∧ cmds.length ≤ ops.length := by
  have hstart : Holds name [] (emptyRegistry name) := .start
  obtain ⟨sh,hrun,hname,cmds,hrep,hfirst⟩ := registerAll_holds hstart (by simpa using hturns : _ + ops.length < turns)
  rw [List.nil_append] at hfirst
  exact ⟨sh,cmds,hrun,hname,hrep,fun c => (hfirst c).trans mem_registered.symm,length_le_of_first hrep hfirst⟩

/-- Each registration returns what its name calls for, the list is sorted, and both containers give the first
command that was registered under a name. -/
theorem registerAll_correct (name : ℕ → List UInt8) (ops : List ℕ) (turns : ℕ) (hturns : ops.length < turns) :
    ∃ sh cmds,registerAll turns (emptyRegistry name) ops = some (verdicts name [] ops,sh) ∧
      Path sh.lsNext sh.list cmds ∧ cmds.Pairwise (fun a b => strcmp (name a) (name b) < 0) ∧
      (∀ c,c ∈ cmds ↔ firstNamed name ops (name c) = some c) ∧
      ∀ n,0 ∉ n → shellCmdLookup turns sh n = some (firstNamed name ops n) := by
  obtain ⟨sh,cmds,hrun,rfl,hrep,hmem,hlen⟩ := registerAll_represents name hturns
  refine ⟨sh,cmds,hrun,hrep.list,hrep.sorted,fun c => (hmem c).trans mem_registered,fun n hn => ?_⟩
  obtain ⟨r,hlookup,hr⟩ := hrep.lookup (by omega : cmds.length < turns) hn
  rw [hlookup]
  congr 1
  apply Option.ext
  intro c
  rw [hr,hmem,mem_registered]
  constructor
  · rintro ⟨hc,rfl⟩
    exact hc
  · intro hc
    obtain rfl := (firstNamed_some hc).2.2
    exact ⟨hc,rfl⟩

/-- Four commands, of which one has the name of another one and one has no valid name. -/
def sampleName : ℕ → List UInt8
  | 0 => cstring "help"
  | 1 => cstring "history"
  | 2 => cstring "help"
  | _ => cstring "a b"

theorem registerAll_correct_sample : ∃ sh cmds,
    registerAll 5 (emptyRegistry sampleName) [1,0,2,3] = some ([none,none,some .exist,some .inval],sh) ∧
      Path sh.lsNext sh.list cmds ∧ cmds.Pairwise (fun a b => strcmp (sampleName a) (sampleName b) < 0) ∧
      (∀ c,c ∈ cmds ↔ firstNamed sampleName [1,0,2,3] (sampleName c) = some c) ∧
      ∀ n,0 ∉ n → shellCmdLookup 5 sh n = some (firstNamed sampleName [1,0,2,3] n) :=
  registerAll_correct sampleName [1,0,2,3] 5 (by decide)

/-! ## Completion -/

/-- A command is registered, and its name begins like a string. -/
def Matches (name : ℕ → List UInt8) (ops : List ℕ) (str : List UInt8) (size c : ℕ) : Prop :=
  firstNamed name ops (name c) = some c ∧ (name c).take size = str.take size

/-- Nothing matches; or one command does; or the first of several in the order of the names is found, with the
length of the longest string that all of them begin with. -/
theorem shellCmdComplete_correct (name : ℕ → List UInt8) (ops : List ℕ) (turns : ℕ) (str : List UInt8) (size : ℕ)
    (hturns : ops.length < turns) (hstr : 0 ∉ str) :
    ∃ sh r,registerAll turns (emptyRegistry name) ops = some (verdicts name [] ops,sh) ∧
      shellCmdComplete turns sh str size = some r ∧
      (r = .inval ↔ ∀ c,¬Matches name ops str size c) ∧
      (∀ c n,r = .single c n → Matches name ops str size c ∧ (∀ d,Matches name ops str size d → d = c) ∧
        n = (name c).length) ∧
      ∀ c n,r = .again c n → Matches name ops str size c ∧
        (∀ d,Matches name ops str size d → d = c ∨ strcmp (name c) (name d) < 0) ∧
        (∃ d,d ≠ c ∧ Matches name ops str size d) ∧ size ≤ n ∧
        IsGreatest {n | ∃ p : List UInt8,p.length = n ∧ ∀ d,Matches name ops str size d → p <+: name d} n := by
  obtain ⟨sh,cmds,hrun,rfl,hrep,hmem,hlen⟩ := registerAll_represents name hturns
  obtain ⟨r,hcomplete,hr⟩ := hrep.complete size (by omega : cmds.length < turns) hstr
  refine ⟨sh,r,hrun,hcomplete,?_⟩
  have hmatches (c : ℕ) : c ∈ matching sh cmds str size ↔ Matches sh.name ops str size c := by
    rw [matching,List.mem_filter,decide_eq_true_iff,hmem,mem_registered,Matches]
  have hsorted : (matching sh cmds str size).Pairwise fun a b => strcmp (sh.name a) (sh.name b) < 0 :=
    hrep.sorted.filter _
  have hnodup : (matching sh cmds str size).Nodup := hrep.list.nodup.filter _
  unfold IsCommonLength at hr
  simp only [← hmatches]
  generalize matching sh cmds str size = l at hr hsorted hnodup
  cases l with
  | nil =>
    obtain rfl : r = .inval := hr
    simp
  | cons c l =>
    cases l with
    | nil =>
      obtain rfl : r = .single c (sh.name c).length := hr
      refine ⟨iff_of_false (by simp) fun h => h c (by simp),fun c' n hsingle => ?_,fun c' n hagain => by cases hagain⟩
      cases hsingle
      exact ⟨by simp,fun d hd => List.mem_singleton.mp hd,rfl⟩
    | cons d l =>
      obtain ⟨n,rfl,hsize,hcommon⟩ := hr
      refine ⟨iff_of_false (by simp) fun h => h c (by simp),fun c' n' hsingle => (by cases hsingle),
        fun c' n' hagain => ?_⟩
      cases hagain
      refine ⟨by simp,fun d' hd' => ?_,⟨d,?_,by simp⟩,hsize,hcommon⟩
      · rcases List.mem_cons.mp hd' with rfl | hd'
        · exact .inl rfl
        · exact .inr ((List.pairwise_cons.mp hsorted).1 d' hd')
      · rintro rfl
        simp at hnodup

theorem shellCmdComplete_correct_sample : ∃ sh r,
    registerAll 5 (emptyRegistry sampleName) [1,0,2,3] = some (verdicts sampleName [] [1,0,2,3],sh) ∧
      shellCmdComplete 5 sh (cstring "h") 1 = some r ∧
      (r = .inval ↔ ∀ c,¬Matches sampleName [1,0,2,3] (cstring "h") 1 c) ∧
      (∀ c n,r = .single c n → Matches sampleName [1,0,2,3] (cstring "h") 1 c ∧
        (∀ d,Matches sampleName [1,0,2,3] (cstring "h") 1 d → d = c) ∧ n = (sampleName c).length) ∧
      ∀ c n,r = .again c n → Matches sampleName [1,0,2,3] (cstring "h") 1 c ∧
        (∀ d,Matches sampleName [1,0,2,3] (cstring "h") 1 d → d = c ∨ strcmp (sampleName c) (sampleName d) < 0) ∧
        (∃ d,d ≠ c ∧ Matches sampleName [1,0,2,3] (cstring "h") 1 d) ∧ 1 ≤ n ∧
        IsGreatest {n | ∃ p : List UInt8,p.length = n ∧
          ∀ d,Matches sampleName [1,0,2,3] (cstring "h") 1 d → p <+: sampleName d} n :=
  shellCmdComplete_correct sampleName [1,0,2,3] 5 (cstring "h") 1 (by decide) (by decide)

/-! ## Runs -/

/-- The shell after some registrations, before the first character; `guard` is what is beyond its lines. -/
def boot (guard : ℕ → CString.Bytes) (turns : ℕ) (name : ℕ → List UInt8) (ops : List ℕ) : Option State :=
  (registerAll turns (emptyRegistry name) ops).map fun r => start guard r.2

/-- The shell after some registrations and events. -/
def shellFrom (guard : ℕ → CString.Bytes) (turns : ℕ) (fn : State → ℕ → List (List UInt8) → List UInt8)
    (name : ℕ → List UInt8) (ops : List ℕ) (events : List Event) : Option State :=
  (boot guard turns name ops).bind (run turns fn · events)

/-- The shell in memory that has not been written. -/
def shell (turns : ℕ) (fn : State → ℕ → List (List UInt8) → List UInt8) (name : ℕ → List UInt8) (ops : List ℕ)
    (events : List Event) : Option State :=
  shellFrom (fun _ _ => 0) turns fn name ops events

/-- The shell without arrays, links and loops, after the same registrations and events. -/
def model (name : ℕ → List UInt8) (ops : List ℕ) (events : List Event) : Option Spec :=
  (Spec.start (registered name ops)).run name events

theorem shell_agrees (guard : ℕ → CString.Bytes) (fn : State → ℕ → List (List UInt8) → List UInt8)
    (name : ℕ → List UInt8) (ops : List ℕ) (plain : Prop) (hfn : plain → ∀ s cmd args,Plain (fn s cmd args))
    (hother : plain → ∀ cs,.other cs ∈ events → Plain cs) (hturns : 64 ≤ turns)
    (hcmds : ops.length + events.length < turns) (hword : events.length < 2 ^ 32) :
    Agrees guard name plain (shellFrom guard turns fn name ops events) (model name ops events) := by
  obtain ⟨sh,cmds,hrun,rfl,hrep,hmem,-⟩ := registerAll_represents name (by omega : ops.length < turns)
  have hlen : (registered sh.name ops).length ≤ ops.length := List.length_filter_le _ _
  have hstart : Rel guard sh.name plain (start guard sh) (Spec.start (registered sh.name ops)) := .start hrep hmem
  rw [shellFrom,boot,hrun]
  exact hstart.run hfn hother hturns (show (registered sh.name ops).length + events.length < turns by omega)
    (show 0 + events.length < 2 ^ 32 by omega)

/-- The lines of the history, from the oldest one on. -/
def historyLines (s : State) : List (List UInt8) :=
  (List.range (s.newest - s.oldest)).map fun i => shellLineStr (shellHistoryGet s (s.oldest + i))

theorem Refines.historyLines {guard : ℕ → CString.Bytes} {s : State} {e : Editor} (h : Refines guard s e) :
    historyLines s = e.entries := by
  apply List.ext_getElem
  · simp [X1.Shell.historyLines,h.newest]
  · intro i hi hi'
    have hentry := (h.entry hi').str_eq
    rw [List.getD_eq_getElem _ _ hi'] at hentry
    simpa [X1.Shell.historyLines] using hentry

/-- Whatever is typed, registered and printed, the shell is the one without arrays, links and loops: it goes on
when that one does, with the same line, cursor and history and after the same calls. It writes nothing beyond its
lines, and no text that it prints is too long for an `int` unless a name is. -/
theorem shell_refines (guard : ℕ → CString.Bytes) (fn : State → ℕ → List (List UInt8) → List UInt8)
    (name : ℕ → List UInt8) (ops : List ℕ) (events : List Event) (turns : ℕ) (hturns : 64 ≤ turns)
    (hcmds : ops.length + events.length < turns) (hword : events.length < 2 ^ 32) :
    match model name ops events with
    | none => shellFrom guard turns fn name ops events = none
    | some sp => ∃ s,shellFrom guard turns fn name ops events = some s ∧
      shellLineStr (shellHistoryGetNewest s) = sp.editor.text ∧ s.cursor = sp.editor.cursor ∧
      historyLines s = sp.editor.entries ∧ s.ran = sp.ran ∧ (ShortNames name → s.fault = none) ∧
      ∀ slot < SHELL_HISTORY_SIZE,∀ a,SHELL_LINE_MAX_SIZE ≤ a → (s.history slot).str a = guard slot a := by
  have hagrees := shell_agrees guard fn name ops False (fun h => h.elim) (fun h => h.elim) hturns hcmds hword
  cases hmodel : model name ops events with
  | none =>
    rw [hmodel] at hagrees
    exact hagrees
  | some sp =>
    rw [hmodel] at hagrees
    obtain ⟨s,hrun,h⟩ := hagrees
    exact ⟨s,hrun,h.refines.line.str_eq,h.refines.cursor,h.refines.historyLines,h.ran,h.fault,h.refines.beyond⟩

/-- The characters of a text, typed one after the other. -/
def typing (text : String) : List Event := (cstring text).map fun c => .char (some c)

theorem shell_refines_completed :
    ∃ s,shellFrom (fun _ _ => 7) 100 (fun _ _ _ => []) sampleName [1,0,2,3] (typing "x\nhe\t") = some s ∧
      shellLineStr (shellHistoryGetNewest s) = cstring "help" ∧ s.cursor = 4 ∧ historyLines s = [cstring "x"] ∧
      s.ran = [] ∧ (ShortNames sampleName → s.fault = none) ∧
      ∀ slot < SHELL_HISTORY_SIZE,∀ a,SHELL_LINE_MAX_SIZE ≤ a → (s.history slot).str a = 7 :=
  shell_refines (fun _ _ => 7) (fun _ _ _ => []) sampleName [1,0,2,3] (typing "x\nhe\t") 100 (by decide) (by decide)
    (by decide)

/-- The history is the last twenty of the lines that have been entered, without the empty ones and those that
repeat the line before them. -/
theorem shell_history (fn : State → ℕ → List (List UInt8) → List UInt8) (name : ℕ → List UInt8) (ops : List ℕ)
    (events : List Event) (turns : ℕ) (sp : Spec) (hturns : 64 ≤ turns) (hcmds : ops.length + events.length < turns)
    (hword : events.length < 2 ^ 32) (hmodel : model name ops events = some sp) :
    ∃ s,shell turns fn name ops events = some s ∧
      historyLines s = (remembered sp.entered).drop ((remembered sp.entered).length - 20) := by
  have hagrees := shell_agrees (fun _ _ => 0) fn name ops False (fun h => h.elim) (fun h => h.elim) hturns hcmds hword
  rw [hmodel] at hagrees
  obtain ⟨s,hrun,h⟩ := hagrees
  have hstart : Keeping (Spec.start (registered name ops)) := rfl
  exact ⟨s,hrun,h.refines.historyLines.trans (hstart.run hmodel)⟩

theorem shell_history_repeated : ∃ s,shell 100 (fun _ _ _ => []) sampleName [] (typing "a\n\na\nb\n") = some s ∧
    historyLines s = [cstring "a",cstring "b"] :=
  shell_history (fun _ _ _ => []) sampleName [] (typing "a\n\na\nb\n") 100 _ (by decide) (by decide) (by decide) rfl

/-! ## The shell that never ends -/

end X1.Shell
