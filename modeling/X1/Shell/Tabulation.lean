import X1.Shell.Complete
import X1.Shell.Follow
import X1.Shell.Spec

/-! # The tabulation

`shell_process_tabulation` replaces the beginning of the first word, up to the cursor, with
what the commands that match it have in common. When the cursor is before the first word,
the size it computes wraps around: no command but one of that very name matches, and then
the loop that is to go back to the word never ends.
-/
namespace X1.Shell
open X1.Word X1.CString X1.Loop X1.Fmt X1.Display

namespace Editor
variable {e : Editor}

theorem word_le (e : Editor) : e.word ≤ e.text.length := (List.takeWhile_prefix _).length_le

theorem fill_self : e.fill e.cursor [] = e := by
  simp [fill]

theorem backspace_fill {k : ℕ} (hk : k < e.cursor) (hcursor : e.cursor ≤ e.text.length) :
    (e.fill (k + 1) []).backspace = e.fill k [] := by
  have hlen : (e.text.take (k + 1)).length = k + 1 := by
    rw [List.length_take]
    omega
  simp only [fill,backspace,List.append_nil,List.length_nil,Nat.add_zero,Nat.add_sub_cancel]
  rw [if_neg (by omega),List.take_append_of_le_length (by omega),List.take_take,Nat.min_eq_left (by omega),
    List.drop_append,List.drop_eq_nil_of_le (by omega : (e.text.take (k + 1)).length ≤ k + 1),hlen,Nat.sub_self,
    List.nil_append,List.drop_zero]

theorem insert_fill {start : ℕ} {name : List UInt8} {c : UInt8} (hstart : start ≤ e.text.length) :
    (e.fill start name).insert c = e.fill start (name ++ [c]) := by
  have hlen : (e.text.take start ++ name).length = start + name.length := by
    rw [List.length_append,List.length_take]
    omega
  simp only [fill,insert,← hlen,List.take_left,List.drop_left]
  simp [hlen,Nat.add_assoc]

theorem length_fill {start : ℕ} {name : List UInt8} (hstart : start ≤ e.text.length) :
    (e.fill start name).text.length = start + name.length + (e.text.length - e.cursor) := by
  simp [fill]
  omega

end Editor

namespace Refines
variable {guard : ℕ → Bytes} {s : State} {e : Editor} {turns start : ℕ}

theorem eraseWord (h : Refines guard s e) (hstart : start ≤ e.cursor) (hturns : 64 ≤ turns) :
    ∃ s',whileLoop (fun s : State => s.cursor ≠ start) shellProcessBackspace turns s = some s' ∧
      Follows guard s e s' (e.fill start []) := by
  have hcursor := h.valid.cursor
  have hroom := h.valid.text.1
  obtain ⟨s',hrun,hs',-⟩ := whileLoop_counted (s := s) (fun s : State => s.cursor ≠ start) shellProcessBackspace
    (fun n s' => Follows guard s e s' (e.fill (start + n) []) ∧ start + n ≤ e.cursor)
    (fun n s' ⟨h',hn⟩ => by
      have hc : s'.cursor = start + (n + 1) := h'.refines.cursor
      refine ⟨by simp [hc],?_,by omega⟩
      have hback := h'.trans h'.refines.backspace
      rwa [← Nat.add_assoc,Editor.backspace_fill (by omega) hcursor] at hback)
    (fun s' ⟨h',_⟩ => by
      have hc : s'.cursor = start := h'.refines.cursor
      simp [hc])
    (n := e.cursor - start)
    ⟨by rw [Nat.add_sub_cancel' hstart,Editor.fill_self]; exact .refl h,by omega⟩ (by omega : e.cursor - start < turns)
  exact ⟨s',hrun,hs'⟩

theorem insertName_eq {done : List UInt8} (name : List UInt8) (h : Refines guard s (e.fill start done))
    (hstart : start ≤ e.text.length)
    (hname : ∀ c ∈ name,isPrint c = true) :
    if start + (done ++ name).length + (e.text.length - e.cursor) < SHELL_LINE_MAX_SIZE then
      ∃ s',insertName name s = (none,s') ∧ Follows guard s (e.fill start done) s' (e.fill start (done ++ name))
    else ∃ s' new,Follows guard s (e.fill start done) s' (e.fill start new) ∧
      insertName name s = (some .nomem,s'.printf "\nshell: line too long\n" []) := by
  induction name generalizing s done with
  | nil =>
    have hroom := h.valid.text.1
    rw [Editor.length_fill hstart] at hroom
    rw [List.append_nil,if_pos (show _ < SHELL_LINE_MAX_SIZE from hroom)]
    exact ⟨s,rfl,.refl h⟩
  | cons c name ih =>
    have hc := hname c (by simp)
    have hlen : (e.fill start done).text.length = start + done.length + (e.text.length - e.cursor) :=
      Editor.length_fill hstart
    have hroom := h.valid.text.1
    have hmax : SHELL_LINE_MAX_SIZE = 64 := rfl
    by_cases hfull : (e.fill start done).text.length + 1 = SHELL_LINE_MAX_SIZE
    · rw [if_neg (by simp; omega)]
      refine ⟨s,_,.refl h,?_⟩
      rw [insertName,h.rawChar_full hc hfull]
    · obtain ⟨s₁,hrun,hs₁⟩ := h.rawChar hc (by omega)
      rw [Editor.insert_fill hstart] at hs₁
      have hrest := ih hs₁.refines fun d hd => hname d (by simp [hd])
      rw [List.append_assoc,List.singleton_append] at hrest
      rw [insertName,hrun]
      dsimp only
      split_ifs at hrest ⊢ with hfits
      · obtain ⟨s',hrun',hs'⟩ := hrest
        exact ⟨s',hrun',hs₁.trans hs'⟩
      · obtain ⟨s',new,hs',hrun'⟩ := hrest
        exact ⟨s',new,hs₁.trans hs',hrun'⟩

end Refines

/-! ## The list of the matches -/

/-- What a `printf` writes is plain, and it has no fault under a condition. -/
structure PrintsPlain (short : Prop) (out : Except Fault (List UInt8)) : Prop where
  plain : ∀ cs,out = .ok cs → Plain cs
  ok : short → ∃ cs,out = .ok cs

section
variable {short short' : Prop} {out : Except Fault (List UInt8)} {outs : List (Except Fault (List UInt8))}
  {text : List UInt8}

theorem PrintsPlain.mono (h : PrintsPlain short out) (hshort : short' → short) : PrintsPlain short' out :=
  ⟨h.plain,fun hs => h.ok (hshort hs)⟩

theorem PrintsPlain.of_ok {cs : List UInt8} (h : out = .ok cs) (hcs : Plain cs) : PrintsPlain short out where
  plain ds hds := by
    rw [h] at hds
    cases hds
    exact hcs
  ok _ := ⟨cs,h⟩

/-- The texts are printed one after the other, but for those that are faults. -/
theorem emitAll_plain (s : State) (h : ∀ out ∈ outs,PrintsPlain short out) :
    ∃ cs fault,s.emitAll outs = { s with out := s.out ++ cs, fault := fault } ∧ Plain cs ∧
      (short → fault = s.fault) := by
  induction outs generalizing s with
  | nil => exact ⟨[],s.fault,by simp [State.emitAll],by decide,fun _ => rfl⟩
  | cons out outs ih =>
    have hout := h out (by simp)
    obtain ⟨cs,fault,hrest,hcs,hfault⟩ := ih (s.emit out) fun out hout => h out (by simp [hout])
    rw [State.emitAll,List.foldl_cons]
    rw [State.emitAll] at hrest
    rw [hrest]
    cases hemit : out with
    | ok ds =>
      subst hemit
      exact ⟨ds ++ cs,fault,by simp [State.emit,State.print],(hout.plain ds rfl).append hcs,hfault⟩
    | error e =>
      subst hemit
      refine ⟨cs,fault,rfl,hcs,fun hs => ?_⟩
      obtain ⟨ds,hds⟩ := hout.ok hs
      cases hds

theorem field_plain_of {d : Directive} (htext : ∀ c ∈ text,isPrint c = true) : Plain (field d text) := by
  have hspaces : Plain (List.replicate (d.width - text.length).toNat ' '.toUInt8) := fun c hc => by
    rw [List.eq_of_mem_replicate hc]
    decide
  have hword : Plain text := fun c hc => .inl (htext c hc)
  unfold field
  dsimp only
  split_ifs
  · exact hword.append hspaces
  · exact hspaces.append hword

theorem length_field_le (d : Directive) (text : List UInt8) : (field d text).length ≤ d.width.toNat + text.length := by
  unfold field
  dsimp only
  split_ifs <;> simp only [List.length_append,List.length_replicate] <;> omega

theorem printsPlain_str {format : String} {a b : List UInt8} {d : Directive} (spec : List UInt8)
    (hformat : cstring format = a ++ '%'.toUInt8 :: spec ++ b)
    (hspec : ∀ s args,consumeDirective (spec ++ s) args = .ok (d,args,s)) (hstr : d.specifier = .str)
    (hprecision : d.precision = -1) (ha : Literal a) (hb : Literal b) (hpa : Plain a) (hpb : Plain b)
    (htext : ∀ c ∈ text,isPrint c = true) :
    PrintsPlain (a.length + (d.width.toNat + text.length) + b.length < 2 ^ 31) (printf format [strArg text]) := by
  have hzero : 0 ∉ text := fun hzero => absurd (htext 0 hzero) (by decide)
  have hfield := length_field_le d text
  have hall : Plain (a ++ field d text ++ b) := (hpa.append (field_plain_of htext)).append hpb
  have h := formatText_str spec [] ha hb hzero hspec hstr hprecision
  rw [← hformat] at h
  unfold printf consoleText strArg
  rw [h]
  by_cases hlen : text.length < 2 ^ 31
  · rw [checkLength_of_lt hlen]
    simp only [ok_bind]
    by_cases hfits : (a ++ field d text ++ b).length < 2 ^ 31
    · rw [checkLength_of_lt hfits,ok_bind]
      exact .of_ok rfl fun c hc => hall c (List.mem_of_mem_take ((List.takeWhile_sublist _).subset hc))
    · rw [checkLength_of_not_lt hfits]
      refine ⟨fun cs hcs => (by cases hcs),fun hshort => absurd ?_ hfits⟩
      simp only [List.length_append]
      omega
  · rw [checkLength_of_not_lt hlen]
    exact ⟨fun cs hcs => (by cases hcs),fun hshort => absurd (by omega : text.length < 2 ^ 31) hlen⟩

theorem isPrint_of_checkChar {c : UInt8} (h : shellCmdCheckChar c = true) : isPrint c = true := by
  simp only [shellCmdCheckChar,isPrint,Bool.or_eq_true,Bool.and_eq_true,decide_eq_true_eq,UInt8.le_iff_toNat_le,
    ← UInt8.toNat_inj] at h ⊢
  have hchars : 'a'.toUInt8.toNat = 97 ∧ 'z'.toUInt8.toNat = 122 ∧ 'A'.toUInt8.toNat = 65 ∧ 'Z'.toUInt8.toNat = 90 ∧
      '0'.toUInt8.toNat = 48 ∧ '9'.toUInt8.toNat = 57 ∧ '-'.toUInt8.toNat = 45 ∧ '_'.toUInt8.toNat = 95 := by decide
  have hbounds : (0x20 : UInt8).toNat = 32 ∧ (0x7e : UInt8).toNat = 126 := by decide
  omega

theorem isPrint_of_check {name : List UInt8} (h : shellCmdCheck name = true) : ∀ c ∈ name,isPrint c = true := by
  intro c hc
  simp only [shellCmdCheck,Bool.and_eq_true,List.all_eq_true] at h
  exact isPrint_of_checkChar (h.1 c hc)

theorem printf_newline : printf "\n" [] = .ok [0x0a] := by decide

theorem newline_plain : Plain [0x0a] := by decide

theorem printf_match_plain {name : List UInt8} (h : shellCmdCheck name = true) :
    PrintsPlain (name.length + 64 < 2 ^ 31) (printf "%-16s" [strArg name]) :=
  (printsPlain_str (a := []) (b := []) (d := { flags := { leftJustify := true }, width := 16, specifier := .str })
    (cstring "-16s") (by decide) (fun s args => rfl) rfl rfl (by decide) (by decide) (by decide) (by decide)
    (isPrint_of_check h)).mono fun hlen => by
      simp only [List.length_nil]
      omega

theorem printMatchesLoop_plain {sh : Registry} {size turns : ℕ} {p : Option ℕ} {l : List ℕ} (cmd i : ℕ)
    (hpath : Chain.Path sh.lsNext p l) (hvalid : ∀ c ∈ l,shellCmdCheck (sh.name c) = true) (hturns : l.length < turns) :
    ∃ outs,printMatchesLoop sh cmd size turns p i = some outs ∧ ∀ out ∈ outs,PrintsPlain (ShortNames sh.name) out := by
  have hnewline : ∀ (p : Prop) [Decidable p],∀ out ∈ if p then [printf "\n" []] else [],
      PrintsPlain (ShortNames sh.name) out := by
    intro p _ out hout
    split_ifs at hout
    · rw [List.mem_singleton.mp hout]
      exact .of_ok printf_newline newline_plain
    · cases hout
  induction l generalizing p turns i with
  | nil =>
    obtain ⟨turns,rfl⟩ := Nat.exists_eq_succ_of_ne_zero (Nat.ne_of_gt hturns)
    rw [show p = none from hpath,printMatchesLoop]
    exact ⟨_,rfl,hnewline _⟩
  | cons tmp l ih =>
    obtain ⟨turns,rfl⟩ := Nat.exists_eq_succ_of_ne_zero (Nat.ne_of_gt (Nat.zero_lt_of_lt hturns))
    obtain ⟨outs,hrun,houts⟩ := ih (i + 1) hpath.2 (fun c hc => hvalid c (by simp [hc])) (by simpa using hturns)
    rw [hpath.1,printMatchesLoop,hrun]
    by_cases hother : strncmp (sh.name cmd) (sh.name tmp) size ≠ 0
    · rw [if_pos hother]
      exact ⟨_,rfl,hnewline _⟩
    · rw [if_neg hother]
      refine ⟨_,rfl,fun out hout => ?_⟩
      rcases List.mem_append.mp hout with hout | hout
      · rcases List.mem_cons.mp hout with rfl | hout
        · exact (printf_match_plain (hvalid tmp (by simp))).mono fun hshort => hshort tmp
        · exact hnewline _ out hout
      · exact houts out hout

theorem printMatches_plain {sh : Registry} {cmds : List ℕ} {cmd turns : ℕ} (h : Represents sh cmds) (size : ℕ)
    (hcmd : cmd ∈ cmds) (hturns : cmds.length < turns) :
    ∃ outs,shellCmdPrintMatches turns sh cmd size = some (printf "\n" [] :: outs) ∧
      ∀ out ∈ outs,PrintsPlain (ShortNames sh.name) out := by
  obtain ⟨l₁,l₂,rfl⟩ := List.append_of_mem hcmd
  have hpath : Chain.Path sh.lsNext (some cmd) (cmd :: l₂) := ⟨rfl,h.list.of_append⟩
  obtain ⟨outs,hrun,houts⟩ := printMatchesLoop_plain cmd 1 hpath
    (fun c hc => h.valid c (List.mem_append_right _ hc)) (by simp at hturns ⊢; omega : _ < turns)
  refine ⟨outs,?_,houts⟩
  rw [shellCmdPrintMatches,hrun]
  rfl

end

/-! ## The tabulation -/

theorem prompt_printable : ∀ c ∈ prompt,isPrint c = true := by decide

theorem prompt_plain : Plain prompt := fun c hc => .inl (prompt_printable c hc)

/-- What the word is replaced with. -/
def Completion.fill (sh : Registry) : Completion → Option (List UInt8)
  | .inval => none
  | .single cmd size => some ((sh.name cmd).take size)
  | .again cmd size => some ((sh.name cmd).take size)

/-- The command of a completion. -/
def Completion.cmd : Completion → Option ℕ
  | .inval => none
  | .single cmd _ => some cmd
  | .again cmd _ => some cmd

theorem Represents.complete_mem {sh : Registry} {cmds : List ℕ} {turns : ℕ} {str : List UInt8} (h : Represents sh cmds)
    (size : ℕ) (hturns : cmds.length < turns) (hstr : 0 ∉ str) :
    ∃ r,shellCmdComplete turns sh str size = some r ∧ ∀ cmd,r.cmd = some cmd → cmd ∈ cmds := by
  obtain ⟨r,hrun,hr⟩ := h.complete size hturns hstr
  refine ⟨r,hrun,fun cmd hcmd => ?_⟩
  have hsub : ∀ c ∈ matching sh cmds str size,c ∈ cmds := fun c hc => List.mem_of_mem_filter hc
  cases hmatch : matching sh cmds str size with
  | nil =>
    rw [hmatch] at hr
    subst hr
    cases hcmd
  | cons c l =>
    rw [hmatch] at hr hsub
    have hc : r.cmd = some c := by
      cases l with
      | nil =>
        subst hr
        rfl
      | cons d l =>
        obtain ⟨n,rfl,-⟩ := hr
        rfl
    obtain rfl : c = cmd := Option.some.inj (hc.symm.trans hcmd)
    exact hsub c (by simp)

namespace Refines
variable {guard : ℕ → Bytes} {s : State} {e : Editor} {cmds : List ℕ} {turns cmd : ℕ}

theorem listMatches (h : Refines guard s e) (hrep : Represents s.registry cmds) (size : ℕ) (hcmd : cmd ∈ cmds)
    (hturns : 64 ≤ turns) (hcmds : cmds.length < turns) :
    ∃ outs s',shellCmdPrintMatches turns s.registry cmd size = some outs ∧
      whileLoop (fun s : State => s.cursor ≠ e.cursor) shellProcessLeft turns
        (shellRestore (shellPrompt (s.emitAll outs))) = some s' ∧ Follows guard s e s' e := by
  obtain ⟨outs,hprint,houts⟩ := printMatches_plain hrep size hcmd hcmds
  have hfirst : Follows guard s e (shellRestore (shellPrompt (s.emitAll (printf "\n" [] :: outs)))) e.toEnd := by
    obtain ⟨out,fault,hemit,hout,hfault⟩ := emitAll_plain (s.print [0x0a]) houts
    have hstart : s.emitAll (printf "\n" [] :: outs) = { s.print (0x0a :: out) with fault := fault } := by
      rw [printf_newline,State.emitAll,List.foldl_cons]
      rw [State.emitAll] at hemit
      exact hemit.trans (by simp [State.print])
    have hline : (shellHistoryGetNewest ({ s.print (0x0a :: out) with fault := fault }.print prompt)).Holds _ _ := h.line
    rw [hstart,shellPrompt_eq,restore_eq hline]
    refine ⟨(h.move (Nat.le_refl _)).congr rfl rfl rfl rfl rfl,rfl,rfl,rfl,rfl,rfl,hfault,
      (0x0a :: out) ++ prompt ++ e.text,?_,?_,?_⟩
    · simp [State.print]
    · exact ((newline_plain.append hout).append prompt_plain).complete.append (typed_complete h.valid.text.2)
    · rintro t ⟨pre,ht⟩
      have hend : AtEnd (t.feed (0x0a :: out)) := atEnd_newline ht.calm hout
      have hprompt := hend.showing prompt_printable
      have htext := hprompt.print e.text (Nat.le_refl _) h.valid.text.2
      refine ⟨(t.feed (0x0a :: out)).row,?_⟩
      rw [feed_append,feed_append]
      simpa [Editor.toEnd] using htext
  obtain ⟨s',hrun,hs'⟩ := hfirst.refines.leftTo (k := e.cursor) h.valid.cursor hturns
  exact ⟨_,s',hprint,hrun,hfirst.trans hs'⟩

theorem replaceWord_eq {start : ℕ} (h : Refines guard s e) (cmd size : ℕ) (hstart : start ≤ e.cursor)
    (hturns : 64 ≤ turns)
    (hname : ∀ c ∈ s.registry.name cmd,isPrint c = true) :
    if start + ((s.registry.name cmd).take size).length + (e.text.length - e.cursor) < SHELL_LINE_MAX_SIZE then
      ∃ s',replaceWord turns s cmd size start = some (none,s') ∧
        Follows guard s e s' (e.fill start ((s.registry.name cmd).take size))
    else ∃ s' new,Follows guard s e s' (e.fill start new) ∧
      replaceWord turns s cmd size start = some (some .nomem,s'.printf "\nshell: line too long\n" []) := by
  have hcursor := h.valid.cursor
  obtain ⟨s₁,hrun,hs₁⟩ := h.eraseWord hstart hturns
  have hinsert := insertName_eq ((s.registry.name cmd).take size) hs₁.refines (by omega)
    fun c hc => hname c (List.mem_of_mem_take hc)
  rw [List.nil_append] at hinsert
  unfold replaceWord
  rw [hrun]
  simp only [bind,Option.bind,hs₁.registry]
  split_ifs at hinsert ⊢ with hfits
  · obtain ⟨s',hname',hs'⟩ := hinsert
    exact ⟨s',by rw [hname']; rfl,hs₁.trans hs'⟩
  · obtain ⟨s',new,hs',hname'⟩ := hinsert
    exact ⟨s',new,hs₁.trans hs',by rw [hname']; rfl⟩

/-- The place to go back to is the first word, whatever the size has become. -/
theorem tabulation_eq {r : Completion} (h : Refines guard s e)
    (hrun : shellCmdComplete turns s.registry (e.text.drop e.word) (sub e.cursor e.word) = some r) :
    shellProcessTabulation turns s =
      match r with
      | .inval => some (none,s)
      | .single cmd size => replaceWord turns s cmd size e.word
      | .again cmd size => (shellCmdPrintMatches turns s.registry cmd size).bind fun outs =>
        (whileLoop (fun s : State => s.cursor ≠ e.cursor) shellProcessLeft turns
          (shellRestore (shellPrompt (s.emitAll outs)))).bind fun s => replaceWord turns s cmd size e.word := by
  have hcursor := h.valid.cursor
  have hroom := h.valid.text.1
  have hle := e.word_le
  have hback : sub e.cursor (sub e.cursor e.word) = e.word := by
    unfold sub
    omega
  have hfind : shellFindWord e.text = e.word := rfl
  unfold shellProcessTabulation
  simp only [h.line.str_eq,h.cursor,hfind,hback,bind,Option.bind,hrun]
  cases r <;> rfl

/-- Where the cursor is in the first word or after it, the word is replaced with its completion. -/
theorem tabulation (h : Refines guard s e) (hrep : Represents s.registry cmds) (hturns : 64 ≤ turns)
    (hcmds : cmds.length < turns) (hword : e.word ≤ e.cursor) :
    ∃ r,shellCmdComplete turns s.registry (e.text.drop e.word) (e.cursor - e.word) = some r ∧
      match r.fill s.registry with
      | none => shellProcessTabulation turns s = some (none,s)
      | some name =>
        if e.word + name.length + (e.text.length - e.cursor) < SHELL_LINE_MAX_SIZE then
          ∃ s',shellProcessTabulation turns s = some (none,s') ∧ Follows guard s e s' (e.fill e.word name)
        else ∃ s' new,Follows guard s e s' (e.fill e.word new) ∧
          shellProcessTabulation turns s = some (some .nomem,s'.printf "\nshell: line too long\n" []) := by
  have hcursor := h.valid.cursor
  have hroom := h.valid.text.1
  have hsize : sub e.cursor e.word = e.cursor - e.word := sub_of_le hword (by omega)
  have hstr : 0 ∉ e.text.drop e.word := fun hzero => h.valid.text.zero_not_mem (List.mem_of_mem_drop hzero)
  obtain ⟨r,hrun,hmem⟩ := hrep.complete_mem (e.cursor - e.word) hcmds hstr
  refine ⟨r,hrun,?_⟩
  rw [h.tabulation_eq (hsize ▸ hrun)]
  cases r with
  | inval => rfl
  | single cmd size =>
    have hcmd : cmd ∈ cmds := hmem cmd (by simp [Completion.cmd])
    exact h.replaceWord_eq cmd size hword hturns (isPrint_of_check (hrep.valid cmd hcmd))
  | again cmd size =>
    have hcmd : cmd ∈ cmds := hmem cmd (by simp [Completion.cmd])
    obtain ⟨out,s₁,hprint,hleft,hs₁⟩ := h.listMatches hrep size hcmd hturns hcmds
    have hreplace := hs₁.refines.replaceWord_eq cmd size hword hturns
      (by rw [hs₁.registry]; exact isPrint_of_check (hrep.valid cmd hcmd))
    rw [hs₁.registry] at hreplace
    simp only [Completion.fill,hprint,Option.bind_some,hleft]
    split_ifs at hreplace ⊢ with hfits
    · obtain ⟨s',hrun',hs'⟩ := hreplace
      exact ⟨s',hrun',hs₁.trans hs'⟩
    · obtain ⟨s',new,hs',hrun'⟩ := hreplace
      exact ⟨s',new,hs₁.trans hs',hrun'⟩

/-- The size that wraps around is more than any word has. -/
theorem take_wrapped {name : List UInt8} (h : Refines guard s e) (hcursor : e.cursor < e.word) :
    name.take (sub e.cursor e.word) = (e.text.drop e.word).take (sub e.cursor e.word) ↔ name = e.text.drop e.word := by
  have hroom := h.valid.text.1
  have hle := e.word_le
  have hlong : 64 ≤ sub e.cursor e.word := by
    unfold sub
    omega
  have hshort : (e.text.drop e.word).length ≤ sub e.cursor e.word := by
    rw [List.length_drop]
    omega
  rw [List.take_of_length_le hshort]
  constructor
  · intro htake
    have hlen := congrArg List.length htake
    rw [List.length_take,List.length_drop] at hlen
    rwa [List.take_of_length_le (by omega)] at htake
  · rintro rfl
    exact List.take_of_length_le hshort

/-- Where the cursor is before the first word and the line is the name of a command from there on, the loop
never ends. -/
theorem tabulation_hangs (h : Refines guard s e) (hrep : Represents s.registry cmds) (hcmds : cmds.length < turns)
    (hcursor : e.cursor < e.word) (hcmd : cmd ∈ cmds) (hname : s.registry.name cmd = e.text.drop e.word) :
    shellProcessTabulation turns s = none := by
  have hstr : 0 ∉ e.text.drop e.word := fun hzero => h.valid.text.zero_not_mem (List.mem_of_mem_drop hzero)
  obtain ⟨r,hrun,hr⟩ := hrep.complete (sub e.cursor e.word) hcmds hstr
  have hmatch : matching s.registry cmds (e.text.drop e.word) (sub e.cursor e.word) = [cmd] := by
    have hiff : ∀ c ∈ cmds,decide ((s.registry.name c).take (sub e.cursor e.word) =
        (e.text.drop e.word).take (sub e.cursor e.word)) = (c == cmd) := by
      intro c hc
      rw [Bool.eq_iff_iff,decide_eq_true_iff,beq_iff_eq,h.take_wrapped hcursor,← hname]
      exact ⟨hrep.name_injective hc hcmd,congrArg _⟩
    rw [matching,List.filter_congr hiff,List.filter_beq,List.count_eq_one_of_mem hrep.list.nodup hcmd]
    rfl
  rw [hmatch] at hr
  subst hr
  rw [h.tabulation_eq hrun]
  dsimp only
  have hloop := whileLoop_forever (fun s : State => s.cursor ≠ e.word) shellProcessBackspace
    (fun s' => ∃ e',Follows guard s e s' e' ∧ e'.cursor < e.word)
    (fun s' ⟨e',h',hlt⟩ => by
      have hc : s'.cursor = e'.cursor := h'.refines.cursor
      refine ⟨by simp [hc]; omega,_,h'.trans h'.refines.backspace,?_⟩
      unfold Editor.backspace
      split_ifs
      · exact hlt
      · exact Nat.lt_of_le_of_lt (Nat.sub_le _ _) hlt)
    ⟨e,.refl h,hcursor⟩ turns
  rw [replaceWord,hloop]
  rfl

/-- Where the cursor is before the first word, and the line is no name of a command from there on, nothing happens. -/
theorem tabulation_before (h : Refines guard s e) (hrep : Represents s.registry cmds) (hcmds : cmds.length < turns)
    (hcursor : e.cursor < e.word) (hname : ∀ c ∈ cmds,s.registry.name c ≠ e.text.drop e.word) :
    shellProcessTabulation turns s = some (none,s) := by
  have hstr : 0 ∉ e.text.drop e.word := fun hzero => h.valid.text.zero_not_mem (List.mem_of_mem_drop hzero)
  obtain ⟨r,hrun,hr⟩ := hrep.complete (sub e.cursor e.word) hcmds hstr
  have hmatch : matching s.registry cmds (e.text.drop e.word) (sub e.cursor e.word) = [] := by
    rw [matching,List.filter_eq_nil_iff]
    intro c hc htake
    exact hname c hc ((h.take_wrapped hcursor).mp (of_decide_eq_true htake))
  rw [hmatch] at hr
  subst hr
  rw [h.tabulation_eq hrun]

end Refines

end X1.Shell
