import X1.Shell.Tabulation

/-! # The runs of the shell

The shell of lib/shell.c does what the shell without arrays, links and loops does, character
after character, whatever other threads register and print in between: it never reads another
character when that one does not, and otherwise the two agree, and the terminal shows the line.
-/
namespace X1.Shell
open X1.Word X1.CString X1.Fmt X1.Display X1.CommonPrefix

/-- The terminal, from an empty row on. -/
def screen (out : List UInt8) : Terminal := ({ row := [], column := 0, pending := [] } : Terminal).feed out

/-- `plain` is that the other texts on the terminal are plain. -/
structure Rel (guard : ℕ → Bytes) (name : ℕ → List UInt8) (plain : Prop) (s : State) (sp : Spec) : Prop where
  refines : Refines guard s sp.editor
  fault : ShortNames name → s.fault = none
  name : s.registry.name = name
  cmds : ∃ cmds,Represents s.registry cmds ∧ ∀ c,c ∈ cmds ↔ c ∈ sp.cmds
  escape : s.escape = sp.escape
  seq : s.seq = sp.seq
  ran : s.ran = sp.ran
  newest : s.newest ≤ sp.entered.length
  calm : plain → Calm (screen s.out)
  shows : plain → sp.clean = true → Shows sp.editor (screen s.out)

theorem print_nil (s : State) : s.print [] = s := by simp [State.print]

theorem restart_eq (s : State) :
    restart s = { (s.setNewest (shellLineReset (shellHistoryGetNewest s))).print prompt with
      cursor := 0, escape := .none } := by
  rw [restart,shellReset,shellPrompt_eq]
  rfl

theorem restart_fault (s : State) : (restart s).fault = s.fault := by rw [restart_eq]; rfl

theorem screen_append (cs ds : List UInt8) : screen (cs ++ ds) = (screen cs).feed ds := feed_append _ cs ds

section
variable {guard : ℕ → Bytes} {name : ℕ → List UInt8} {plain : Prop} {s s' : State} {sp : Spec} {e : Editor}
  {c : UInt8} {turns : ℕ}

/-! ## A new prompt -/

theorem shows_prompt {t : Terminal} (ht : AtEnd t) (htext : e.text = []) (hcursor : e.cursor = 0) :
    Shows e (t.feed prompt) := by
  refine ⟨t.row,?_⟩
  rw [htext,hcursor]
  exact ht.showing prompt_printable

/-- After a new line and plain text, the prompt shows an empty line. -/
theorem shows_restart {cs : List UInt8} (s' : State) (e : Editor) (hcalm : Calm (screen s.out))
    (hout : s'.out = s.out ++ 0x0a :: cs) (hcs : Plain cs)
    (htext : e.text = []) (hcursor : e.cursor = 0) :
    Calm (screen (restart s').out) ∧ Shows e (screen (restart s').out) := by
  have hend : AtEnd (screen s'.out) := by
    rw [hout,screen_append]
    exact atEnd_newline hcalm hcs
  have hprompt : (restart s').out = s'.out ++ prompt := by
    rw [restart_eq]
    rfl
  rw [hprompt,screen_append]
  exact ⟨prompt_plain.complete _ hend.1,shows_prompt hend htext hcursor⟩

theorem tooLong_eq : ∃ cs,(∀ s : State,s.printf "\nshell: line too long\n" [] = s.print (0x0a :: cs)) ∧ Plain cs :=
  ⟨cstring "shell: line too long\n",fun s => s.printf_eq (by decide),by decide⟩

namespace Rel

theorem follow (h : Rel guard name plain s sp) (hf : Follows guard s sp.editor s' e) :
    Rel guard name plain s' { sp with editor := e } where
  refines := hf.refines
  fault hshort := (hf.fault (by rw [h.name]; exact hshort)).trans (h.fault hshort)
  name := by rw [hf.registry]; exact h.name
  cmds := by rw [hf.registry]; exact h.cmds
  escape := hf.escape.trans h.escape
  seq := hf.seq.trans h.seq
  ran := hf.ran.trans h.ran
  newest := by rw [hf.newest]; exact h.newest
  calm hplain := by
    obtain ⟨cs,hcs,hedits⟩ := hf.edits
    rw [hcs,screen_append]
    exact hedits.complete _ (h.calm hplain)
  shows hplain hclean := by
    obtain ⟨cs,hcs,hedits⟩ := hf.edits
    rw [hcs,screen_append]
    exact hedits.shows _ (h.shows hplain hclean)

theorem disturbed {cs : List UInt8} (h : Rel guard name plain s sp) (hcs : plain → Complete cs) :
    Rel guard name plain (s.print cs) { sp with clean := false } :=
  ⟨h.refines.print cs,h.fault,h.name,h.cmds,h.escape,h.seq,h.ran,h.newest,
    fun hplain => by rw [State.print,screen_append]; exact hcs hplain _ (h.calm hplain),fun _ hclean => by cases hclean⟩

theorem faulted {fault : Option Fault} (h : Rel guard name plain s sp) (hfault : ShortNames name → fault = s.fault) :
    Rel guard name plain { s with fault := fault } sp :=
  ⟨h.refines.congr rfl rfl rfl rfl rfl,fun hshort => (hfault hshort).trans (h.fault hshort),h.name,h.cmds,h.escape,
    h.seq,h.ran,h.newest,h.calm,h.shows⟩

theorem escaped (h : Rel guard name plain s sp) (escape : Escape) (seq : List UInt8) :
    Rel guard name plain { s with escape := escape, seq := seq } { sp with escape := escape, seq := seq } :=
  ⟨h.refines.congr rfl rfl rfl rfl rfl,h.fault,h.name,h.cmds,rfl,rfl,h.ran,h.newest,h.calm,h.shows⟩

theorem giveUp (h : Rel guard name plain s sp) (hescape : sp.escape = .none) (hf : Follows guard s sp.editor s' e)
    (he : e.reset = sp.editor.reset) :
    Rel guard name plain (restart (s'.printf "\nshell: line too long\n" [])) sp.giveUp := by
  obtain ⟨msg,hmsg,hplain⟩ := tooLong_eq
  rw [hmsg]
  have hcalm := (h.follow hf).calm
  have hscreen (hp : plain) := shows_restart (s'.print (0x0a :: msg)) sp.giveUp.editor (hcalm hp) rfl hplain rfl rfl
  have hreset := (hf.refines.print (0x0a :: msg)).reset
  rw [he] at hreset
  exact ⟨hreset.congr rfl rfl rfl rfl rfl,fun hshort => (restart_fault _).trans ((h.follow hf).fault hshort),
    (h.follow hf).name,(h.follow hf).cmds,hescape.symm,(h.follow hf).seq,(h.follow hf).ran,(h.follow hf).newest,
    fun hp => (hscreen hp).1,fun hp _ => (hscreen hp).2⟩

/-! ## Characters -/

theorem isPrint_iff (c : UInt8) : isPrint c = true ↔ shellIsCtrlChar c = false := by
  rw [shellIsCtrlChar,signed_eq]
  have hlt := c.toNat_lt
  simp only [isPrint,Bool.and_eq_true,decide_eq_true_eq,UInt8.le_iff_toNat_le,Bool.or_eq_false_iff,decide_eq_false_iff_not]
  have hbounds : (0x20 : UInt8).toNat = 32 ∧ (0x7e : UInt8).toNat = 126 := by decide
  split_ifs <;> omega

theorem rawChar (h : Rel guard name plain s sp) (hescape : sp.escape = .none) (hc : isPrint c = true) :
    Rel guard name plain (if (shellProcessRawChar s c).1.isSome then restart (shellProcessRawChar s c).2
      else (shellProcessRawChar s c).2)
      (if sp.editor.text.length + 1 < 64 then { sp with editor := sp.editor.insert c } else sp.giveUp) := by
  have hroom := h.refines.valid.text.1
  by_cases hfits : sp.editor.text.length + 1 < 64
  · obtain ⟨s',hrun,hs'⟩ := h.refines.rawChar hc hfits
    rw [hrun,if_pos hfits]
    exact h.follow hs'
  · have hfull : sp.editor.text.length + 1 = SHELL_LINE_MAX_SIZE := by
      unfold SHELL_LINE_MAX_SIZE
      omega
    rw [h.refines.rawChar_full hc hfull,if_neg hfits]
    exact h.giveUp hescape (.refl h.refines) rfl

end Rel

/-! ## Keys -/

/-- What a key does. -/
def action (turns : ℕ) : Key → State → Option State
  | .up => shellProcessUp turns
  | .down => shellProcessDown turns
  | .right => fun s => some (shellProcessRight s).2
  | .left => fun s => some (shellProcessLeft s)
  | .home => shellEscSeqHome turns
  | .delete => fun s => some (shellEscSeqDel s)
  | .toEnd => shellEscSeqEnd turns

theorem lookup_entry {p : Prop} [Decidable p] {entry : String × (State → Option State)}
    {l : Option (String × (State → Option State))} {key : Key} {rest : Option Key} (hentry : entry.2 = action turns key)
    (hrest : l.map (·.2) = rest.map (action turns)) :
    Option.map (·.2) (match decide p with | true => some entry | false => l) =
      Option.map (action turns) (if p then some key else rest) := by
  by_cases hp : p
  · simp [hp,hentry]
  · simpa [hp] using hrest

theorem shellEscSeqLookup_eq {str : List UInt8} (hstr : 0 ∉ str) :
    shellEscSeqLookup turns str = (keyOf str).map (action turns) := by
  have htest {k : String} (hk : 0 ∉ cstring k) : decide (strcmp (cstring k) str = 0) = decide (str = cstring k) := by
    rw [decide_eq_decide,strcmp_eq_zero_iff hk hstr]
    exact eq_comm
  unfold shellEscSeqLookup shellEscSeqs keyOf
  simp only [List.find?_cons,List.find?_nil]
  rw [htest (by decide),htest (by decide),htest (by decide),htest (by decide),htest (by decide),htest (by decide),
    htest (by decide),htest (by decide),htest (by decide)]
  iterate 9 apply lookup_entry rfl
  rfl

theorem Refines.press (h : Refines guard s e) (hturns : 64 ≤ turns) (key : Option Key) :
    ∃ s',((key.map (action turns)).getD some) s = some s' ∧ Follows guard s e s' (e.press key) := by
  cases key with
  | none => exact ⟨s,rfl,.refl h⟩
  | some key =>
    cases key with
    | up => exact h.up hturns
    | down => exact h.down hturns
    | right => exact ⟨_,rfl,h.right⟩
    | left => exact ⟨_,rfl,h.left⟩
    | home => exact h.home hturns
    | delete => exact ⟨_,rfl,h.delete⟩
    | toEnd => exact h.toEnd hturns

/-- The two shells go on alike, or both of them never end. -/
def Agrees (guard : ℕ → Bytes) (name : ℕ → List UInt8) (plain : Prop) (r : Option State) : Option Spec → Prop
  | none => r = none
  | some sp => ∃ s,r = some s ∧ Rel guard name plain s sp

theorem Rel.escSequence (h : Rel guard name plain s sp) (hescape : sp.escape = .csi) (hturns : 64 ≤ turns) (c : UInt8) :
    Agrees guard name plain (shellProcessEscSequence turns s c) (sp.char name c) := by
  unfold shellProcessEscSequence Spec.char
  rw [hescape,h.seq]
  dsimp only
  by_cases hlong : sp.seq.length ≥ 7
  · rw [if_pos hlong,if_pos (show sp.seq.length ≥ SHELL_ESC_SEQ_MAX_SIZE - 1 from hlong)]
    have hplain : Plain (cstring "shell: escape sequence too long\n") := by decide
    have hprint : printf "shell: escape sequence too long\n" [] = .ok (cstring "shell: escape sequence too long\n") :=
      by decide
    rw [State.printf_eq s hprint]
    exact ⟨_,rfl,(h.disturbed fun _ => hplain.complete).escaped .none []⟩
  · rw [if_neg hlong,if_neg (show ¬sp.seq.length ≥ SHELL_ESC_SEQ_MAX_SIZE - 1 from hlong)]
    split_ifs with hfinal
    · have hstr : 0 ∉ stringAt (sp.seq ++ [c]) := fun hzero => by
        have := List.mem_takeWhile_imp hzero
        simp at this
      obtain ⟨s',hrun,hs'⟩ := h.refines.press hturns (keyOf (stringAt (sp.seq ++ [c])))
      rw [shellEscSeqLookup_eq hstr,hrun]
      exact ⟨_,rfl,(h.follow hs').escaped .none []⟩
    · exact ⟨_,rfl,h.escaped .csi _⟩

/-! ## The tabulation -/

section
variable {cmds : List ℕ} {sh : Registry} {str : List UInt8} {size : ℕ}

/-- The names that begin like the string are those of the commands that match. -/
theorem mem_names_iff {known : List ℕ} {n : List UInt8} (hsize : size ≤ str.length) (hknown : ∀ c,c ∈ cmds ↔ c ∈ known) :
    n ∈ (known.map sh.name).filter ((str.take size).isPrefixOf ·) ↔ ∃ c ∈ matching sh cmds str size,sh.name c = n := by
  have hlen : (str.take size).length = size := by
    rw [List.length_take]
    omega
  have hiff {a : List UInt8} : str.take size <+: a ↔ a.take size = str.take size := by
    rw [List.prefix_iff_eq_take,hlen]
    exact eq_comm
  simp only [List.mem_filter,List.mem_map,matching,List.isPrefixOf_iff_prefix,decide_eq_true_eq]
  constructor
  · rintro ⟨⟨c,hc,rfl⟩,hpre⟩
    exact ⟨c,⟨(hknown c).mpr hc,hiff.mp hpre⟩,rfl⟩
  · rintro ⟨c,⟨hc,htake⟩,rfl⟩
    exact ⟨⟨c,(hknown c).mp hc,rfl⟩,hiff.mpr htake⟩

theorem commonAll_names {names : List (List UInt8)} {matches' : List ℕ} {c n : ℕ} (hc : c ∈ matches')
    (hnames : ∀ a,a ∈ names ↔ ∃ d ∈ matches',sh.name d = a) (hcommon : IsCommonLength sh matches' n) :
    commonAll names = (sh.name c).take n := by
  have hall (p : List UInt8) : (∀ a ∈ names,p <+: a) ↔ ∀ d ∈ matches',p <+: sh.name d := by
    constructor
    · intro h d hd
      exact h _ ((hnames _).mpr ⟨d,hd,rfl⟩)
    · intro h a ha
      obtain ⟨d,hd,rfl⟩ := (hnames a).mp ha
      exact h d hd
  obtain ⟨⟨p,hp,hpre⟩,hmax⟩ := hcommon
  refine commonAll_eq_take ((hnames _).mpr ⟨c,hc,rfl⟩) ⟨p,hp,(hall p).mpr hpre⟩ fun q hq => ?_
  exact hmax ⟨q,rfl,(hall q).mp hq⟩

/-- What the word is replaced with is what the names that begin like it have in common. -/
theorem completion_eq {r : Completion} {known : List ℕ} (hrep : Represents sh cmds) (hturns : cmds.length < turns)
    (hstr : 0 ∉ str) (hsize : size ≤ str.length) (hknown : ∀ c,c ∈ cmds ↔ c ∈ known)
    (hrun : shellCmdComplete turns sh str size = some r) :
    Spec.completion sh.name known (str.take size) = r.fill sh := by
  obtain ⟨r',hrun',hr⟩ := hrep.complete size hturns hstr
  obtain rfl : r = r' := Option.some.inj (hrun.symm.trans hrun')
  have hnames (n : List UInt8) : n ∈ (known.map sh.name).filter ((str.take size).isPrefixOf ·) ↔
      ∃ c ∈ matching sh cmds str size,sh.name c = n := mem_names_iff hsize hknown
  unfold Spec.completion
  generalize (known.map sh.name).filter ((str.take size).isPrefixOf ·) = names at hnames
  cases hmatch : matching sh cmds str size with
  | nil =>
    rw [hmatch] at hr hnames
    subst hr
    have hnone : names = [] := by
      rw [List.eq_nil_iff_forall_not_mem]
      intro n hn
      obtain ⟨c,hc,-⟩ := (hnames n).mp hn
      cases hc
    rw [hnone]
    rfl
  | cons c l =>
    rw [hmatch] at hr hnames
    have hsome : ∃ n,r.fill sh = some ((sh.name c).take n) ∧ IsCommonLength sh (c :: l) n := by
      cases l with
      | nil =>
        subst hr
        refine ⟨_,rfl,⟨sh.name c,rfl,by simp⟩,?_⟩
        rintro n ⟨p,rfl,hp⟩
        exact (hp c (by simp)).length_le
      | cons d l =>
        obtain ⟨n,rfl,-,hcommon⟩ := hr
        exact ⟨n,rfl,hcommon⟩
    obtain ⟨n,hfill,hcommon⟩ := hsome
    have hall := commonAll_names (List.mem_cons_self) hnames hcommon
    rw [hfill,← hall]
    cases names with
    | nil => exact absurd ((hnames _).mpr ⟨c,by simp,rfl⟩) (by simp)
    | cons a names => rfl

end

theorem Rel.represents (h : Rel guard name plain s sp) :
    ∃ cmds,Represents s.registry cmds ∧ (∀ c,c ∈ cmds ↔ c ∈ sp.cmds) ∧ cmds.length ≤ sp.cmds.length := by
  obtain ⟨cmds,hrep,hknown⟩ := h.cmds
  exact ⟨cmds,hrep,hknown,(hrep.list.nodup.subperm fun c hc => (hknown c).mp hc).length_le⟩

/-- An error starts a new line. -/
def settle (r : Option Error × State) : State := if r.1.isSome then restart r.2 else r.2

theorem Rel.tab (h : Rel guard name plain s sp) (hescape : sp.escape = .none) (hturns : 64 ≤ turns)
    (hcmds : sp.cmds.length < turns) :
    Agrees guard name plain ((shellProcessTabulation turns s).map settle) (sp.tab name) := by
  obtain ⟨cmds,hrep,hknown,hlen⟩ := h.represents
  have hcursor := h.refines.valid.cursor
  have hle := sp.editor.word_le
  unfold Spec.tab
  dsimp only
  split_ifs with hbefore hname
  · obtain ⟨c,hc,hname⟩ := hname
    rw [h.refines.tabulation_hangs hrep (by omega) hbefore ((hknown c).mpr hc) (by rw [h.name]; exact hname)]
    rfl
  · rw [h.refines.tabulation_before hrep (by omega) hbefore]
    · exact ⟨s,rfl,h⟩
    · intro c hc hsame
      exact hname ⟨c,(hknown c).mp hc,by rw [← h.name]; exact hsame⟩
  · have hstr : 0 ∉ sp.editor.text.drop sp.editor.word := fun hzero =>
      h.refines.valid.text.zero_not_mem (List.mem_of_mem_drop hzero)
    obtain ⟨r,hrun,hr⟩ := h.refines.tabulation hrep hturns (by omega) (by omega)
    have hfill := completion_eq hrep (by omega) hstr (by rw [List.length_drop]; omega) hknown hrun
    rw [h.name] at hfill
    rw [Editor.typed,hfill]
    cases hnew : r.fill s.registry with
    | none =>
      rw [hnew] at hr
      rw [hr]
      exact ⟨s,rfl,h⟩
    | some new =>
      rw [hnew] at hr
      dsimp only at hr ⊢
      by_cases hfits : sp.editor.word + new.length + (sp.editor.text.length - sp.editor.cursor) < 64
      · rw [if_pos (show _ < SHELL_LINE_MAX_SIZE from hfits)] at hr
        rw [if_pos hfits]
        obtain ⟨s',htab,hs'⟩ := hr
        rw [htab]
        exact ⟨s',rfl,h.follow hs'⟩
      · rw [if_neg (show ¬_ < SHELL_LINE_MAX_SIZE from hfits)] at hr
        rw [if_neg hfits]
        obtain ⟨s',new',hs',htab⟩ := hr
        rw [htab]
        exact ⟨_,rfl,h.giveUp hescape hs' rfl⟩

/-! ## A line that is entered -/

/-- Nothing but the indices is changed, and nothing but the history is read. -/
theorem push_print (cs : List UInt8) :
    shellHistoryPush (s.print cs) = { shellHistoryPush s with out := s.out ++ cs } := by
  unfold shellHistoryPush
  by_cases hsame : (shellHistoryGetNewest s).size = 0 ∨ shellHistorySameNewest s = true
  · have hsame' : (shellHistoryGetNewest (s.print cs)).size = 0 ∨ shellHistorySameNewest (s.print cs) = true := hsame
    rw [if_pos hsame,if_pos hsame']
    rfl
  · have hsame' : ¬((shellHistoryGetNewest (s.print cs)).size = 0 ∨ shellHistorySameNewest (s.print cs) = true) := hsame
    rw [if_neg hsame,if_neg hsame']
    dsimp only [shellHistoryResetIndex,State.print]
    split_ifs <;> rfl

theorem push_keeps : Refines.Keeps { s with newest := (shellHistoryPush s).newest } (shellHistoryPush s) := by
  unfold shellHistoryPush
  dsimp only [shellHistoryResetIndex]
  split_ifs <;> exact ⟨rfl,rfl,rfl,rfl,rfl,rfl,rfl⟩

theorem find_eq_of_lookup {known cmds : List ℕ} {w : List UInt8} {r : Option ℕ} (hknown : ∀ c,c ∈ cmds ↔ c ∈ known)
    (hr : ∀ c,r = some c ↔ c ∈ cmds ∧ name c = w) : known.find? (name · = w) = r := by
  cases hfind : known.find? (name · = w) with
  | none =>
    cases hr' : r with
    | none => rfl
    | some c =>
      obtain ⟨hc,hw⟩ := (hr c).mp hr'
      have hno := List.find?_eq_none.mp hfind c ((hknown c).mp hc)
      exact absurd hw (by simpa using hno)
  | some c =>
    have hc := (hknown c).mpr (List.mem_of_find?_eq_some hfind)
    exact ((hr c).mpr ⟨hc,by simpa using List.find?_some hfind⟩).symm

theorem notFound_eq {w : List UInt8} (s : State) (hw : ∀ c ∈ w,isPrint c = true) (hlen : w.length < SHELL_LINE_MAX_SIZE) :
    ∃ cs,s.printf "shell: %s: command not found\n" [strArg w] = s.print cs ∧ Plain cs := by
  have h : PrintsPlain _ (printf "shell: %s: command not found\n" [strArg w]) :=
    printsPlain_str (a := cstring "shell: ") (b := cstring ": command not found\n") (d := { specifier := .str })
      (cstring "s") (by decide) (fun s args => rfl) rfl rfl (by decide) (by decide) (by decide) (by decide) hw
  have hmax : SHELL_LINE_MAX_SIZE = 64 := rfl
  have hsizes : (cstring "shell: ").length = 7 ∧ (cstring ": command not found\n").length = 20 := by decide
  obtain ⟨cs,hcs⟩ := h.ok (by simp only [Int.toNat_zero]; omega)
  exact ⟨cs,s.printf_eq hcs,h.plain cs hcs⟩

theorem collision_plain {w : List UInt8} (hw : ∀ c ∈ w,isPrint c = true) :
    PrintsPlain (w.length + 64 < 2 ^ 31) (printf "shell: error: %s: shell command name collision" [strArg w]) := by
  have hsizes : (cstring "shell: error: ").length = 14 ∧ (cstring ": shell command name collision").length = 30 := by decide
  refine (printsPlain_str (a := cstring "shell: error: ") (b := cstring ": shell command name collision")
    (d := { specifier := .str }) (cstring "s") (by decide) (fun s args => rfl) rfl rfl (by decide) (by decide) (by decide)
    (by decide) hw).mono fun hlen => ?_
  simp only [Int.toNat_zero]
  omega

/-- The line is remembered, and the command that it names is called. -/
theorem processLine_eq {fn : State → ℕ → List (List UInt8) → List UInt8} (h : Rel guard name plain s sp)
    (hfn : plain → ∀ s cmd args,Plain (fn s cmd args)) (hcmds : sp.cmds.length < turns) :
    ∃ cs,(plain → Plain cs) ∧ shellProcessLine turns fn s =
      some { shellHistoryPush s with out := s.out ++ cs, ran := s.ran ++ Spec.call name sp.cmds sp.editor.text } := by
  obtain ⟨cmds,hrep,hknown,hlen⟩ := h.represents
  have hargs := h.refines.line.processArgs
  have hran : (shellHistoryPush s).ran = s.ran := push_keeps.ran
  have hout : (shellHistoryPush s).out = s.out := push_keeps.out
  have hdone (cs : List UInt8) : shellHistoryPush (s.print cs) =
      { shellHistoryPush s with out := s.out ++ cs, ran := s.ran ++ [] } := by
    rw [push_print,List.append_nil,← hran]
  unfold shellProcessLine Spec.call
  by_cases hfew : (words sp.editor.text).length < SHELL_MAX_ARGS
  · rw [if_pos hfew] at hargs
    rw [hargs,if_pos (show _ < 16 from hfew)]
    have hnone : s.emitAll [] = s := rfl
    simp only [hnone]
    cases hwords : words sp.editor.text with
    | nil =>
      refine ⟨[],fun _ => by decide,congrArg some ?_⟩
      rw [← hdone,print_nil]
    | cons w args =>
      have hmem : w ∈ words sp.editor.text := by
        rw [hwords]
        simp
      have hw : ∀ c ∈ w,isPrint c = true := fun c hc => h.refines.valid.text.2 c (mem_of_mem_words hmem hc)
      have hzero : 0 ∉ w := fun hzero => absurd (hw 0 hzero) (by decide)
      obtain ⟨r,hlookup,hr⟩ := hrep.lookup (by omega : cmds.length < turns) hzero
      rw [h.name] at hr
      have hfind := find_eq_of_lookup hknown hr
      simp only [bind,Option.bind,hlookup,hfind]
      cases r with
      | none =>
        obtain ⟨cs,hcs,hplain⟩ := notFound_eq s hw (Nat.lt_of_le_of_lt (length_le_of_mem_words hmem) h.refines.valid.text.1)
        refine ⟨cs,fun _ => hplain,congrArg some ?_⟩
        rw [hcs]
        exact hdone _
      | some cmd =>
        refine ⟨fn (shellHistoryPush s) cmd (w :: args),fun hp => hfn hp _ _ _,congrArg some ?_⟩
        rw [State.print,hran,hout]
        rfl
  · rw [if_neg hfew] at hargs
    rw [hargs,if_neg (show ¬_ < 16 from hfew)]
    have hmany : s.emitAll [printf "shell: too many arguments\n" []] = s.print (cstring "shell: too many arguments\n") :=
      s.printf_eq (show printf "shell: too many arguments\n" [] = .ok _ by decide)
    simp only [hmany]
    exact ⟨cstring "shell: too many arguments\n",fun _ => by decide,congrArg some (hdone _)⟩

theorem push_newest_le : (shellHistoryPush s).newest ≤ s.newest + 1 := by
  have hnext : add s.newest 1 ≤ s.newest + 1 := Nat.mod_le _ _
  unfold shellHistoryPush
  dsimp only [shellHistoryResetIndex]
  split_ifs
  · exact Nat.le_succ _
  · exact hnext
  · exact hnext

theorem Rel.enter {fn : State → ℕ → List (List UInt8) → List UInt8} (h : Rel guard name plain s sp)
    (hescape : sp.escape = .none)
    (hfn : plain → ∀ s cmd args,Plain (fn s cmd args)) (hcmds : sp.cmds.length < turns)
    (hword : sp.entered.length + 1 < 2 ^ 32) :
    ∃ s',shellProcessLine turns fn (putchar s '\n'.toUInt8) = some s' ∧
      Rel guard name plain (restart s') (sp.enter name) := by
  have hnewest := h.newest
  have hline := h.disturbed fun _ => newline_plain.complete
  obtain ⟨cs,hcs,hrun⟩ := processLine_eq hline hfn hcmds
  have hkeeps := push_keeps (s := s.print [0x0a])
  have henter := hline.refines.enter (show (s.print [0x0a]).newest + 1 < 2 ^ 32 by
    show s.newest + 1 < 2 ^ 32
    omega)
  refine ⟨_,hrun,?_⟩
  have hscreen (hp : plain) := shows_restart { shellHistoryPush (s.print [0x0a]) with
    out := (s.print [0x0a]).out ++ cs, ran := (s.print [0x0a]).ran ++ Spec.call name sp.cmds sp.editor.text }
    (sp.enter name).editor (h.calm hp) (by simp [State.print]) (hcs hp) rfl rfl
  refine ⟨henter.congr rfl rfl rfl rfl rfl,fun hshort => ?_,?_,?_,hescape.symm,?_,?_,?_,fun hp => (hscreen hp).1,
    fun hp _ => (hscreen hp).2⟩
  · exact (restart_fault _).trans (hkeeps.fault.trans (h.fault hshort))
  · exact (congrArg Registry.name hkeeps.registry).trans h.name
  · obtain ⟨cmds,hrep,hknown⟩ := h.cmds
    exact ⟨cmds,(congrArg (Represents · cmds) hkeeps.registry).mpr hrep,hknown⟩
  · exact hkeeps.seq.trans h.seq
  · exact congrArg (· ++ Spec.call name sp.cmds sp.editor.text) h.ran
  · have hle : (shellHistoryPush (s.print [0x0a])).newest ≤ s.newest + 1 := push_newest_le
    show (shellHistoryPush (s.print [0x0a])).newest ≤ (sp.entered ++ [sp.editor.text]).length
    rw [List.length_append,List.length_singleton]
    omega

/-! ## Steps and runs -/

theorem Rel.ctrlChar {fn : State → ℕ → List (List UInt8) → List UInt8} (h : Rel guard name plain s sp)
    (hescape : sp.escape = .none) (hfn : plain → ∀ s cmd args,Plain (fn s cmd args)) (hturns : 64 ≤ turns)
    (hcmds : sp.cmds.length < turns) (hword : sp.entered.length + 1 < 2 ^ 32) (c : UInt8) :
    Agrees guard name plain ((shellProcessCtrlChar turns fn s c).map settle)
      (if c = 0x08 ∨ c = 0x7f then some { sp with editor := sp.editor.backspace }
      else if c = '\t'.toUInt8 then sp.tab name
      else if c = '\n'.toUInt8 ∨ c = '\r'.toUInt8 then some (sp.enter name)
      else some sp) := by
  unfold shellProcessCtrlChar
  split_ifs with herase htab henter
  · exact ⟨_,rfl,h.follow h.refines.backspace⟩
  · exact h.tab hescape hturns hcmds
  · obtain ⟨s',hrun,hs'⟩ := h.enter hescape hfn hcmds hword
    rw [hrun]
    exact ⟨_,rfl,hs'⟩
  · exact ⟨s,rfl,h⟩

theorem char_of_none (hescape : sp.escape = .none) (c : UInt8) :
    sp.char name c =
      if isPrint c then
        if sp.editor.text.length + 1 < 64 then some { sp with editor := sp.editor.insert c } else some sp.giveUp
      else if c = 0x1b then some { sp with escape := .start }
      else if c = 0x08 ∨ c = 0x7f then some { sp with editor := sp.editor.backspace }
      else if c = '\t'.toUInt8 then sp.tab name
      else if c = '\n'.toUInt8 ∨ c = '\r'.toUInt8 then some (sp.enter name)
      else some sp := by
  unfold Spec.char
  split
  · rename_i hstart
    cases hstart.symm.trans hescape
  · rename_i hcsi
    cases hcsi.symm.trans hescape
  · rfl

theorem Rel.char {fn : State → ℕ → List (List UInt8) → List UInt8} (h : Rel guard name plain s sp) (byte : Option UInt8)
    (hfn : plain → ∀ s cmd args,Plain (fn s cmd args)) (hturns : 64 ≤ turns) (hcmds : sp.cmds.length < turns)
    (hword : sp.entered.length + 1 < 2 ^ 32) :
    Agrees guard name plain (shellRunStep turns fn s byte) (sp.char name (getchar byte)) := by
  unfold shellRunStep
  dsimp only
  rw [h.escape]
  cases hescape : sp.escape with
  | start =>
    rw [Spec.char,hescape]
    exact ⟨_,rfl,h.refines.congr rfl rfl rfl rfl rfl,h.fault,h.name,h.cmds,rfl,h.seq,h.ran,h.newest,h.calm,h.shows⟩
  | csi => exact h.escSequence hescape hturns (getchar byte)
  | none =>
    generalize getchar byte = c
    rw [char_of_none hescape]
    dsimp only
    by_cases hprint : isPrint c = true
    · have hraw := h.rawChar hescape hprint
      rw [if_pos hprint,if_neg (by rw [(Rel.isPrint_iff c).mp hprint]; simp)]
      split_ifs at hraw ⊢ <;> exact ⟨_,rfl,hraw⟩
    · have hctrl : shellIsCtrlChar c = true := by
        rw [← Bool.not_eq_false]
        exact fun hno => hprint ((Rel.isPrint_iff c).mpr hno)
      rw [if_neg hprint,if_pos hctrl]
      by_cases hesc : c = 0x1b
      · rw [if_pos hesc,if_pos hesc]
        exact ⟨_,rfl,h.refines.congr rfl rfl rfl rfl rfl,h.fault,h.name,h.cmds,rfl,h.seq,h.ran,h.newest,h.calm,h.shows⟩
      · rw [if_neg hesc,if_neg hesc]
        have hsettle := h.ctrlChar hescape hfn hturns hcmds hword c
        have hmap : ((shellProcessCtrlChar turns fn s c).bind fun r => some (settle r)) =
            (shellProcessCtrlChar turns fn s c).map settle := by
          cases shellProcessCtrlChar turns fn s c <;> rfl
        rw [← hmap] at hsettle
        exact hsettle

theorem Rel.register {fn : State → ℕ → List (List UInt8) → List UInt8} (h : Rel guard name plain s sp) (cmd : ℕ)
    (hcmds : sp.cmds.length < turns) :
    Agrees guard name plain (step turns fn s (.register cmd)) (sp.step name (.register cmd)) := by
  obtain ⟨cmds,hrep,hknown,hlen⟩ := h.represents
  have hregister := hrep.register cmd (by omega : cmds.length < turns)
  have hexist : (∃ c ∈ cmds,name c = name cmd) ↔ ∃ c ∈ sp.cmds,name c = name cmd := by simp only [hknown]
  rw [h.name] at hregister
  unfold step Spec.step Spec.register
  dsimp only
  by_cases hcheck : shellCmdCheck (name cmd) = false
  · rw [if_pos hcheck] at hregister ⊢
    rw [hregister]
    exact ⟨_,rfl,h⟩
  · rw [if_neg hcheck] at hregister ⊢
    by_cases hsame : ∃ c ∈ sp.cmds,name c = name cmd
    · rw [if_pos (hexist.mpr hsame)] at hregister
      have houts : ∀ out ∈ [printf "shell: error: %s: shell command name collision" [strArg (name cmd)]],
          PrintsPlain (ShortNames name) out := fun out hout => by
        rw [List.mem_singleton.mp hout]
        exact (collision_plain (isPrint_of_check (by simpa using hcheck))).mono fun hshort => hshort cmd
      obtain ⟨cs,fault,hemit,hcs,hfault⟩ := emitAll_plain s houts
      rw [if_pos hsame,hregister]
      refine ⟨_,rfl,?_⟩
      rw [hemit]
      exact (h.disturbed fun _ => hcs.complete).faulted hfault
    · rw [if_neg (fun hs => hsame (hexist.mp hs))] at hregister
      obtain ⟨sh,hrun,hname,hrep'⟩ := hregister
      rw [if_neg hsame,hrun]
      refine ⟨_,rfl,?_⟩
      refine ⟨h.refines.congr rfl rfl rfl rfl rfl,h.fault,hname,⟨_,hrep',fun c => ?_⟩,h.escape,h.seq,h.ran,h.newest,
        h.calm,h.shows⟩
      rw [Represents.mem_insertCmd,hknown,List.mem_append,List.mem_singleton]
      exact or_comm

theorem Rel.step {fn : State → ℕ → List (List UInt8) → List UInt8} (h : Rel guard name plain s sp) (event : Event)
    (hfn : plain → ∀ s cmd args,Plain (fn s cmd args)) (hother : plain → ∀ cs,event = .other cs → Plain cs)
    (hturns : 64 ≤ turns) (hcmds : sp.cmds.length < turns) (hword : sp.entered.length + 1 < 2 ^ 32) :
    Agrees guard name plain (step turns fn s event) (sp.step name event) := by
  cases event with
  | char byte => exact h.char byte hfn hturns hcmds hword
  | register cmd => exact h.register cmd hcmds
  | other cs => exact ⟨_,rfl,h.disturbed fun hp => (hother hp cs rfl).complete⟩

theorem backspace_entries (e : Editor) : e.backspace.entries = e.entries := by
  unfold Editor.backspace
  split_ifs <;> rfl

theorem press_entries (e : Editor) (key : Option Key) : (e.press key).entries = e.entries := by
  cases key with
  | none => rfl
  | some key =>
    cases key with
    | up =>
      unfold Editor.press Editor.up
      split_ifs <;> rfl
    | down =>
      unfold Editor.press Editor.down
      split_ifs <;> rfl
    | delete =>
      unfold Editor.press Editor.delete
      split_ifs
      · exact backspace_entries _
      · rfl
    | _ => rfl

/-- What changes with a character that does not end a line. -/
def Edited (sp sp' : Spec) : Prop :=
  ∃ e' escape seq clean,sp' = { sp with editor := e', escape := escape, seq := seq, clean := clean } ∧
    e'.entries = sp.editor.entries

theorem tab_cases {sp' : Spec} (h : sp.tab name = some sp') : Edited sp sp' := by
  unfold Spec.tab at h
  dsimp only at h
  split_ifs at h with hbefore hname
  · cases h
    exact ⟨_,_,_,_,rfl,rfl⟩
  · cases hnew : Spec.completion name sp.cmds sp.editor.typed with
    | none =>
      rw [hnew] at h
      cases h
      exact ⟨_,_,_,_,rfl,rfl⟩
    | some new =>
      rw [hnew] at h
      dsimp only at h
      split_ifs at h
      · cases h
        exact ⟨_,_,_,_,rfl,rfl⟩
      · cases h
        exact ⟨_,_,_,_,rfl,rfl⟩

/-- A character ends the line, or changes the line. -/
theorem char_cases {sp' : Spec} (h : sp.char name c = some sp') : sp' = sp.enter name ∨ Edited sp sp' := by
  unfold Spec.char at h
  split at h
  · cases h
    exact .inr ⟨_,_,_,_,rfl,rfl⟩
  · split_ifs at h
    · cases h
      exact .inr ⟨_,_,_,_,rfl,rfl⟩
    · cases h
      exact .inr ⟨_,_,_,_,rfl,press_entries _ _⟩
    · cases h
      exact .inr ⟨_,_,_,_,rfl,rfl⟩
  · split_ifs at h with hprint hfits hesc herase htab henter
    · cases h
      exact .inr ⟨_,_,_,_,rfl,rfl⟩
    · cases h
      exact .inr ⟨_,_,_,_,rfl,rfl⟩
    · cases h
      exact .inr ⟨_,_,_,_,rfl,rfl⟩
    · cases h
      exact .inr ⟨_,_,_,_,rfl,backspace_entries _⟩
    · exact .inr (tab_cases h)
    · cases h
      exact .inl rfl
    · cases h
      exact .inr ⟨_,_,_,_,rfl,rfl⟩

theorem step_grows {sp' : Spec} {event : Event} (h : sp.step name event = some sp') :
    sp'.cmds.length ≤ sp.cmds.length + 1 ∧ sp'.entered.length ≤ sp.entered.length + 1 := by
  cases event with
  | char byte =>
    rcases char_cases h with rfl | ⟨e',escape,seq,clean,rfl,-⟩
    · exact ⟨Nat.le_succ _,by simp [Spec.enter]⟩
    · exact ⟨Nat.le_succ _,Nat.le_succ _⟩
  | register cmd =>
    cases h
    unfold Spec.register
    split_ifs
    · exact ⟨Nat.le_succ _,Nat.le_succ _⟩
    · exact ⟨Nat.le_succ _,Nat.le_succ _⟩
    · exact ⟨by simp,Nat.le_succ _⟩
  | other cs =>
    cases h
    exact ⟨Nat.le_succ _,Nat.le_succ _⟩

theorem Rel.run {fn : State → ℕ → List (List UInt8) → List UInt8} {events : List Event} (h : Rel guard name plain s sp)
    (hfn : plain → ∀ s cmd args,Plain (fn s cmd args)) (hother : plain → ∀ cs,.other cs ∈ events → Plain cs)
    (hturns : 64 ≤ turns)
    (hcmds : sp.cmds.length + events.length < turns) (hword : sp.entered.length + events.length < 2 ^ 32) :
    Agrees guard name plain (run turns fn s events) (sp.run name events) := by
  induction events generalizing s sp with
  | nil => exact ⟨s,rfl,h⟩
  | cons event events ih =>
    simp only [List.length_cons] at hcmds hword
    have hstep := h.step event hfn (fun hp cs hcs => hother hp cs (by simp [hcs])) hturns (by omega) (by omega)
    unfold X1.Shell.run Spec.run
    rw [List.foldlM_cons,List.foldlM_cons]
    cases hsp : sp.step name event with
    | none =>
      rw [hsp] at hstep
      rw [show X1.Shell.step turns fn s event = none from hstep]
      rfl
    | some sp' =>
      rw [hsp] at hstep
      obtain ⟨s',hrun,hs'⟩ := hstep
      obtain ⟨hgrow,hgrow'⟩ := step_grows hsp
      rw [hrun]
      exact ih hs' (fun hp cs hcs => hother hp cs (by simp [hcs])) (by omega) (by omega)

/-- The first character is read by a shell that has done nothing. -/
theorem Rel.start {sh : Registry} {cmds known : List ℕ} (hrep : Represents sh cmds) (hknown : ∀ c,c ∈ cmds ↔ c ∈ known) :
    Rel guard sh.name plain (X1.Shell.start guard sh) (Spec.start known) := by
  have hvalid : Editor.Valid (Spec.start known).editor :=
    ⟨Nat.zero_le _,by simp [Spec.start],Nat.le_refl _,.nil,Nat.le_refl _⟩
  have hprompt : (X1.Shell.start guard sh).out = prompt := by
    rw [X1.Shell.start,restart_eq]
    rfl
  have hshows : Shows (Spec.start known).editor (screen (X1.Shell.start guard sh).out) := by
    rw [hprompt]
    exact shows_prompt ⟨rfl,rfl⟩ rfl rfl
  have hfirst : Refines guard
      { history := fun slot => ⟨fun a => if a < SHELL_LINE_MAX_SIZE then 0 else guard slot a,0⟩, newest := 0, oldest := 0,
        index := 0, cursor := 0, escape := .none, seq := [], registry := sh, out := [], fault := none, ran := [] }
      (Spec.start known).editor := by
    refine ⟨hvalid,rfl,Nat.two_pow_pos 32,fun i hi => ?_,fun i hi a ha => if_neg (by omega),rfl,rfl⟩
    rw [Nat.le_zero.mp hi]
    exact ⟨rfl,Nat.zero_lt_succ 63,fun i hi => by rw [Nat.le_zero.mp hi]; rfl,by simp [Spec.start],
      fun a ha => if_neg (by omega)⟩
  have hcalm : Calm (screen (X1.Shell.start guard sh).out) := by
    obtain ⟨pre,hpre⟩ := hshows
    exact hpre.calm
  have hreset : Refines guard (X1.Shell.start guard sh) (Spec.start known).editor := hfirst.reset.congr rfl rfl rfl rfl rfl
  rw [X1.Shell.start,restart_eq] at hcalm hshows hreset ⊢
  exact ⟨hreset,fun _ => rfl,rfl,⟨cmds,hrep,hknown⟩,rfl,rfl,rfl,Nat.le_refl _,fun _ => hcalm,fun _ _ => hshows⟩

end

end X1.Shell
