import X1.Shell.Abstract
import X1.Shell.Editor

/-! # The history of lib/shell.c

The slots from `shell_history_oldest` to `shell_history_newest` hold the lines that are
remembered and the current line. As long as the indices do not wrap around, the operations
on the history are those of the editor, and nothing beyond an array is written.
-/
namespace X1.Shell
open X1.Word X1.CString X1.Fmt X1.Display

theorem State.printf_eq {format : String} {args : List Arg} {cs : List UInt8} (s : State)
    (h : X1.Shell.printf format args = .ok cs) : s.printf format args = s.print cs := by
  rw [State.printf,h]
  rfl

def prompt : List UInt8 := cstring "shell> "

theorem printf_prompt : printf "shell> " [] = .ok prompt := by decide

theorem shellPrompt_eq (s : State) : shellPrompt s = s.print prompt := s.printf_eq printf_prompt

/-- `guard` is what is beyond the arrays of the lines. -/
structure Refines (guard : ℕ → Bytes) (s : State) (e : Editor) : Prop where
  valid : e.Valid
  newest : s.newest = s.oldest + e.entries.length
  word : s.newest < 2 ^ 32
  lines : ∀ i ≤ e.entries.length,(shellHistoryGet s (s.oldest + i)).Holds
    (guard ((s.oldest + i) % SHELL_HISTORY_SIZE)) ((e.entries ++ [e.text]).getD i [])
  beyond : ∀ i < SHELL_HISTORY_SIZE,∀ a,SHELL_LINE_MAX_SIZE ≤ a → (s.history i).str a = guard i a
  index : s.index = s.oldest + e.position
  cursor : s.cursor = e.cursor

namespace Refines
variable {guard : ℕ → Bytes} {s s' : State} {e : Editor} {l : Line} {text : List UInt8} {i k p : ℕ}

theorem slot_ne (h : Refines guard s e) (hi : i < e.entries.length) :
    (s.oldest + i) % SHELL_HISTORY_SIZE ≠ s.newest % SHELL_HISTORY_SIZE := by
  have hlen := h.valid.entries
  rw [h.newest]
  unfold SHELL_HISTORY_SIZE
  omega

theorem line (h : Refines guard s e) :
    (shellHistoryGetNewest s).Holds (guard (s.newest % SHELL_HISTORY_SIZE)) e.text := by
  have hline := h.lines e.entries.length (Nat.le_refl _)
  rw [← h.newest] at hline
  simpa [shellHistoryGetNewest] using hline

theorem entry (h : Refines guard s e) (hi : i < e.entries.length) :
    (shellHistoryGet s (s.oldest + i)).Holds (guard ((s.oldest + i) % SHELL_HISTORY_SIZE)) (e.entries.getD i []) := by
  have hline := h.lines i (by omega)
  rwa [List.getD_append _ _ _ _ hi] at hline

/-- What the relation does not see may change. -/
theorem congr (h : Refines guard s e) (hhistory : s'.history = s.history) (hnewest : s'.newest = s.newest)
    (holdest : s'.oldest = s.oldest) (hindex : s'.index = s.index) (hcursor : s'.cursor = s.cursor) :
    Refines guard s' e := by
  obtain ⟨history,newest,oldest,index,cursor,escape,seq,registry,out,fault,ran⟩ := s
  obtain ⟨history',newest',oldest',index',cursor',escape',seq',registry',out',fault',ran'⟩ := s'
  simp only at hhistory hnewest holdest hindex hcursor
  subst hhistory hnewest holdest hindex hcursor
  exact ⟨h.valid,h.newest,h.word,h.lines,h.beyond,h.index,h.cursor⟩

theorem print (h : Refines guard s e) (cs : List UInt8) : Refines guard (s.print cs) e := h.congr rfl rfl rfl rfl rfl

theorem move (h : Refines guard s e) (hk : k ≤ e.text.length) :
    Refines guard { s with cursor := k } { e with cursor := k } :=
  ⟨h.valid.move hk,h.newest,h.word,h.lines,h.beyond,h.index,rfl⟩

/-- The current line is changed, and perhaps the index. -/
theorem setNewest (h : Refines guard s e) (hline : l.Holds (guard (s.newest % SHELL_HISTORY_SIZE)) text)
    (hvalid : ({ e with position := p, text := text, cursor := k } : Editor).Valid) :
    Refines guard { s.setNewest l with index := s.oldest + p, cursor := k }
      { e with position := p, text := text, cursor := k } where
  valid := hvalid
  newest := h.newest
  word := h.word
  lines i hi := by
    replace hi : i ≤ e.entries.length := hi
    simp only [shellHistoryGet,State.setNewest]
    by_cases hlast : i = e.entries.length
    · subst hlast
      rw [← h.newest,Function.update_self]
      simpa using hline
    · have hentry := h.entry (by omega : i < e.entries.length)
      rw [Function.update_of_ne (h.slot_ne (by omega)),List.getD_append _ _ _ _ (by omega)]
      exact hentry
  beyond i hi a ha := by
    simp only [State.setNewest]
    by_cases hslot : i = s.newest % SHELL_HISTORY_SIZE
    · subst hslot
      rw [Function.update_self]
      exact hline.beyond a ha
    · rw [Function.update_of_ne hslot]
      exact h.beyond i hi a ha
  index := rfl
  cursor := rfl

theorem edit (h : Refines guard s e) (hline : l.Holds (guard (s.newest % SHELL_HISTORY_SIZE)) text)
    (hvalid : ({ e with text := text, cursor := k } : Editor).Valid) :
    Refines guard { s.setNewest l with cursor := k } { e with text := text, cursor := k } := by
  have hset := h.setNewest hline (p := e.position) hvalid
  rw [← h.index] at hset
  exact hset

/-! ## Up and down -/

theorem back (h : Refines guard s e) : Refines guard { shellHistoryBack s with cursor := e.up.text.length } e.up := by
  have hword := h.word
  have hnewest := h.newest
  have hposition := h.valid.position
  unfold shellHistoryBack Editor.up
  by_cases hzero : e.position = 0
  · rw [if_pos (by rw [h.index,hzero]; rfl),if_pos hzero]
    exact h.move (Nat.le_refl _)
  · have hindex : sub s.index 1 = s.oldest + (e.position - 1) := by
      rw [h.index,sub_of_le (by omega) (by omega)]
      omega
    have hentry := h.entry (by omega : e.position - 1 < e.entries.length)
    have htyped : Editor.Typed (e.entries.getD (e.position - 1) []) := by
      rw [List.getD_eq_getElem _ _ (by omega)]
      exact h.valid.lines _ (List.getElem_mem _)
    rw [if_neg (by rw [h.index]; omega),if_neg hzero]
    simp only [hindex]
    exact h.setNewest (h.line.copy hentry) (h.valid.replace (by omega) htyped)

theorem forward (h : Refines guard s e) :
    Refines guard { shellHistoryForward s with cursor := e.down.text.length } e.down := by
  have hword := h.word
  have hnewest := h.newest
  have hposition := h.valid.position
  unfold shellHistoryForward Editor.down
  by_cases hlast : e.position = e.entries.length
  · rw [if_pos (by rw [h.index,hlast,h.newest]),if_pos hlast]
    exact h.move (Nat.le_refl _)
  · have hindex : add s.index 1 = s.oldest + (e.position + 1) := by
      rw [h.index,add_of_lt (by omega)]
      omega
    rw [if_neg (by rw [h.index]; omega),if_neg hlast]
    simp only [hindex]
    by_cases hnext : e.position + 1 = e.entries.length
    · have hempty : e.entries.getD (e.position + 1) [] = [] := List.getD_eq_default _ _ (by omega)
      rw [if_pos (by rw [h.newest,hnext]),hempty]
      exact h.setNewest (.reset h.line.beyond) (h.valid.replace (by omega) .nil)
    · have hentry := h.entry (by omega : e.position + 1 < e.entries.length)
      have htyped : Editor.Typed (e.entries.getD (e.position + 1) []) := by
        rw [List.getD_eq_getElem _ _ (by omega)]
        exact h.valid.lines _ (List.getElem_mem _)
      rw [if_neg (by omega)]
      exact h.setNewest (h.line.copy hentry) (h.valid.replace (by omega) htyped)

/-! ## A line that is entered -/

theorem same_iff (h : Refines guard s e) :
    ((shellHistoryGetNewest s).size = 0 ∨ shellHistorySameNewest s = true) ↔
      (e.text = [] ∨ e.entries.getLast? = some e.text) := by
  have hword := h.word
  have hnewest := h.newest
  rw [h.line.size,List.length_eq_zero_iff]
  refine or_congr_right ?_
  rw [shellHistorySameNewest,decide_eq_true_iff]
  cases hlen : e.entries.length with
  | zero =>
    rw [List.length_eq_zero_iff.mp hlen]
    simp [h.newest,hlen]
  | succ n =>
    have hprev : sub s.newest 1 = s.oldest + n := by
      rw [sub_of_le (by omega) hword]
      omega
    have hentry := h.entry (by omega : n < e.entries.length)
    rw [hprev,h.line.cmp_eq_zero_iff hentry,List.getLast?_eq_getElem?,hlen,Nat.add_sub_cancel,
      List.getD_eq_getElem _ _ (by omega),List.getElem?_eq_getElem (by omega)]
    have hne : s.newest ≠ s.oldest := by omega
    simp [hne,eq_comm]

theorem push_eq (h : Refines guard s e) (hword : s.newest + 1 < 2 ^ 32)
    (hnew : ¬(e.text = [] ∨ e.entries.getLast? = some e.text)) :
    shellHistoryPush s =
      { s with newest := s.newest + 1, index := s.newest + 1, oldest := s.oldest + (e.entries.length + 1 - 20) } := by
  have hnewest := h.newest
  have hlen := h.valid.entries
  have hsize : SHELL_HISTORY_SIZE = 21 := rfl
  have hnext : add s.newest 1 = s.newest + 1 := add_of_lt hword
  have hused : sub (s.newest + 1) s.oldest = e.entries.length + 1 := by
    rw [sub_of_le (by omega) hword]
    omega
  unfold shellHistoryPush shellHistoryResetIndex
  rw [if_neg (fun hs => hnew (h.same_iff.mp hs))]
  simp only [hnext,hused]
  split_ifs with hfull
  · have holdest : add (sub (s.newest + 1) SHELL_HISTORY_SIZE) 1 = s.oldest + (e.entries.length + 1 - 20) := by
      rw [sub_of_le (by omega) hword,add_of_lt (by omega)]
      omega
    rw [holdest]
  · have hnone : e.entries.length + 1 - 20 = 0 := by omega
    simp only [hnone,Nat.add_zero]

/-- After the line has been entered, the next one is empty. -/
theorem enter (h : Refines guard s e) (hword : s.newest + 1 < 2 ^ 32) :
    Refines guard (shellReset (shellHistoryPush s)) e.enter := by
  have hnewest := h.newest
  have hsize : SHELL_HISTORY_SIZE = 21 := rfl
  have hlen := h.valid.entries
  by_cases hsame : e.text = [] ∨ e.entries.getLast? = some e.text
  · have hset := h.setNewest (p := e.entries.length) (k := 0) (.reset h.line.beyond)
      ⟨h.valid.entries,h.valid.lines,Nat.le_refl _,.nil,Nat.le_refl _⟩
    rw [← h.newest] at hset
    rw [shellReset,shellPrompt_eq,shellHistoryPush,if_pos (h.same_iff.mpr hsame),Editor.enter,Editor.remember,if_pos hsame]
    exact hset.congr rfl rfl rfl rfl rfl
  · have hvalid := h.valid.enter
    have hentries : e.enter.entries = (e.entries ++ [e.text]).drop (e.entries.length + 1 - 20) := if_neg hsame
    have hcount : e.enter.entries.length = e.entries.length + 1 - (e.entries.length + 1 - 20) := by
      rw [hentries]
      simp
    have hreset : (shellLineReset (s.history ((s.newest + 1) % SHELL_HISTORY_SIZE))).Holds
        (guard ((s.newest + 1) % SHELL_HISTORY_SIZE)) [] :=
      .reset (h.beyond _ (Nat.mod_lt _ (by decide)))
    have hposition : e.enter.position = e.enter.entries.length := rfl
    rw [h.push_eq hword hsame,shellReset,shellPrompt_eq]
    refine ⟨hvalid,?_,hword,fun i hi => ?_,fun i hi a ha => ?_,?_,rfl⟩
    · show s.newest + 1 = s.oldest + (e.entries.length + 1 - 20) + e.enter.entries.length
      omega
    · simp only [State.print,shellHistoryGet,State.setNewest,shellHistoryGetNewest]
      by_cases hlast : i = e.enter.entries.length
      · have hslot : s.oldest + (e.entries.length + 1 - 20) + i = s.newest + 1 := by omega
        rw [hslot,Function.update_self,hlast]
        simpa [Editor.enter] using hreset
      · have hslot : (s.oldest + (e.entries.length + 1 - 20) + i) % SHELL_HISTORY_SIZE ≠
            (s.newest + 1) % SHELL_HISTORY_SIZE := by
          have hfew := hvalid.entries
          rw [hsize]
          omega
        have hold := h.lines (e.entries.length + 1 - 20 + i) (by omega)
        rw [Function.update_of_ne hslot,List.getD_append _ _ _ _ (by omega),hentries,Nat.add_assoc]
        simpa [List.getD,shellHistoryGet] using hold
    · simp only [State.print,shellHistoryGet,State.setNewest,shellHistoryGetNewest]
      by_cases hslot : i = (s.newest + 1) % SHELL_HISTORY_SIZE
      · rw [hslot,Function.update_self]
        exact hreset.beyond a ha
      · rw [Function.update_of_ne hslot]
        exact h.beyond i hi a ha
    · show s.newest + 1 = s.oldest + (e.entries.length + 1 - 20) + e.enter.position
      omega

theorem reset (h : Refines guard s e) : Refines guard (shellReset s) e.reset := by
  have hset := h.edit (k := 0) (.reset h.line.beyond) h.valid.reset
  rw [shellReset,shellPrompt_eq]
  exact hset.congr rfl rfl rfl rfl rfl

end Refines

end X1.Shell
