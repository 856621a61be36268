import X1.Shell.Console
import X1.Shell.Refine

/-! # What the shell does is what the terminal shows

Each operation on the current line prints what makes the terminal show the new line, with
the column of the terminal at the cursor, when it has shown the old one.
-/
namespace X1.Shell
open X1.Word X1.CString X1.Loop X1.Fmt X1.Display

/-- The row ends with the prompt and the text, but for blanks, and the column is that of the cursor. -/
def Shows (e : Editor) (t : Terminal) : Prop := ∃ pre,Showing (pre ++ prompt) e.text e.cursor t

/-- What is printed turns one line into another. -/
structure Edits (e e' : Editor) (cs : List UInt8) : Prop where
  complete : Complete cs
  shows : ∀ t,Shows e t → Shows e' (t.feed cs)

/-- No name is so long that the length of a message with it is no `int`. -/
def ShortNames (name : ℕ → List UInt8) : Prop := ∀ cmd,(name cmd).length + 64 < 2 ^ 31

/-- From a state and an editor to others: the new state is that of the new editor, what is printed shows its
line, and nothing but the lines and the cursor has changed. -/
structure Follows (guard : ℕ → Bytes) (s : State) (e : Editor) (s' : State) (e' : Editor) : Prop where
  refines : Refines guard s' e'
  newest : s'.newest = s.newest
  escape : s'.escape = s.escape
  seq : s'.seq = s.seq
  registry : s'.registry = s.registry
  ran : s'.ran = s.ran
  fault : ShortNames s.registry.name → s'.fault = s.fault
  edits : ∃ cs,s'.out = s.out ++ cs ∧ Edits e e' cs

theorem Edits.nil (e : Editor) : Edits e e [] := ⟨.nil,fun _ h => h⟩

theorem Edits.append {e e' e'' : Editor} {cs ds : List UInt8} (h : Edits e e' cs) (h' : Edits e' e'' ds) :
    Edits e e'' (cs ++ ds) := by
  refine ⟨h.complete.append h'.complete,fun t ht => ?_⟩
  rw [feed_append]
  exact h'.shows _ (h.shows t ht)

namespace Follows
variable {guard : ℕ → Bytes} {s s' s'' : State} {e e' e'' : Editor}

theorem refl (h : Refines guard s e) : Follows guard s e s e :=
  ⟨h,rfl,rfl,rfl,rfl,rfl,fun _ => rfl,[],(List.append_nil _).symm,.nil e⟩

theorem trans (h : Follows guard s e s' e') (h' : Follows guard s' e' s'' e'') : Follows guard s e s'' e'' := by
  obtain ⟨cs,hcs,hedits⟩ := h.edits
  obtain ⟨ds,hds,hedits'⟩ := h'.edits
  refine ⟨h'.refines,h'.newest.trans h.newest,h'.escape.trans h.escape,h'.seq.trans h.seq,
    h'.registry.trans h.registry,h'.ran.trans h.ran,fun hshort => ?_,cs ++ ds,?_,hedits.append hedits'⟩
  · exact (h'.fault (by rw [h.registry]; exact hshort)).trans (h.fault hshort)
  · rw [hds,hcs,List.append_assoc]

end Follows

/-! ## The texts -/

section
variable {pre text : List UInt8} {c : UInt8} {k : ℕ} {t : Terminal}

theorem typed_complete (h : ∀ c ∈ text,isPrint c = true) : Complete text := .of_write fun c hc => .inl (h c hc)

theorem backspaces_complete (n : ℕ) : Complete (List.replicate n 0x08) :=
  .of_write fun _ hc => .inr (.inr (List.eq_of_mem_replicate hc))

/-- A character at the end of the text. -/
theorem showing_append (h : Showing pre text text.length t) (hc : isPrint c = true) :
    Showing pre (text ++ [c]) (text.length + 1) (t.feed [c]) := by
  have hprint := h.print [c] (Nat.le_refl _) (by simpa using hc)
  have hnone : text.drop (text.length + 1) = [] := List.drop_eq_nil_of_le (by omega)
  simpa [hnone] using hprint

/-- A character in the text: what follows it is printed again. -/
theorem showing_insert (h : Showing pre text k t) (hk : k ≤ text.length) (htext : ∀ c ∈ text,isPrint c = true)
    (hc : isPrint c = true) :
    Showing pre (text.take k ++ c :: text.drop k) (k + 1)
      (t.feed ((c :: text.drop k) ++ List.replicate (text.length - k) 0x08)) := by
  have hprint := h.print (c :: text.drop k) hk fun d hd => by
    rcases List.mem_cons.mp hd with rfl | hd
    · exact hc
    · exact htext d (List.mem_of_mem_drop hd)
  have hlen : (c :: text.drop k).length = text.length - k + 1 := by simp
  have hnone : text.drop (k + (text.length - k + 1)) = [] := List.drop_eq_nil_of_le (by omega)
  rw [hlen,hnone,List.append_nil] at hprint
  have hback := hprint.back (n := text.length - k) (by omega)
  rw [feed_append]
  rwa [show k + (text.length - k + 1) - (text.length - k) = k + 1 by omega] at hback

/-- The character before the cursor is erased: what follows it is printed in its place, and a blank. -/
theorem showing_backspace (h : Showing pre text (k + 1) t) (hk : k < text.length) (htext : ∀ c ∈ text,isPrint c = true) :
    Showing pre (text.take k ++ text.drop (k + 1)) k
      (t.feed (([0x08] ++ text.drop (k + 1) ++ [0x20]) ++ List.replicate (text.length - k) 0x08)) := by
  have hstart : Showing pre text k (t.feed [0x08]) := h.back (n := 1) (by omega)
  have hprint := hstart.print (text.drop (k + 1) ++ [0x20]) (by omega) fun d hd => by
    rcases List.mem_append.mp hd with hd | hd
    · exact htext d (List.mem_of_mem_drop hd)
    · rw [List.mem_singleton.mp hd]
      decide
  have hlen : (text.drop (k + 1) ++ [0x20]).length = text.length - k := by
    simp
    omega
  have hnone : text.drop (k + (text.length - k)) = [] := List.drop_eq_nil_of_le (by omega)
  rw [hlen,hnone,List.append_nil,← List.append_assoc] at hprint
  have hback := (hprint.trim (n := 1)).back (n := text.length - k) (by omega)
  rw [Nat.add_sub_cancel] at hback
  rw [List.append_assoc [0x08],feed_append,feed_append]
  exact hback

theorem showing_rubout (h : Showing pre (text ++ [c]) (text.length + 1) t) :
    Showing pre text text.length (t.feed [0x08,0x20,0x08]) := by
  have hstart : Showing pre (text ++ [c]) text.length (t.feed [0x08]) := h.back (n := 1) (by omega)
  have hprint := hstart.print [0x20] (by simp) (by decide)
  have hnone : (text ++ [c]).drop (text.length + 1) = [] := List.drop_eq_nil_of_le (by simp)
  rw [List.take_left,List.length_singleton,hnone,List.append_nil] at hprint
  exact (hprint.trim (n := 1)).back (n := 1) (by omega)

theorem showing_rubouts (h : Showing pre text text.length t) :
    Showing pre [] 0 (t.feed (List.replicate text.length [0x08,0x20,0x08]).flatten) := by
  induction text using List.reverseRecOn generalizing t with
  | nil => exact h
  | append_singleton text c ih =>
    rw [List.length_append,List.length_singleton] at h
    rw [List.length_append,List.length_singleton,List.replicate_succ,List.flatten_cons,feed_append]
    exact ih (showing_rubout h)

/-- What `shell_erase` prints. -/
def erasure (size cursor : ℕ) : List UInt8 :=
  List.replicate (size - cursor) 0x20 ++ (List.replicate size [0x08,0x20,0x08]).flatten

theorem erasure_complete (n k : ℕ) : Complete (erasure n k) := by
  refine .of_write fun c hc => ?_
  rcases List.mem_append.mp hc with hc | hc
  · rw [List.eq_of_mem_replicate hc]
    decide
  · obtain ⟨l,hl,hc⟩ := List.mem_flatten.mp hc
    rw [List.eq_of_mem_replicate hl] at hc
    have hall : ∀ c ∈ ([0x08,0x20,0x08] : List UInt8),isPrint c = true ∨ c = 0x0a ∨ c = 0x08 := by decide
    exact hall c hc

theorem showing_erase (h : Showing pre text k t) (hk : k ≤ text.length) :
    Showing pre [] 0 (t.feed (erasure text.length k)) := by
  have hprint := h.print (List.replicate (text.length - k) 0x20) hk fun c hc => by
    rw [List.eq_of_mem_replicate hc]
    decide
  have hnone : text.drop (k + (text.length - k)) = [] := List.drop_eq_nil_of_le (by omega)
  rw [List.length_replicate,hnone,List.append_nil] at hprint
  have hlen : (text.take k ++ List.replicate (text.length - k) 0x20).length = text.length := by
    simp
    omega
  rw [erasure,feed_append]
  nth_rewrite 2 [← hlen]
  refine showing_rubouts ?_
  rw [hlen]
  rwa [show k + (text.length - k) = text.length by omega] at hprint

end

theorem printf_back : printf "\x1b[1D" [] = .ok cursorBack := by decide

theorem printf_forward : printf "\x1b[1C" [] = .ok cursorForward := by decide

theorem printf_rubout : printf "\x08 \x08" [] = .ok [0x08,0x20,0x08] := by decide

/-- The characters of a line from an index on, in a format. -/
theorem Line.Holds.printf_chars {guard : Bytes} {line : Line} {text a b : List UInt8} (h : line.Holds guard text)
    (s : State) (format : String) (index : ℕ) (hindex : index ≤ text.length)
    (hformat : cstring format = a ++ cstring "%s" ++ b) (ha : Literal a) (hb : Literal b)
    (hlen : a.length + b.length < 100) :
    s.printf format [.str (some (line.chars index))] = s.print (a ++ text.drop index ++ b) := by
  have hroom := h.room
  obtain ⟨rest,hrest⟩ := h.chars_eq hindex
  rw [hrest]
  refine s.printf_eq (printf_str hformat ha hb (fun hzero => h.nonzero (List.mem_of_mem_drop hzero)) ?_)
  rw [List.length_drop]
  unfold SHELL_LINE_MAX_SIZE at hroom
  unfold PRINTF_BUFFER_SIZE
  omega

namespace Refines
variable {guard : ℕ → Bytes} {s : State} {e : Editor} {c : UInt8} {turns : ℕ}

theorem follow_move {k : ℕ} {cs : List UInt8} (h : Refines guard s e) (hk : k ≤ e.text.length) (hcs : Complete cs)
    (hshows : ∀ pre t,Showing pre e.text e.cursor t → Showing pre e.text k (t.feed cs)) :
    Follows guard s e ({ s with cursor := k }.print cs) { e with cursor := k } :=
  ⟨(h.move hk).print cs,rfl,rfl,rfl,rfl,rfl,fun _ => rfl,cs,rfl,hcs,
    fun t ht => ht.imp fun pre => hshows (pre ++ prompt) t⟩

theorem left (h : Refines guard s e) : Follows guard s e (shellProcessLeft s) e.left := by
  have hcursor := h.valid.cursor
  have hroom := h.valid.text.1
  unfold shellProcessLeft
  by_cases hzero : e.cursor = 0
  · have hsame : e.left = e := by rw [Editor.left,hzero,Nat.zero_sub,← hzero]
    rw [if_pos (h.cursor.trans hzero),hsame]
    exact .refl h
  · have hk : sub s.cursor 1 = e.cursor - 1 := by
      rw [h.cursor]
      exact sub_of_le (by omega) (by omega)
    rw [if_neg (by rw [h.cursor]; exact hzero),hk,State.printf_eq _ printf_back]
    refine h.follow_move (by omega) .cursorBack fun pre t ht => ?_
    rw [show e.cursor = e.cursor - 1 + 1 by omega] at ht
    exact ht.cursorBack

theorem right (h : Refines guard s e) : Follows guard s e (shellProcessRight s).2 e.right := by
  have hcursor := h.valid.cursor
  have hroom := h.valid.text.1
  unfold shellProcessRight Editor.right
  rw [h.cursor,h.line.size]
  by_cases hend : e.cursor ≥ e.text.length
  · have hsame : min (e.cursor + 1) e.text.length = e.cursor := by omega
    rw [if_pos hend,hsame]
    exact .refl h
  · have hk : add e.cursor 1 = e.cursor + 1 := add_of_lt (by omega)
    rw [if_neg hend,hk,State.printf_eq _ printf_forward,Nat.min_eq_left (by omega)]
    exact h.follow_move (by omega) .cursorForward fun pre t ht => ht.cursorForward

theorem right_error (h : Refines guard s e) :
    (shellProcessRight s).1 = if e.cursor < e.text.length then none else some .again := by
  unfold shellProcessRight
  rw [h.cursor,h.line.size]
  split_ifs <;> first | rfl | omega

theorem backspace (h : Refines guard s e) : Follows guard s e (shellProcessBackspace s) e.backspace := by
  have hcursor := h.valid.cursor
  have hroom := h.valid.text.1
  have hvalid := h.valid.backspace
  unfold shellProcessBackspace
  unfold Editor.backspace at hvalid ⊢
  by_cases hzero : e.cursor = 0
  · have herror : shellLineErase (shellHistoryGetNewest s) (sub s.cursor 1) = .error .inval := by
      have hlast : sub 0 1 = 2 ^ 32 - 1 := by decide
      rw [h.cursor,hzero,hlast]
      exact if_pos (by rw [h.line.size]; omega)
    rw [herror,if_pos hzero]
    exact .refl h
  · obtain ⟨k,hk⟩ : ∃ k,e.cursor = k + 1 := ⟨e.cursor - 1,by omega⟩
    have hindex : sub s.cursor 1 = k := by
      rw [h.cursor,hk]
      exact sub_of_le (by omega) (by omega)
    obtain ⟨line,hline,hholds⟩ := h.line.erase (by omega : k < e.text.length)
    have hprint := hholds.printf_chars { s.setNewest line with cursor := k } "\x08%s " k (a := [0x08]) (b := [0x20])
      (by simp; omega) (by decide) (by decide) (by decide) (by decide)
    rw [List.drop_append,List.drop_take_self,List.length_take,Nat.min_eq_left (by omega : k ≤ e.text.length),
      Nat.sub_self,List.nil_append,List.drop_zero] at hprint
    have hcount : add (sub line.size k) 1 = e.text.length - k := by
      rw [hholds.size,sub_of_le (by simp; omega) (by simp; omega),add_of_lt (by simp; omega)]
      simp
      omega
    rw [if_neg hzero,hk,Nat.add_sub_cancel] at hvalid ⊢
    rw [hindex,hline]
    simp only [hprint]
    refine ⟨((h.edit hholds hvalid).print _).print _,rfl,rfl,rfl,rfl,rfl,fun _ => rfl,
      ([0x08] ++ e.text.drop (k + 1) ++ [0x20]) ++ List.replicate (e.text.length - k) 0x08,?_,?_,?_⟩
    · simp [putBackspaces,State.print,State.setNewest,hcount]
    · refine Complete.append (.of_write fun c hc => ?_) (backspaces_complete _)
      simp only [List.mem_append,List.mem_singleton] at hc
      rcases hc with (rfl | hc) | rfl
      · exact .inr (.inr rfl)
      · exact .inl (h.valid.text.2 c (List.mem_of_mem_drop hc))
      · exact .inl (by decide)
    · rintro t ⟨pre,ht⟩
      rw [hk] at ht
      exact ⟨pre,showing_backspace ht (by omega) h.valid.text.2⟩

theorem rawChar_full (h : Refines guard s e) (hc : isPrint c = true) (hfull : e.text.length + 1 = SHELL_LINE_MAX_SIZE) :
    shellProcessRawChar s c = (some .nomem,s.printf "\nshell: line too long\n" []) := by
  have hnonzero : c ≠ 0 := by
    rintro rfl
    exact absurd hc (by decide)
  have hinsert := h.line.insert (show s.cursor ≤ e.text.length by rw [h.cursor]; exact h.valid.cursor) hnonzero
  rw [if_pos hfull] at hinsert
  rw [shellProcessRawChar,hinsert]

theorem rawChar (h : Refines guard s e) (hc : isPrint c = true) (hroom : e.text.length + 1 < SHELL_LINE_MAX_SIZE) :
    ∃ s',shellProcessRawChar s c = (none,s') ∧ Follows guard s e s' (e.insert c) := by
  have hcursor := h.valid.cursor
  have hvalid := h.valid.insert hc hroom
  have hnonzero : c ≠ 0 := by
    rintro rfl
    exact absurd hc (by decide)
  have hinsert := h.line.insert hcursor hnonzero
  unfold SHELL_LINE_MAX_SIZE at hroom hinsert
  rw [if_neg (by omega)] at hinsert
  obtain ⟨line,hline,hholds⟩ := hinsert
  have hsize : line.size = e.text.length + 1 := by
    rw [hholds.size]
    simp
    omega
  have hnext : add e.cursor 1 = e.cursor + 1 := add_of_lt (by omega)
  unfold shellProcessRawChar
  rw [h.cursor,hline]
  simp only [hnext,hsize]
  by_cases hend : e.cursor = e.text.length
  · rw [if_pos (by omega)]
    refine ⟨_,rfl,(h.edit hholds hvalid).print _,rfl,rfl,rfl,rfl,rfl,fun _ => rfl,[c],rfl,?_,?_⟩
    · exact typed_complete (by simpa using hc)
    · rintro t ⟨pre,ht⟩
      refine ⟨pre,?_⟩
      rw [hend] at ht
      have happend := showing_append ht hc
      simpa [Editor.insert,hend] using happend
  · rw [if_neg (by omega)]
    have hback : sub (e.cursor + 1) 1 = e.cursor := sub_of_le (by omega) (by omega)
    have hprint := hholds.printf_chars { s.setNewest line with cursor := e.cursor + 1 } "%s" e.cursor (a := [])
      (b := []) (by simp; omega) (by decide) (by decide) (by decide) (by decide)
    rw [List.drop_append,List.drop_take_self,List.length_take,Nat.min_eq_left hcursor,Nat.sub_self,List.nil_append,
      List.nil_append,List.drop_zero,List.append_nil] at hprint
    have hcount : sub (e.text.length + 1) (e.cursor + 1) = e.text.length - e.cursor := by
      rw [sub_of_le (by omega) (by omega)]
      omega
    simp only [hback,hprint]
    refine ⟨_,rfl,((h.edit hholds hvalid).print _).print _,rfl,rfl,rfl,rfl,rfl,fun _ => rfl,
      (c :: e.text.drop e.cursor) ++ List.replicate (e.text.length - e.cursor) 0x08,?_,?_,?_⟩
    · simp [putBackspaces,State.print,State.setNewest,hcount]
    · refine Complete.append (typed_complete fun d hd => ?_) (backspaces_complete _)
      rcases List.mem_cons.mp hd with rfl | hd
      · exact hc
      · exact h.valid.text.2 d (List.mem_of_mem_drop hd)
    · rintro t ⟨pre,ht⟩
      exact ⟨pre,showing_insert ht hcursor h.valid.text.2 hc⟩

/-! ## Loops -/

theorem leftTo {k : ℕ} (h : Refines guard s e) (hk : k ≤ e.cursor) (hturns : 64 ≤ turns) :
    ∃ s',whileLoop (fun s : State => s.cursor ≠ k) shellProcessLeft turns s = some s' ∧
      Follows guard s e s' { e with cursor := k } := by
  have hcursor := h.valid.cursor
  have hroom := h.valid.text.1
  obtain ⟨s',hrun,hs'⟩ := whileLoop_counted (fun s : State => s.cursor ≠ k) shellProcessLeft
    (fun n s' => Follows guard s e s' { e with cursor := k + n })
    (fun n s' h' => by
      have hn : s'.cursor = k + (n + 1) := h'.refines.cursor
      refine ⟨by simp [hn],?_⟩
      have hleft := h'.trans h'.refines.left
      exact hleft)
    (fun s' h' => by
      have hn : s'.cursor = k := h'.refines.cursor
      simp [hn])
    (by rw [Nat.add_sub_cancel' hk]; exact Follows.refl h) (by omega : e.cursor - k < turns)
  exact ⟨s',hrun,hs'⟩

theorem home (h : Refines guard s e) (hturns : 64 ≤ turns) :
    ∃ s',shellEscSeqHome turns s = some s' ∧ Follows guard s e s' e.home :=
  h.leftTo (Nat.zero_le _) hturns

theorem toEnd (h : Refines guard s e) (hturns : 64 ≤ turns) :
    ∃ s',shellEscSeqEnd turns s = some s' ∧ Follows guard s e s' e.toEnd := by
  have hcursor := h.valid.cursor
  have hroom := h.valid.text.1
  unfold shellEscSeqEnd
  rw [h.line.size]
  obtain ⟨s',hrun,k,hk,hs'⟩ := whileLoop_counted (fun s : State => s.cursor < e.text.length)
    (fun s => (shellProcessRight s).2)
    (fun n s' => ∃ k,k + n = e.text.length ∧ Follows guard s e s' { e with cursor := k })
    (fun n s' ⟨k,hk,h'⟩ => by
      have hn : s'.cursor = k := h'.refines.cursor
      refine ⟨by simp [hn]; omega,k + 1,by omega,?_⟩
      have hright := h'.trans h'.refines.right
      rwa [Editor.right,Nat.min_eq_left (by simp; omega)] at hright)
    (fun s' ⟨k,hk,h'⟩ => by
      have hn : s'.cursor = k := h'.refines.cursor
      simp [hn]
      omega)
    ⟨e.cursor,by omega,Follows.refl h⟩ (by omega : e.text.length - e.cursor < turns)
  rw [Nat.add_zero] at hk
  subst hk
  exact ⟨s',hrun,hs'⟩

theorem delete (h : Refines guard s e) : Follows guard s e (shellEscSeqDel s) e.delete := by
  have hright := h.right
  have herror := h.right_error
  unfold shellEscSeqDel Editor.delete
  cases hrun : shellProcessRight s with
  | mk error s' =>
    rw [hrun] at hright herror
    simp only at hright herror
    by_cases hlt : e.cursor < e.text.length
    · rw [if_pos hlt] at herror ⊢
      subst herror
      exact hright.trans hright.refines.backspace
    · have hsame : e.right = e := by rw [Editor.right,Nat.min_eq_right (by omega),← Nat.le_antisymm h.valid.cursor (by omega)]
      rw [if_neg hlt] at herror ⊢
      rw [hsame] at hright
      subst herror
      exact hright

theorem iterate_print (s : State) (cs : List UInt8) (n : ℕ) :
    (State.print · cs)^[n] s = s.print (List.replicate n cs).flatten := by
  induction n generalizing s with
  | zero => simp [State.print]
  | succ n ih =>
    rw [Function.iterate_succ_apply,ih]
    simp [State.print,List.replicate_succ]

theorem erase_eq (h : Refines guard s e) (hturns : 64 ≤ turns) :
    shellErase turns s = some { s.print (erasure e.text.length e.cursor) with cursor := 0 } := by
  have hcursor := h.valid.cursor
  have hroom := h.valid.text.1
  unfold shellErase
  rw [h.line.size]
  obtain ⟨s',hrun,k,hk,hle,rfl⟩ := whileLoop_counted (s := s) (fun s : State => s.cursor ≠ e.text.length)
    (fun s => { putchar s ' '.toUInt8 with cursor := add s.cursor 1 })
    (fun n s' => ∃ k,k + n = e.text.length ∧ e.cursor ≤ k ∧
      s' = { s.print (List.replicate (k - e.cursor) 0x20) with cursor := k })
    (fun n s' ⟨k,hk,hle,hs'⟩ => by
      subst hs'
      refine ⟨by simp; omega,k + 1,by omega,by omega,?_⟩
      have hnext : add k 1 = k + 1 := add_of_lt (by omega)
      rw [show k + 1 - e.cursor = (k - e.cursor) + 1 by omega,List.replicate_succ']
      simp [putchar,State.print,hnext]
      rfl)
    (fun s' ⟨k,hk,hle,hs'⟩ => by
      subst hs'
      simp
      omega)
    ⟨e.cursor,by omega,Nat.le_refl _,by simp [State.print,← h.cursor]⟩ (by omega : e.text.length - e.cursor < turns)
  rw [Nat.add_zero] at hk
  subst hk
  have hrubouts : (State.printf · "\x08 \x08" []) = (State.print · [0x08,0x20,0x08]) :=
    funext fun s => s.printf_eq printf_rubout
  dsimp only [bind,Option.bind] at hrun ⊢
  rw [hrun]
  dsimp only
  rw [hrubouts,iterate_print]
  simp [State.print,erasure]

theorem restore_eq {g : Bytes} {text : List UInt8} (h : (shellHistoryGetNewest s).Holds g text) :
    shellRestore s = { s.print text with cursor := text.length } := by
  have hprint := h.printf_chars s "%s" 0 (a := []) (b := []) (Nat.zero_le _) (by decide) (by decide) (by decide) (by decide)
  unfold shellRestore
  dsimp only
  rw [hprint,h.size]
  simp

/-- Nothing but the history is changed. -/
structure Keeps (s s' : State) : Prop where
  newest : s'.newest = s.newest
  escape : s'.escape = s.escape
  seq : s'.seq = s.seq
  registry : s'.registry = s.registry
  ran : s'.ran = s.ran
  fault : s'.fault = s.fault
  out : s'.out = s.out

/-- The text is erased, replaced with another one, and printed. -/
theorem follow_replace {f : State → State} {e' : Editor} (h : Refines guard s e) (hturns : 64 ≤ turns)
    (hf : ∀ s,Refines guard s e.home → Refines guard { f s with cursor := e'.text.length } e') (hkeeps : ∀ s,Keeps s (f s)) :
    ∃ s',(shellErase turns s).bind (fun s => some (shellRestore (f s))) = some s' ∧ Follows guard s e s' e' := by
  rw [h.erase_eq hturns,Option.bind_some]
  generalize hcs : erasure e.text.length e.cursor = cs
  have hkeep := hkeeps { s.print cs with cursor := 0 }
  have hnext := hf { s.print cs with cursor := 0 } ((h.print cs).move (Nat.zero_le _))
  refine ⟨_,rfl,?_⟩
  rw [restore_eq (show (shellHistoryGetNewest (f { s.print cs with cursor := 0 })).Holds _ _ from hnext.line)]
  refine ⟨hnext.congr rfl rfl rfl rfl rfl,hkeep.newest,hkeep.escape,hkeep.seq,hkeep.registry,hkeep.ran,
    fun _ => hkeep.fault,cs ++ e'.text,?_,?_,?_⟩
  · have hout := hkeep.out
    simp only [State.print] at hout ⊢
    rw [hout,List.append_assoc]
  · exact (hcs ▸ erasure_complete _ _ : Complete cs).append (typed_complete hnext.valid.text.2)
  · rintro t ⟨pre,ht⟩
    have hcursor : e'.cursor = e'.text.length := hnext.cursor.symm
    have herase := showing_erase ht h.valid.cursor
    rw [hcs] at herase
    have hprint := herase.print e'.text (Nat.le_refl _) hnext.valid.text.2
    refine ⟨pre,?_⟩
    rw [feed_append,hcursor]
    simpa using hprint

theorem up (h : Refines guard s e) (hturns : 64 ≤ turns) :
    ∃ s',shellProcessUp turns s = some s' ∧ Follows guard s e s' e.up := by
  refine h.follow_replace hturns (fun s hs => ?_) fun s => ?_
  · have hback := hs.back
    exact hback
  · unfold shellHistoryBack
    split_ifs
    · exact ⟨rfl,rfl,rfl,rfl,rfl,rfl,rfl⟩
    · exact ⟨rfl,rfl,rfl,rfl,rfl,rfl,rfl⟩

theorem down (h : Refines guard s e) (hturns : 64 ≤ turns) :
    ∃ s',shellProcessDown turns s = some s' ∧ Follows guard s e s' e.down := by
  refine h.follow_replace hturns (fun s hs => ?_) fun s => ?_
  · have hforward := hs.forward
    exact hforward
  · unfold shellHistoryForward
    dsimp only
    split_ifs
    · exact ⟨rfl,rfl,rfl,rfl,rfl,rfl,rfl⟩
    · exact ⟨rfl,rfl,rfl,rfl,rfl,rfl,rfl⟩
    · exact ⟨rfl,rfl,rfl,rfl,rfl,rfl,rfl⟩

end Refines

end X1.Shell
