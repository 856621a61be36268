import X1.Fmt.Safe
import X1.Fmt.ScanNumber

/-! # What fmt.c scans

A conversion may have consumed the NUL of the string when it sees it, or when its width is
used up, but it then restores it before anything else is read. So `fmt_vsscanf` stays in
its strings, its buffer for digits holds nothing but digits, and it ends.
-/
namespace X1.Fmt
open X1.Checked

/-- The NUL of the string is still ahead. -/
def Live (s : Sscanf) : Prop := 0 ∈ s.str.rest

/-- A character has been consumed, which may be the NUL. -/
def Pending (s : Sscanf) : Prop := ∃ b p,s.str.passed = b :: p ∧ 0 ∈ b :: s.str.rest

/-- A character that was consumed, with the state after it. -/
def Consumed (c : UInt8) (s : Sscanf) : Prop := Pending s ∧ (c ≠ 0 → c ≠ eofChar → Live s)

section
variable {s s' : Sscanf} {c : UInt8} {g : Digits} {format : Ptr} {turns : ℕ}

theorem consumeString_step (hs : Live s) :
    Safe Benign (consumeString s) fun r => r.2.base = s.base ∧
      ∃ b,s.str.rest = b :: r.2.str.rest ∧ r.2.str.passed = b :: s.str.passed ∧
        (r.1 = b ∨ s.checkWidth = true ∧ r.1 = eofChar) := by
  unfold consumeString Cursor.consume
  unfold Live at hs
  cases hrest : s.str.rest with
  | nil => simp [hrest] at hs
  | cons b rest =>
    simp only [bind,Except.bind]
    split_ifs with hwidth
    · exact ⟨rfl,b,rfl,rfl,.inr ⟨hwidth,rfl⟩⟩
    · exact ⟨rfl,b,rfl,rfl,.inl rfl⟩
    · exact ⟨rfl,b,rfl,rfl,.inl rfl⟩

theorem consumed_of_step {b : UInt8} {w : Prop} (hs : Live s) (hrest : s.str.rest = b :: s'.str.rest)
    (hpassed : s'.str.passed = b :: s.str.passed) (hchar : c = b ∨ w ∧ c = eofChar) : Consumed c s' := by
  unfold Live at hs
  rw [hrest] at hs
  refine ⟨⟨b,_,hpassed,hs⟩,fun hzero heof => ?_⟩
  have hb := hchar.resolve_right fun h => heof h.2
  exact (List.mem_cons.mp hs).resolve_left fun h => hzero (hb.trans h.symm)

theorem consumeString_safe (hs : Live s) :
    Safe Benign (consumeString s) fun r => r.2.base = s.base ∧ Consumed r.1 r.2 ∧
      r.2.str.rest.length < s.str.rest.length := by
  refine (consumeString_step hs).mono fun r hr => ?_
  obtain ⟨hbase,b,hrest,hpassed,hchar⟩ := hr
  exact ⟨hbase,consumed_of_step hs hrest hpassed hchar,by simp [hrest]⟩

theorem restoreString_step {b : UInt8} (hrest : s.str.rest = b :: s'.str.rest)
    (hpassed : s'.str.passed = b :: s.str.passed) : restoreString s' = .ok { s' with str := s.str } := by
  have hback : (⟨s.str.passed,b :: s'.str.rest⟩ : Cursor) = s.str := by rw [← hrest]
  unfold restoreString Cursor.restore
  rw [hpassed]
  simp only [bind,Except.bind,pure,Except.pure,hback]

theorem restoreString_safe (hs : Pending s) : Safe Benign (restoreString s) Live := by
  obtain ⟨b,p,hpassed,hmem⟩ := hs
  unfold restoreString Cursor.restore
  rw [hpassed]
  exact hmem

theorem skip_safe {passed : List UInt8} {rest : Ptr} (h : 0 ∈ rest) :
    Safe Benign (skip passed rest) fun r => 0 ∈ r.rest := by
  induction rest generalizing passed with
  | nil => cases h
  | cons c rest ih =>
    unfold skip
    split_ifs with hspace
    · refine ih ((List.mem_cons.mp h).resolve_left ?_)
      rintro rfl
      exact absurd hspace (by decide)
    · exact h

theorem skipSpace_safe (hs : Live s) : Safe Benign (skipSpace s) Live := by
  unfold skipSpace
  exact (skip_safe hs).bind fun r hr => hr

theorem storeArg_safe (hs : Live s) (x : Stored) : Safe Benign (storeArg s x) Live := by
  unfold storeArg
  split
  · exact .inl rfl
  · exact hs

theorem discardChar_safe (hs : Live s) (hc : c ≠ 0) (hwidth : s.checkWidth = false ∨ c ≠ eofChar) :
    Safe Benign (discardChar s c) fun r => r.1 = true → Live r.2 := by
  unfold discardChar
  split_ifs with hspace
  · exact (skipSpace_safe hs).bind fun r hr _ => hr
  · refine (consumeString_step hs).bind fun r hr => ?_
    obtain ⟨c2,s'⟩ := r
    obtain ⟨-,b,hrest,-,hchar⟩ := hr
    dsimp only at hrest hchar ⊢
    by_cases hsame : c = c2
    · rw [if_neg (by simpa using hsame)]
      intro _
      have hb : c2 = b := hchar.resolve_right fun h =>
        hwidth.elim (fun hw => by simp [hw] at h) (fun hw => hw (hsame.trans h.2))
      unfold Live at hs ⊢
      rw [hrest] at hs
      exact (List.mem_cons.mp hs).resolve_left fun h => hc ((hsame.trans hb).trans h.symm)
    · rw [if_pos hsame]
      split_ifs
      · exact fun h => by cases h
      · exact fun h => by cases h

/-! ## Numbers -/

theorem scanSign_safe (hs : Live s) : Safe Benign (scanSign s) fun r => Consumed r.1 r.2.2 := by
  unfold scanSign
  refine (consumeString_safe hs).bind fun r hr => ?_
  obtain ⟨c,s'⟩ := r
  dsimp only at hr ⊢
  split_ifs with hsign
  · have hlive := hr.2.1.2 (by rw [hsign]; decide) (by rw [hsign]; decide)
    exact (consumeString_safe hlive).bind fun r' hr' => hr'.2.1
  · exact hr.2.1

theorem scanMark_safe (hs : Consumed c s) : Safe Benign (scanMark c s) fun r => Consumed r.1 r.2 := by
  unfold scanMark
  split_ifs with hzero
  · have hlive := hs.2 (by rw [hzero]; decide) (by rw [hzero]; decide)
    refine (consumeString_step hlive).bind fun r hr => ?_
    obtain ⟨c2,s'⟩ := r
    obtain ⟨hbase,b,hrest,hpassed,hchar⟩ := hr
    dsimp only at hbase hrest hpassed hchar ⊢
    have hnext := consumed_of_step hlive hrest hpassed hchar
    -- a zero that is restored stands before a character that is still to come
    have hback (n : ℕ) : Safe Benign (restoreString { s' with base := n }) fun r => Consumed '0'.toUInt8 r := by
      have hstep : restoreString { s' with base := n } = .ok { s' with base := n, str := s.str } :=
        restoreString_step hrest hpassed
      rw [hstep]
      exact ⟨hs.1,fun _ _ => hlive⟩
    have hset (n : ℕ) : (if s'.base = 0 then { s' with base := n } else s') =
        { s' with base := if s'.base = 0 then n else s'.base } := by split_ifs <;> rfl
    simp only [hset]
    generalize (if s'.base = 0 then 16 else s'.base) = n₁
    generalize (if s'.base = 0 then 8 else s'.base) = n₂
    by_cases hx : c2 = 'x'.toUInt8 ∨ c2 = 'X'.toUInt8
    · rw [if_pos hx]
      have hlive' : Live { s' with base := n₁ } :=
        hnext.2 (by rcases hx with rfl | rfl <;> decide) (by rcases hx with rfl | rfl <;> decide)
      split_ifs
      · exact (consumeString_safe hlive').mono fun r hr => hr.2.1
      · exact (hback n₁).bind fun r hr => hr
    · rw [if_neg hx]
      split_ifs
      · exact (hback n₂).bind fun r hr => hr
      · exact hnext
  · exact hs

theorem baseDigit_spec {base : ℕ} (h : baseDigit base c = true) : c ≠ eofChar ∧ fmtIsxdigit c = true := by
  have hhex : fmtIsxdigit c = true := by
    unfold baseDigit at h
    split_ifs at h
    · simp only [Bool.and_eq_true,decide_eq_true_eq] at h
      have hnine : c ≤ '9'.toUInt8 := UInt8.le_trans h.2 (by decide)
      simp [fmtIsxdigit,fmtIsdigit,h.1,hnine]
    · exact h
    · simp [fmtIsxdigit,h]
  refine ⟨?_,hhex⟩
  rintro rfl
  exact absurd hhex (by decide)

/-- The digits that have been collected. -/
def Hex (g : Digits) : Prop := ∀ b ∈ g.buf,fmtIsxdigit b = true

theorem hex_collect (hg : Hex g) (hc : fmtIsxdigit c = true) : Hex (collect g c) := by
  unfold collect Hex at *
  split_ifs
  · intro b hb
    rcases List.mem_append.mp hb with hb | hb
    · exact hg b hb
    · rw [List.mem_singleton.mp hb]
      exact hc
  · intro b hb
    rw [List.mem_singleton.mp hb]
    decide
  · exact hg

theorem collectLoop_safe (hs : Consumed c s) (hg : Hex g) (hturns : s.str.rest.length < turns) :
    Safe Benign (collectLoop turns c g s) fun r => Hex r.2.1 ∧ Pending r.2.2 := by
  induction turns generalizing c g s with
  | zero => omega
  | succ turns ih =>
    unfold collectLoop
    split_ifs with hdigit
    · obtain ⟨heof,hhex⟩ := baseDigit_spec hdigit.2
      refine (consumeString_safe (hs.2 hdigit.1 heof)).bind fun r hr => ?_
      exact ih hr.2.1 (hex_collect hg hhex) (by omega)
    · exact ⟨hg,hs.1⟩

theorem accumulate_safe {bits base : ℕ} (ds : List UInt8) (hds : ∀ b ∈ ds,fmtIsxdigit b = true) (n m : ℕ) :
    Safe Benign (accumulate bits base ds n m) fun _ => True := by
  induction ds generalizing n m with
  | nil => trivial
  | cons c ds ih =>
    unfold accumulate
    rw [fmtAtoi_eq (hds c (by simp))]
    simp only [bind,Except.bind]
    split_ifs
    · trivial
    · exact ih (fun b hb => hds b (List.mem_cons_of_mem _ hb)) _ _

theorem scanInt_safe (hs : Live s) : Safe Benign (scanInt s) fun r => r.1 = true → Live r.2 := by
  unfold scanInt
  refine (skipSpace_safe hs).bind fun s₁ h₁ => ?_
  refine (scanSign_safe h₁).bind fun r₂ h₂ => ?_
  refine (scanMark_safe h₂).bind fun r₃ h₃ => ?_
  refine (collectLoop_safe h₃ (by simp [Hex]) (Nat.lt_succ_self _)).bind fun r₄ h₄ => ?_
  refine (restoreString_safe h₄.2).bind fun s₅ h₅ => ?_
  by_cases hdiscard : s₅.discard = true
  · rw [if_pos hdiscard]
    exact fun _ => h₅
  rw [if_neg hdiscard]
  by_cases hnone : r₄.2.1.i = 0 ∧ r₄.1 = 0
  · rw [if_pos hnone]
    exact fun h => by cases h
  · rw [if_neg hnone]
    have hbuf : ∀ b ∈ (if r₄.2.1.i = 0 then ['0'.toUInt8] else r₄.2.1.buf).reverse,fmtIsxdigit b = true := by
      intro b hb
      rw [List.mem_reverse] at hb
      split_ifs at hb
      · rw [List.mem_singleton.mp hb]
        decide
      · exact h₄.1 b hb
    refine (accumulate_safe _ hbuf 0 1).bind fun r₆ _ => ?_
    exact (storeArg_safe h₅ _).bind fun s₇ h₇ _ => h₇

/-! ## Characters and strings -/

theorem charLoop_safe {left : ℕ} {cs : List UInt8} (hs : Live s) :
    Safe Benign (charLoop left cs s) fun r => if r.1 then Live r.2.2 else Pending r.2.2 := by
  induction left generalizing cs s with
  | zero => exact hs
  | succ left ih =>
    unfold charLoop
    refine (consumeString_safe hs).bind fun r hr => ?_
    obtain ⟨c,s'⟩ := r
    dsimp only at hr ⊢
    split_ifs with hend
    · exact hr.2.1.1
    · obtain ⟨hzero,heof⟩ := not_or.mp hend
      exact ih (hr.2.1.2 hzero heof)

theorem scanChar_safe (hs : Live s) : Safe Benign (scanChar s) fun r => r.1 = true → Live r.2 := by
  unfold scanChar
  refine (charLoop_safe hs).bind fun r hr => ?_
  obtain ⟨filled,cs,s'⟩ := r
  dsimp only at hr ⊢
  have hfinish (s₂ : Sscanf) (h₂ : Live s₂) :
      Safe Benign (if s₂.discard then pure (true,s₂) else do
        let s ← storeArg s₂ (.chars cs)
        if cs ≠ [] then pure (true,reportConv s) else pure (true,s)) fun r => r.1 = true → Live r.2 := by
    split_ifs
    · exact fun _ => h₂
    · exact (storeArg_safe h₂ _).bind fun s₃ h₃ => fun _ => h₃
    · exact (storeArg_safe h₂ _).bind fun s₃ h₃ => fun _ => h₃
  cases filled with
  | true => exact hfinish s' hr
  | false => exact (restoreString_safe hr).bind hfinish

theorem strLoop_safe {cs : List UInt8} (hs : Live s) (hturns : s.str.rest.length < turns) :
    Safe Benign (strLoop turns cs s) fun r => Pending r.2 := by
  induction turns generalizing cs s with
  | zero => omega
  | succ turns ih =>
    unfold strLoop
    refine (consumeString_safe hs).bind fun r hr => ?_
    obtain ⟨c,s'⟩ := r
    dsimp only at hr ⊢
    split_ifs with hend
    · exact hr.2.1.1
    · obtain ⟨hzero,hrest⟩ := not_or.mp hend
      exact ih (hr.2.1.2 hzero (not_or.mp hrest).2) (by omega)

theorem scanStr_safe (hs : Live s) : Safe Benign (scanStr s) fun r => r.1 = true → Live r.2 := by
  unfold scanStr
  refine (skipSpace_safe hs).bind fun s₁ h₁ => ?_
  refine (strLoop_safe h₁ (Nat.lt_succ_self _)).bind fun r₂ h₂ => ?_
  refine (restoreString_safe h₂).bind fun s₃ h₃ => ?_
  split_ifs
  · exact fun h => by cases h
  · exact (storeArg_safe h₃ _).bind fun _ _ h => by cases h
  · exact fun _ => h₃
  · exact (storeArg_safe h₃ _).bind fun s₄ h₄ _ => h₄

theorem scanProduce_safe (hs : Live s) : Safe Benign (scanProduce s) fun r => r.1 = true → Live r.2 := by
  unfold scanProduce
  cases s.specifier with
  | int => exact scanInt_safe hs
  | char => exact scanChar_safe hs
  | str => exact scanStr_safe hs
  | nrchars =>
    unfold scanNrchars
    exact (checkLength_safe _).bind fun _ _ => (storeArg_safe hs _).bind fun s' h' _ => h'
  | percent =>
    exact (skipSpace_safe hs).bind fun s' h' => discardChar_safe h' (by decide) (.inr (by decide))
  | invalid => exact fun h => by cases h

/-! ## The format -/

theorem scanFlags_safe {discard : Bool} (hf : 0 ∈ format) :
    Safe Benign (scanFlags discard format) fun r => After format r.2 := by
  induction format generalizing discard with
  | nil => cases hf
  | cons c format ih =>
    unfold scanFlags
    split_ifs with hstar
    · have hc : c ≠ 0 := by rw [hstar]; decide
      exact (ih ((After.cons hc).mem hf)).mono fun r hr => (After.cons hc).trans hr
    · exact After.refl _

theorem scanModifier_safe (hf : 0 ∈ format) : Safe Benign (scanModifier format) fun r => After format r.2 := by
  unfold scanModifier
  refine (fmtConsume_safe hf).bind fun r hr => ?_
  obtain ⟨c,rest⟩ := r
  dsimp only at hr ⊢
  by_cases hc : c = 0
  · subst hc
    exact After.refl format
  have hrest := hr.2 hc
  split_ifs with hh hl hz ht
  · refine (fmtConsume_safe (hrest.mem hf)).bind fun r' hr' => ?_
    split_ifs with hsame
    · exact hrest.trans (hr'.2 (hsame ▸ hc))
    · exact hrest
  · refine (fmtConsume_safe (hrest.mem hf)).bind fun r' hr' => ?_
    split_ifs with hsame
    · exact hrest.trans (hr'.2 (hsame ▸ hc))
    · exact hrest
  · exact hrest
  · exact hrest
  · exact After.refl format

theorem scanSpecify_str (h : scanSpecify c s = some s') : c ≠ 0 ∧ s'.str = s.str := by
  constructor
  · rintro rfl
    cases h
  · unfold scanSpecify at h
    repeat' refine of_ite_eq_some h (fun h => ?_) (fun h => ?_)
    all_goals
      cases h
      try rfl

theorem scanDirective_safe (hf : 0 ∈ format) :
    Safe Benign (scanDirective format s) fun r => r.1.str = s.str ∧ After format r.2 := by
  unfold scanDirective
  refine (scanFlags_safe hf).bind fun r₁ h₁ => ?_
  refine (consumeNumber_safe (h₁.mem hf) (by decide)).bind fun r₂ h₂ => ?_
  have ha₂ := h₁.trans h₂.2
  refine (scanModifier_safe (ha₂.mem hf)).bind fun r₃ h₃ => ?_
  have ha₃ := ha₂.trans h₃
  refine (fmtConsume_safe (ha₃.mem hf)).bind fun r₄ h₄ => ?_
  obtain ⟨c,rest⟩ := r₄
  dsimp only at h₄ ⊢
  split
  · next s' hspec =>
    obtain ⟨hc,hstr⟩ := scanSpecify_str hspec
    exact ⟨hstr,ha₃.trans (h₄.2 hc)⟩
  · exact ⟨rfl,ha₃⟩

theorem vsscanfLoop_safe (hturns : format.length ≤ turns) (hf : 0 ∈ format) (hs : Live s) :
    Safe Benign (vsscanfLoop turns format s) fun _ => True := by
  induction turns generalizing format s with
  | zero =>
    cases format with
    | nil => cases hf
    | cons => cases hturns
  | succ turns ih =>
    unfold vsscanfLoop
    cases format with
    | nil => cases hf
    | cons c format =>
      rw [List.length_cons] at hturns
      simp only [fmtConsume,bind,Except.bind]
      split_ifs with hend hchar
      · trivial
      · refine (discardChar_safe (s := { s with discard := false, checkWidth := false, convSigned := false }) hs hend
          (.inl rfl)).bind fun r hr => ?_
        split_ifs with hgo
        · exact ih (by omega) ((After.cons hend).mem hf) (hr hgo)
        · trivial
      · have hrest := (After.cons hend).mem hf
        refine (scanDirective_safe hrest).bind fun r hr => ?_
        have hlive : Live r.1 := by
          unfold Live
          rw [hr.1]
          exact hs
        refine (scanProduce_safe hlive).bind fun r' hr' => ?_
        have hlen := hr.2.length_le
        split_ifs with hgo
        · exact ih (by omega) (hr.2.mem hrest) (hr' hgo)
        · trivial

/-- With a terminated string and a terminated format, `fmt_vsscanf` never reads past a NUL, nor before the
string, always ends, and never fails the assertion on its digits: what is left is an argument that is missing, and a
width or a count that is no `int`. -/
theorem fmtVsscanf_safe (str format : Ptr) (args : ℕ) (hstr : 0 ∈ str) (hformat : 0 ∈ format) :
    ∀ fault,fmtVsscanf str format args = .error fault → fault = .argument ∨ fault = .overflow := by
  intro fault hfault
  have hloop := vsscanfLoop_safe (s := { str := ⟨[],str⟩, args := args }) (Nat.le_refl format.length) hformat hstr
  have hsafe : Safe Benign (fmtVsscanf str format args) fun _ => True := hloop.bind fun _ _ => trivial
  rw [hfault] at hsafe
  exact hsafe

/-- `"%d"` with a string that ends after a sign -/
theorem fmtVsscanf_safe_sign :
    fmtVsscanf ['-'.toUInt8,0] ['%'.toUInt8,'d'.toUInt8,0] 1 ≠ .error .bounds := by
  intro h
  have := fmtVsscanf_safe ['-'.toUInt8,0] ['%'.toUInt8,'d'.toUInt8,0] 1 (by decide) (by decide) _ h
  simp at this

end

end X1.Fmt
