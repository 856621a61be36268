import X1.I8259.Model

/-! # Masks and deliverable interrupts

After any calls the masks in the chips are those the driver has cached, and the bit of a
line is clear when its IRQ was enabled last. The line of the cascade is enabled by the
initialization, and a caller can disable it like any other: then no IRQ of the slave is
delivered.
-/
namespace X1.I8259

variable {s : State} {calls : List Call} {irq n : ℕ} {id : PicId} {c : Call}

/-! ## Bits of a mask -/

theorem getLsbD_clear {imr : BitVec 8} {i j : ℕ} (hi : i < 8) :
    (imr &&& ~~~(1#8 <<< j)).getLsbD i = (imr.getLsbD i && decide (i ≠ j)) := by
  rw [BitVec.getLsbD_and,BitVec.getLsbD_not,← BitVec.twoPow_eq,BitVec.getLsbD_twoPow]
  by_cases hij : i = j
  · subst hij
    simp [hi]
  · have hji : ¬j = i := fun he => hij he.symm
    simp [hi,hij,hji]

theorem getLsbD_set {imr : BitVec 8} {i j : ℕ} (hi : i < 8) :
    (imr ||| 1#8 <<< j).getLsbD i = (imr.getLsbD i || decide (i = j)) := by
  rw [BitVec.getLsbD_or,← BitVec.twoPow_eq,BitVec.getLsbD_twoPow]
  by_cases hij : i = j
  · subst hij
    simp [hi]
  · have hji : ¬j = i := fun he => hij he.symm
    simp [hij,hji]

/-! ## The lines -/

/-- The controller of an IRQ and its line there. -/
def line (irq : ℕ) : PicId × ℕ := if irq < 8 then (.master,irq) else (.slave,irq - 8)

theorem convert_eq (h : irq < 16) : i8259ConvertGlobalIrq irq = some (line irq) := by
  unfold i8259ConvertGlobalIrq line I8259_NR_IRQS I8259_NR_PICS
  by_cases hlow : irq < 8
  · rw [if_pos hlow,if_pos hlow]
  · rw [if_neg hlow,if_neg hlow,if_pos (by omega)]

theorem line_lt (h : irq < 16) : (line irq).2 < 8 := by
  unfold line
  split
  · assumption
  · change irq - 8 < 8
    omega

theorem line_inj (h : (line irq).1 = (line n).1) (hline : (line irq).2 = (line n).2) : irq = n := by
  unfold line at h hline
  split at h <;> split at h <;> simp_all
  omega

/-- What the calls ask of a line. That of the cascade is enabled from the start. -/
def Enabled (calls : List Call) (irq : ℕ) : Prop :=
  if irq = I8259_IRQ_CASCADE then lastCall calls irq ≠ some (.disable irq)
  else lastCall calls irq = some (.enable irq)

theorem lastCall_append :
    lastCall (calls ++ [c]) n = if c.irq = n then some c else lastCall calls n := by
  unfold lastCall
  rw [List.filter_append]
  by_cases hc : c.irq = n
  · simp [hc]
  · simp [hc]

theorem enabled_append : Enabled (calls ++ [c]) n ↔
    if n = c.irq then c = .enable n else Enabled calls n := by
  unfold Enabled
  rw [lastCall_append]
  by_cases hn : c.irq = n
  · subst hn
    rw [if_pos rfl,if_pos rfl]
    cases c <;> simp [Call.irq]
  · have hne : ¬n = c.irq := fun he => hn he.symm
    simp [hn,hne]

/-! ## The invariant -/

structure Inv (s : State) (calls : List Call) : Prop extends Wired s where
  ports : ∀ id, (s.pics id).dataPort = (i8259Pics id).dataPort
  bits : ∀ n < 16, (s.pics (line n).1).imr.getLsbD (line n).2 = false ↔ Enabled calls n

theorem applyImr_pics {imr : BitVec 8} (h : Inv s calls) (j : PicId) :
    (i8259PicApplyImr (s.setImr id imr) id).pics j = if j =
    id then { s.pics id with imr := imr } else s.pics j := by
  have hport := h.ports id
  cases id <;> simp [i8259PicApplyImr,State.setImr,ioWrite,State.onChip,hport,i8259Pics,
    Function.update_apply]

theorem applyImr_chips {imr : BitVec 8} (h : Inv s calls) (j : PicId) :
    (i8259PicApplyImr (s.setImr id imr) id).chips j =
      if j = id then { s.chips id with mask := imr } else s.chips j := by
  have hport := h.ports id
  have hready := h.ready id
  cases id <;> simp [i8259PicApplyImr,State.setImr,ioWrite,State.onChip,Chip.writeData,hport,hready,
    i8259Pics,Function.update_apply]

theorem Inv.write (h : Inv s calls) (imr : BitVec 8)
    (hself : imr.getLsbD (line c.irq).2 = false ↔ c = .enable c.irq)
    (hothers : ∀ i < 8, i ≠ (line c.irq).2 →
      imr.getLsbD i = (s.pics (line c.irq).1).imr.getLsbD i) :
    Inv (i8259PicApplyImr (s.setImr (line c.irq).1 imr) (line c.irq).1) (calls ++ [c]) := by
  have hwords (j : PicId) :
      ((i8259PicApplyImr (s.setImr (line c.irq).1 imr) (line c.irq).1).chips j).icw2 = (s.chips j).icw2 ∧
      ((i8259PicApplyImr (s.setImr (line c.irq).1 imr) (line c.irq).1).chips j).icw3 =
        (s.chips j).icw3 := by
    rw [applyImr_chips h]
    split
    · next hj => simp [hj]
    · exact ⟨rfl,rfl⟩
  refine ⟨⟨fun j => ?_,fun j => ?_,?_,?_⟩,fun j => ?_,fun n hn => ?_⟩
  · rw [applyImr_chips h]
    split
    · exact h.ready _
    · exact h.ready j
  · rw [applyImr_chips h,applyImr_pics h]
    split
    · rfl
    · exact h.mask j
  · rw [(hwords .master).1,(hwords .slave).1]
    exact h.vectors
  · rw [(hwords .master).2,(hwords .slave).2]
    exact h.cascade
  · rw [applyImr_pics h]
    split
    · next hj =>
      rw [hj]
      exact h.ports _
    · exact h.ports j
  · rw [applyImr_pics h,enabled_append]
    by_cases hnc : n = c.irq
    · subst hnc
      rw [if_pos rfl,if_pos rfl]
      exact hself
    · rw [if_neg hnc,← h.bits n hn]
      split
      · next hid =>
        -- Another line of the same controller.
        have hline : (line n).2 ≠ (line c.irq).2 := fun hl => hnc (line_inj hid hl)
        rw [hid]
        exact Iff.of_eq (congrArg (· = false) (hothers _ (line_lt hn) hline))
      · exact Iff.rfl

theorem Inv.enable (h : Inv s calls) (hirq : irq < 16) :
    ∃ s', i8259IrqEnable s irq = some s' ∧ Inv s' (calls ++ [.enable irq]) := by
  have hline := line_lt hirq
  refine ⟨_,?_,h.write (c := .enable irq) ((s.pics (line irq).1).imr &&& ~~~(1#8 <<< (line irq).2))
    ?_ fun i hi hne => ?_⟩
  · simp [i8259IrqEnable,convert_eq hirq,i8259PicEnableIrq,guard,I8259_NR_IRQS,hline,Call.irq]
  · change (_ &&& ~~~(1#8 <<< (line irq).2)).getLsbD (line irq).2 = false ↔ _
    simp [getLsbD_clear hline,Call.irq]
  · change i ≠ (line irq).2 at hne
    simp [getLsbD_clear hi,hne,Call.irq]

theorem Inv.disable (h : Inv s calls) (hirq : irq < 16) :
    ∃ s', i8259IrqDisable s irq = some s' ∧ Inv s' (calls ++ [.disable irq]) := by
  have hline := line_lt hirq
  refine ⟨_,?_,h.write (c := .disable irq) ((s.pics (line irq).1).imr ||| 1#8 <<< (line irq).2) ?_
    fun i hi hne => ?_⟩
  · simp [i8259IrqDisable,convert_eq hirq,i8259PicDisableIrq,guard,I8259_NR_IRQS,hline,Call.irq]
  · change (_ ||| 1#8 <<< (line irq).2).getLsbD (line irq).2 = false ↔ _
    simp [getLsbD_set hline]
  · change i ≠ (line irq).2 at hne
    simp [getLsbD_set hi,hne,Call.irq]

theorem writeCmd_eq (chips : PicId → Chip) (byte : BitVec 8) :
    i8259PicWriteCmd ⟨i8259Pics,chips⟩ id byte = ⟨i8259Pics,
      Function.update chips id ((chips id).writeCmd byte)⟩ := by
  cases id <;> rfl

theorem writeData_eq (chips : PicId → Chip) (byte : BitVec 8) :
    i8259PicWriteData ⟨i8259Pics,chips⟩ id byte = ⟨i8259Pics,
      Function.update chips id ((chips id).writeData byte)⟩ := by
  cases id <;> rfl

/-- A chip after the four initialization words. -/
def initialized (icw2 icw3 : BitVec 8) : Chip := ⟨.mask,true,false,icw2,icw3,I8259_ICW4_8086,0⟩

theorem writes_eq (c : Chip) (icw2 icw3 : BitVec 8) :
    (((c.writeCmd (I8259_ICW1_INIT ||| I8259_ICW1_ICW4)).writeData icw2).writeData icw3).writeData
      I8259_ICW4_8086 =
      initialized icw2 icw3 := rfl

def initializedChips : PicId → Chip
  | .master => initialized CPU_IDT_VECT_PIC_MASTER (1#8 <<< I8259_IRQ_CASCADE)
  | .slave => initialized CPU_IDT_VECT_PIC_SLAVE (.ofNat 8 I8259_IRQ_CASCADE)

/-- The words of the initialization go where they belong. -/
theorem setup_eq (chips : PicId → Chip) : i8259Setup ⟨i8259Pics,chips⟩ =
    (i8259PicEnableIrq ⟨i8259Pics,initializedChips⟩ .master I8259_IRQ_CASCADE).map fun s =>
      i8259PicApplyImr (i8259PicApplyImr s .master) .slave := by
  simp only [i8259Setup,writeCmd_eq,writeData_eq]
  refine congrArg (fun chips => (i8259PicEnableIrq ⟨i8259Pics,chips⟩ .master I8259_IRQ_CASCADE).map
    fun s => i8259PicApplyImr (i8259PicApplyImr s .master) .slave) ?_
  funext id
  cases id <;> simp [writes_eq,initializedChips]

theorem setup_inv (chips : PicId → Chip) : ∃ s, i8259Setup ⟨i8259Pics,chips⟩ = some s ∧ Inv s [] := by
  rw [setup_eq]
  refine ⟨_,rfl,⟨⟨?_,?_,⟨rfl,rfl⟩,⟨rfl,rfl⟩⟩,?_,?_⟩⟩
  · intro id
    cases id <;> rfl
  · intro id
    cases id <;> rfl
  · intro id
    cases id <;> rfl
  · have hbits : ∀ n < 16, ((if n < 8 then 0xfb#8 else 0xff#8).getLsbD (line n).2 = false ↔
        n = 2) := by decide
    intro n hn
    have henabled : Enabled [] n ↔ n = 2 := by
      unfold Enabled lastCall I8259_IRQ_CASCADE
      by_cases h2 : n = 2
      · simp [h2]
      · simp [h2]
    rw [henabled,← hbits n hn]
    unfold line
    by_cases hlow : n < 8
    · simp only [hlow,if_true]
      exact Iff.rfl
    · simp only [hlow,if_false]
      exact Iff.rfl

theorem Inv.run (h : Inv s calls) {more : List Call} (hirq : ∀ c ∈ more, c.irq < 16) :
    ∃ s', more.foldlM Call.run s = some s' ∧ Inv s' (calls ++ more) := by
  induction more generalizing s calls with
  | nil => exact ⟨s,rfl,by simpa using h⟩
  | cons c more ih =>
    have hc : c.irq < 16 := hirq c List.mem_cons_self
    obtain ⟨s₁,hs₁,h₁⟩ : ∃ s₁, c.run s = some s₁ ∧ Inv s₁ (calls ++ [c]) := by
      cases c with
      | enable irq => exact h.enable hc
      | disable irq => exact h.disable hc
    obtain ⟨s₂,hs₂,h₂⟩ := ih h₁ fun d hd => hirq d (List.mem_cons_of_mem _ hd)
    refine ⟨s₂,?_,by simpa using h₂⟩
    rw [List.foldlM_cons,hs₁]
    exact hs₂

/-! ## Delivery -/

theorem Inv.deliverable_iff (h : Inv s calls) (hirq : irq < 16) :
    Deliverable s irq ↔ Enabled calls irq ∧ (8 ≤ irq → Enabled calls I8259_IRQ_CASCADE) := by
  have hbit := h.bits irq hirq
  have hcascade := h.bits I8259_IRQ_CASCADE (by decide)
  unfold Deliverable
  rw [h.mask,h.mask]
  by_cases hlow : irq < 8
  · have hline : line irq = (.master,irq) := if_pos hlow
    rw [hline] at hbit
    rw [if_pos hlow,hbit]
    simp [show ¬8 ≤ irq by omega]
  · have hline : line irq = (.slave,irq - 8) := if_neg hlow
    rw [hline] at hbit
    rw [if_neg hlow,hbit,show (s.pics .master).imr.getLsbD 2 = false ↔ _ from hcascade]
    simp [show 8 ≤ irq by omega]

/-- The mask registers, the vectors and the cascade are right after any calls. The IRQs other than that of
the cascade follow the calls exactly when the cascade is not disabled, or no IRQ of the slave is enabled. -/
theorem irq_masking (chips : PicId → Chip) (calls : List Call) (hirq : ∀ c ∈ calls, c.irq < 16) :
    ∃ s, boot chips calls = some s ∧ Wired s ∧ (Wired s ∧ Follows s calls ↔
      lastCall calls I8259_IRQ_CASCADE ≠ some (.disable I8259_IRQ_CASCADE) ∨
      ∀ irq, 8 ≤ irq → irq < 16 → lastCall calls irq ≠ some (.enable irq)) := by
  obtain ⟨s₀,hs₀,h₀⟩ := setup_inv chips
  obtain ⟨s,hs,h⟩ := h₀.run hirq
  rw [List.nil_append] at h
  refine ⟨s,?_,h.toWired,?_⟩
  · rw [boot,hs₀]
    exact hs
  have hlast : ∀ irq, irq ≠ I8259_IRQ_CASCADE →
      (Enabled calls irq ↔ lastCall calls irq = some (.enable irq)) :=
    fun irq hne => by rw [Enabled,if_neg hne]
  have hcascade : Enabled calls I8259_IRQ_CASCADE ↔
      lastCall calls I8259_IRQ_CASCADE ≠ some (.disable I8259_IRQ_CASCADE) := by rw [Enabled,if_pos rfl]
  rw [← hcascade]
  constructor
  · rintro ⟨-,hfollows⟩
    by_cases hc : Enabled calls I8259_IRQ_CASCADE
    · exact .inl hc
    · right
      intro irq hhigh hlt henabled
      have hne : irq ≠ I8259_IRQ_CASCADE := by
        unfold I8259_IRQ_CASCADE
        omega
      exact hc (((h.deliverable_iff hlt).1 ((hfollows irq hlt hne).2 henabled)).2 hhigh)
  · intro hcond
    refine ⟨h.toWired,fun irq hlt hne => ?_⟩
    rw [h.deliverable_iff hlt,hlast irq hne]
    refine ⟨And.left,fun henabled => ⟨henabled,fun hhigh => ?_⟩⟩
    rcases hcond with hc | hnone
    · exact hc
    · exact absurd henabled (hnone irq hhigh hlt)

/-- Chips in some state. -/
def sampleChips : PicId → Chip := fun _ => ⟨.mask,false,false,0,0,0,0⟩

/-- The keyboard, the serial port and a disk. -/
theorem irq_masking_sample : ∃ s, boot sampleChips [.enable 1,.enable 14,.disable 1] = some s ∧ Wired s ∧
    Follows s [.enable 1,.enable 14,.disable 1] := by
  obtain ⟨s,hs,-,hiff⟩ := irq_masking sampleChips [.enable 1,.enable 14,.disable 1] (by decide)
  exact ⟨s,hs,hiff.2 (.inl (by decide))⟩

/-- IRQ 8 was enabled last, and is not delivered. -/
theorem cascade_disabled : ∃ s, boot sampleChips [.enable 8,.disable 2] = some s ∧
    lastCall [.enable 8,.disable 2] 8 = some (.enable 8) ∧ ¬Deliverable s 8 ∧
    ¬Follows s [.enable 8,.disable 2] := by
  have hnot : (boot sampleChips [.enable 8,.disable 2]).map
      (fun s => decide (Deliverable s 8)) = some false := by
    decide
  obtain ⟨s,hs,hd⟩ := Option.map_eq_some_iff.1 hnot
  have hd : ¬Deliverable s 8 := of_decide_eq_false hd
  refine ⟨s,hs,by decide,hd,fun hfollows => hd ?_⟩
  exact (hfollows 8 (by decide) (by decide)).2 (by decide)

end X1.I8259
