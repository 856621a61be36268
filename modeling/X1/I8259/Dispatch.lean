import Mathlib.Data.List.Find
import X1.I8259.Service

/-! # The two controllers are one

Between interrupts nothing is in service at either controller, whatever was acknowledged
before. From that the request that is acknowledged next is the one of the highest priority,
and the commands that `cpu_intr_main` sends end it, and nothing else.
-/
namespace X1.I8259

/-- Between interrupts nothing is in service. -/
structure Rel {H : Type} (m : Machine H) (sp : Spec H) : Prop where
  wired : ∃ calls,Inv m.driver calls ∧ ∀ irq < 16,(sp.enabled irq = true ↔ Enabled calls irq)
  ports : ∀ id,(m.driver.pics id).cmdPort = (i8259Pics id).cmdPort ∧
    (m.driver.pics id).master = (i8259Pics id).master
  requests : ∀ irq < 16,irq ≠ I8259_IRQ_CASCADE → m.requests (line irq).1 (line irq).2 = sp.pending irq
  idle : m.inService = fun _ _ => false
  handlers : m.handlers = sp.handlers
  log : m.log = sp.log

section
variable {H : Type} {m : Machine H} {sp : Spec H} {id : PicId} {irq : ℕ}

namespace Rel

theorem masked (h : Rel m sp) (hirq : irq < 16) :
    (m.driver.chips (line irq).1).mask.getLsbD (line irq).2 = !sp.enabled irq := by
  obtain ⟨calls,hinv,henabled⟩ := h.wired
  have hbit := (hinv.bits irq hirq).trans (henabled irq hirq).symm
  rw [hinv.mask]
  cases hb : (m.driver.pics (line irq).1).imr.getLsbD (line irq).2 with
  | false =>
    rw [hbit.mp hb]
    rfl
  | true =>
    cases he : sp.enabled irq with
    | false => rfl
    | true =>
      rw [hbit.mpr he] at hb
      cases hb

/-- With nothing in service no request is held up. -/
theorem selects_eq (h : Rel m sp) (requests : ℕ → Bool) (id : PicId) :
    m.selects id requests = (List.range 8).find? fun i => requests i && !(m.driver.chips id).mask.getLsbD i := by
  unfold Machine.selects
  apply List.find?_congr
  intro i _
  have hall : ((List.range (i + 1)).all fun j => !m.inService id j) = true := by
    rw [h.idle]
    exact List.all_eq_true.mpr fun _ _ => rfl
  rw [hall,Bool.and_true]

theorem slave_eq (h : Rel m sp) : m.selects .slave (m.requests .slave) =
    (List.range 8).find? fun j => sp.pending (8 + j) && sp.enabled (8 + j) := by
  rw [h.selects_eq]
  apply List.find?_congr
  intro j hj
  have hj8 := List.mem_range.mp hj
  have hline : line (8 + j) = (.slave,j) := by
    unfold line
    rw [if_neg (by omega),Nat.add_sub_cancel_left]
  have hmask := h.masked (by omega : 8 + j < 16)
  have hrequest := h.requests (8 + j) (by omega) (by unfold I8259_IRQ_CASCADE; omega)
  rw [hline] at hmask hrequest
  rw [hmask,hrequest,Bool.not_not]

/-- A line of the master that a device is wired to. -/
theorem master_eq (h : Rel m sp) {i : ℕ} (hi : i < 8) (hne : i ≠ I8259_IRQ_CASCADE) :
    (m.masterRequests i && !(m.driver.chips .master).mask.getLsbD i) = (sp.pending i && sp.deliverable i) := by
  have hline : line i = (.master,i) := if_pos hi
  have hmask := h.masked (by omega : i < 16)
  have hrequest := h.requests i (by omega) hne
  rw [hline] at hmask hrequest
  rw [Machine.masterRequests,if_neg hne,hmask,hrequest,Bool.not_not,Spec.deliverable]
  simp [hi]

/-- The request that the master selects, and the slave if it is its turn, is the next one. -/
theorem next_eq (h : Rel m sp) : sp.next =
    (m.selects .master m.masterRequests).bind fun i =>
      if i = I8259_IRQ_CASCADE then (m.selects .slave (m.requests .slave)).map (8 + ·) else some i := by
  have hmask : (m.driver.chips .master).mask.getLsbD I8259_IRQ_CASCADE = !sp.enabled I8259_IRQ_CASCADE :=
    h.masked (show I8259_IRQ_CASCADE < 16 by decide)
  have hbefore : [0,1].find? (fun i => m.masterRequests i && !(m.driver.chips .master).mask.getLsbD i) =
      [0,1].find? fun irq => sp.pending irq && sp.deliverable irq :=
    List.find?_congr fun i hi => h.master_eq (by simp at hi; omega) (by simp at hi; unfold I8259_IRQ_CASCADE; omega)
  have hafter : [3,4,5,6,7].find? (fun i => m.masterRequests i && !(m.driver.chips .master).mask.getLsbD i) =
      [3,4,5,6,7].find? fun irq => sp.pending irq && sp.deliverable irq :=
    List.find?_congr fun i hi => h.master_eq (by simp at hi; omega) (by simp at hi; unfold I8259_IRQ_CASCADE; omega)
  have hslave : [8,9,10,11,12,13,14,15].find? (fun irq => sp.pending irq && sp.deliverable irq) =
      if sp.enabled I8259_IRQ_CASCADE then (m.selects .slave (m.requests .slave)).map (8 + ·) else none := by
    have hlist : [8,9,10,11,12,13,14,15] = (List.range 8).map (8 + ·) := rfl
    rw [hlist,List.find?_map,h.slave_eq]
    have hhigh (j : ℕ) : decide (8 + j < 8) = false := decide_eq_false (by omega)
    have hcomp : ((fun irq => sp.pending irq && sp.deliverable irq) ∘ fun j => 8 + j) = fun j =>
        sp.pending (8 + j) && (sp.enabled (8 + j) && sp.enabled I8259_IRQ_CASCADE) := by
      funext j
      simp only [Function.comp_apply,Spec.deliverable,hhigh,Bool.false_or]
    rw [hcomp]
    cases sp.enabled I8259_IRQ_CASCADE with
    | true => simp only [Bool.and_true,if_true]
    | false =>
      simp only [Bool.and_false]
      rfl
  have hrange : List.range 8 = [0,1] ++ [I8259_IRQ_CASCADE] ++ [3,4,5,6,7] := rfl
  rw [h.selects_eq,hrange,List.find?_append,List.find?_append,hbefore,hafter,Spec.next,Spec.priorities,
    List.find?_append,List.find?_append,hslave,List.find?_singleton,hmask,Machine.masterRequests,if_pos rfl,
    Bool.not_not]
  have hother (l : List ℕ) (hl : I8259_IRQ_CASCADE ∉ l) (i : ℕ)
      (hi : l.find? (fun irq => sp.pending irq && sp.deliverable irq) = some i) : i ≠ I8259_IRQ_CASCADE := by
    rintro rfl
    exact hl (List.mem_of_find?_eq_some hi)
  have hlow := hother [0,1] (by decide)
  have hhigh := hother [3,4,5,6,7] (by decide)
  cases hfirst : [0,1].find? fun irq => sp.pending irq && sp.deliverable irq with
  | some i => simp [hlow i hfirst]
  | none =>
    cases hselect : m.selects .slave (m.requests .slave) with
    | none =>
      cases hlast : [3,4,5,6,7].find? fun irq => sp.pending irq && sp.deliverable irq with
      | none => simp
      | some i => simp [hhigh i hlast]
    | some j =>
      cases sp.enabled I8259_IRQ_CASCADE with
      | true => simp
      | false =>
        cases hlast : [3,4,5,6,7].find? fun irq => sp.pending irq && sp.deliverable irq with
        | none => simp
        | some i => simp [hhigh i hlast]

end Rel

/-! ## The end of an interrupt -/

/-- At most one line is in service. -/
def Single (m : Machine H) (id : PicId) : Prop :=
  m.inService id = (fun _ => false) ∨ ∃ i < 8,m.inService id = Function.update (fun _ => false) i true

theorem find_update : ∀ i < 8,(List.range 8).find? (Function.update (fun _ : ℕ => false) i true) = some i := by
  decide

theorem Single.ended (h : Single m id) :
    m.endOfInterrupt id = { m with inService := Function.update m.inService id fun _ => false } := by
  unfold Machine.endOfInterrupt
  rcases h with hnone | ⟨i,hi,hone⟩
  · have hfind : (List.range 8).find? (m.inService id) = none := by
      rw [hnone]
      exact List.find?_eq_none.mpr fun _ _ => by simp
    rw [hfind]
    have hsame : Function.update m.inService id (fun _ => false) = m.inService := by
      rw [← hnone]
      exact Function.update_eq_self id m.inService
    rw [hsame]
  · have hfind : (List.range 8).find? (m.inService id) = some i := by
      rw [hone]
      exact find_update i hi
    rw [hfind]
    unfold Machine.setInService
    dsimp only
    rw [hone,Function.update_idem]
    have hself : Function.update (fun _ : ℕ => false) i false = fun _ => false := Function.update_eq_self i _
    rw [hself]

theorem ioWrite_eoi (s : State) (id : PicId) : ioWrite s (i8259Pics id).cmdPort I8259_OCW2_EOI = s := by
  cases id with
  | master => exact congrArg (State.mk s.pics) (Function.update_eq_self _ _)
  | slave => exact congrArg (State.mk s.pics) (Function.update_eq_self _ _)

theorem i8259PicEoi_eq (hport : (m.driver.pics id).cmdPort = (i8259Pics id).cmdPort) :
    m.i8259PicEoi id = m.endOfInterrupt id := by
  unfold Machine.i8259PicEoi Machine.writeCmd
  rw [hport,ioWrite_eoi,if_pos rfl]
  cases id with
  | master => rfl
  | slave => rfl

/-- The commands that are sent end everything that is in service. -/
theorem cpuIntrMain_eq (hports : ∀ id,(m.driver.pics id).cmdPort = (i8259Pics id).cmdPort ∧
      (m.driver.pics id).master = (i8259Pics id).master) (hirq : irq < 16) (hmaster : Single m .master)
    (hslave : Single m .slave) (hlow : irq < 8 → m.inService .slave = fun _ => false) :
    m.cpuIntrMain (32 + irq) =
      some { m with inService := fun _ _ => false, log := m.log ++ [(irq,m.handlers irq)] } := by
  have heoi : m.i8259IrqEoi irq = some { m with inService := fun _ _ => false } := by
    unfold Machine.i8259IrqEoi
    rw [convert_eq hirq]
    simp only [bind,Option.bind,pure,Option.some.injEq]
    by_cases hirq8 : irq < 8
    · have hline : line irq = (.master,irq) := if_pos hirq8
      have hflag : (m.driver.pics .master).master = true := (hports .master).2
      rw [hline]
      dsimp only
      rw [if_neg (by rw [hflag]; simp),i8259PicEoi_eq (hports .master).1,hmaster.ended]
      congr 1
      funext id
      cases id with
      | master => rw [Function.update_self]
      | slave =>
        rw [Function.update_of_ne (by decide)]
        exact hlow hirq8
    · have hline : line irq = (.slave,irq - 8) := if_neg hirq8
      have hflag : (m.driver.pics .slave).master = false := (hports .slave).2
      rw [hline]
      dsimp only
      rw [if_pos hflag,i8259PicEoi_eq (hports .master).1,hmaster.ended]
      let m₁ : Machine H := { m with inService := Function.update m.inService .master fun _ => false }
      have hslave' : Single m₁ .slave := by
        have hsame : m₁.inService .slave = m.inService .slave :=
          Function.update_of_ne (show PicId.slave ≠ PicId.master by decide) (fun _ => false) m.inService
        unfold Single
        rw [hsame]
        exact hslave
      have hsecond : m₁.i8259PicEoi .slave = m₁.endOfInterrupt .slave := i8259PicEoi_eq (hports .slave).1
      change m₁.i8259PicEoi .slave = _
      rw [hsecond,hslave'.ended]
      congr 1
      funext id
      cases id with
      | master =>
        rw [Function.update_of_ne (by decide)]
        change Function.update m.inService PicId.master (fun _ => false) PicId.master = _
        rw [Function.update_self]
      | slave => rw [Function.update_self]
  unfold Machine.cpuIntrMain
  rw [if_neg (by omega),Nat.add_sub_cancel_left]
  dsimp only
  have hrange : (guard (irq < 16) : Option Unit) = some () := if_pos hirq
  rw [heoi,hrange]
  rfl

/-! ## Steps -/

theorem ioWrite_pics (s : State) (port : ℕ) (byte : BitVec 8) : (ioWrite s port byte).pics = s.pics := by
  unfold ioWrite
  split <;> rfl

theorem applyImr_ports (s : State) (id : PicId) (imr : BitVec 8) (j : PicId) :
    ((i8259PicApplyImr (s.setImr id imr) id).pics j).cmdPort = (s.pics j).cmdPort ∧
      ((i8259PicApplyImr (s.setImr id imr) id).pics j).master = (s.pics j).master := by
  unfold i8259PicApplyImr
  rw [ioWrite_pics]
  unfold State.setImr
  dsimp only
  by_cases hj : j = id
  · rw [hj,Function.update_self]
    exact ⟨rfl,rfl⟩
  · rw [Function.update_of_ne hj]
    exact ⟨rfl,rfl⟩

theorem call_ports {s s' : State} {c : Call} (h : c.run s = some s') (j : PicId) :
    (s'.pics j).cmdPort = (s.pics j).cmdPort ∧ (s'.pics j).master = (s.pics j).master := by
  cases c with
  | enable irq =>
    have hrun : i8259IrqEnable s irq = some s' := h
    obtain ⟨⟨id,i⟩,-,hpic⟩ := Option.bind_eq_some_iff.mp hrun
    have hpic : i8259PicEnableIrq s id i = some s' := hpic
    obtain ⟨_,-,hwrite⟩ := Option.bind_eq_some_iff.mp hpic
    obtain rfl := Option.some.inj hwrite
    exact applyImr_ports ..
  | disable irq =>
    have hrun : i8259IrqDisable s irq = some s' := h
    obtain ⟨⟨id,i⟩,-,hpic⟩ := Option.bind_eq_some_iff.mp hrun
    have hpic : i8259PicDisableIrq s id i = some s' := hpic
    obtain ⟨_,-,hwrite⟩ := Option.bind_eq_some_iff.mp hpic
    obtain rfl := Option.some.inj hwrite
    exact applyImr_ports ..

namespace Rel

theorem setRequest (h : Rel m sp) (irq : ℕ) (level : Bool) :
    Rel (m.setRequest (line irq).1 (line irq).2 level) (sp.setPending irq level) := by
  refine ⟨h.wired,h.ports,fun n hn hne => ?_,h.idle,h.handlers,h.log⟩
  have hold := h.requests n hn hne
  unfold Machine.setRequest Spec.setPending
  dsimp only
  by_cases hsame : n = irq
  · rw [hsame,Function.update_self,Function.update_self,Function.update_self]
  · rw [Function.update_of_ne hsame]
    by_cases hid : (line n).1 = (line irq).1
    · rw [hid,Function.update_self,Function.update_of_ne fun hline => hsame (line_inj hid hline),← hid]
      exact hold
    · rw [Function.update_of_ne hid]
      exact hold

/-- After the commands that end the interrupt, and the call of the handler. -/
theorem finish (h : Rel m sp) (irq : ℕ) :
    Rel { m with inService := fun _ _ => false, log := m.log ++ [(irq,m.handlers irq)] } (sp.call irq) := by
  refine ⟨h.wired,h.ports,h.requests,rfl,h.handlers,?_⟩
  rw [h.log,h.handlers]
  rfl

theorem vector_eq (h : Rel m sp) (i : ℕ) : m.vector .master i = 32 + i ∧ m.vector .slave i = 32 + (8 + i) := by
  obtain ⟨calls,hinv,-⟩ := h.wired
  unfold Machine.vector
  rw [hinv.vectors.1,hinv.vectors.2]
  refine ⟨rfl,?_⟩
  rw [← Nat.add_assoc]
  rfl

theorem single (h : Rel m sp) (id : PicId) : Single m id := by
  left
  rw [h.idle]

theorem single_set (h : Rel m sp) {i : ℕ} (hi : i < 8) (id : PicId) :
    Single (m.setInService id i true) id ∧
      ∀ id',id' ≠ id → (m.setInService id i true).inService id' = fun _ => false := by
  unfold Machine.setInService Single
  dsimp only
  rw [h.idle]
  constructor
  · right
    exact ⟨i,hi,Function.update_self ..⟩
  · intro id' hne
    exact Function.update_of_ne hne _ _

/-- When no request is left at the master, its last line is reported. -/
theorem spurious (h : Rel m sp) : ∃ m',m.cpuIntrMain (m.vector .master 7) = some m' ∧ Rel m' (sp.call 7) := by
  rw [(h.vector_eq 7).1,cpuIntrMain_eq h.ports (by decide) (h.single .master) (h.single .slave)
    fun _ => by rw [h.idle]]
  exact ⟨_,rfl,h.finish 7⟩

/-- The slave is wired to one line of the master. -/
theorem cascade_eq (h : Rel m sp) {i : ℕ} (hi : i < 8) :
    (m.driver.chips .master).icw3.getLsbD i = true ↔ i = I8259_IRQ_CASCADE := by
  obtain ⟨calls,hinv,-⟩ := h.wired
  have hbits : ∀ i < 8,((1#8 <<< 2).getLsbD i = true ↔ i = I8259_IRQ_CASCADE) := by decide
  rw [hinv.cascade.1]
  exact hbits i hi

theorem deliver_master (h : Rel m sp) {i : ℕ} (hi : i < 8) :
    ∃ m',(m.serve .master i).cpuIntrMain (m.vector .master i) = some m' ∧
      Rel m' ((sp.setPending i false).call i) := by
  have hline : line i = (.master,i) := if_pos hi
  have hrel := (h.setRequest i false).finish i
  rw [hline] at hrel
  obtain ⟨hmaster,hothers⟩ := h.single_set hi .master
  have hslave : (m.serve .master i).inService .slave = fun _ => false := hothers .slave (by decide)
  rw [(h.vector_eq i).1,cpuIntrMain_eq (m := m.serve .master i) h.ports (by omega) hmaster (.inl hslave)
    fun _ => hslave]
  exact ⟨_,rfl,hrel⟩

theorem deliver_slave (h : Rel m sp) {i j : ℕ} (hi : i < 8) (hj : j < 8) :
    ∃ m',((m.setInService .master i true).serve .slave j).cpuIntrMain (m.vector .slave j) = some m' ∧
      Rel m' ((sp.setPending (8 + j) false).call (8 + j)) := by
  have hline : line (8 + j) = (.slave,j) := by
    unfold line
    rw [if_neg (by omega),Nat.add_sub_cancel_left]
  have hrel := (h.setRequest (8 + j) false).finish (8 + j)
  rw [hline] at hrel
  obtain ⟨hsingle,hothers⟩ := h.single_set hi .master
  have hmaster : Single ((m.setInService .master i true).serve .slave j) .master := by
    unfold Single
    rw [Machine.serve_inService,Function.update_of_ne (by decide)]
    exact hsingle
  have hslave : Single ((m.setInService .master i true).serve .slave j) .slave := by
    right
    rw [Machine.serve_inService,Function.update_self,hothers .slave (by decide)]
    exact ⟨j,hj,rfl⟩
  rw [(h.vector_eq j).2,cpuIntrMain_eq (m := (m.setInService .master i true).serve .slave j) h.ports (by omega)
    hmaster hslave fun hlow => absurd hlow (by omega)]
  exact ⟨_,rfl,hrel⟩

/-- When the request of the slave is gone, the last line of the slave is reported. -/
theorem spurious_slave (h : Rel m sp) :
    ∃ m',(m.setInService .master I8259_IRQ_CASCADE true).cpuIntrMain (m.vector .slave 7) = some m' ∧
      Rel m' (sp.call 15) := by
  obtain ⟨hmaster,hothers⟩ := h.single_set (by decide : I8259_IRQ_CASCADE < 8) .master
  rw [(h.vector_eq 7).2,cpuIntrMain_eq (m := m.setInService .master I8259_IRQ_CASCADE true) h.ports (by decide)
    hmaster (.inl (hothers .slave (by decide))) fun hlow => absurd hlow (by decide)]
  exact ⟨_,rfl,h.finish 15⟩

/-- What the processor acknowledges is the next request. -/
theorem acknowledge_eq (h : Rel m sp) :
    (sp.next = none ∧ m.acknowledge none = (m.vector .master 7,m)) ∨
    (∃ i < 8,sp.next = some i ∧ m.acknowledge none = (m.vector .master i,m.serve .master i)) ∨
    ∃ i < 8,∃ j < 8,sp.next = some (8 + j) ∧
      m.acknowledge none = (m.vector .slave j,(m.setInService .master i true).serve .slave j) := by
  have hnext := h.next_eq
  unfold Machine.acknowledge
  dsimp only
  cases hselect : m.selects .master m.masterRequests with
  | none =>
    rw [hselect] at hnext
    exact .inl ⟨hnext,rfl⟩
  | some i =>
    have hi : i < 8 := List.mem_range.mp (List.mem_of_find?_eq_some hselect)
    have hwire := h.cascade_eq hi
    rw [hselect,Option.bind_some] at hnext
    right
    by_cases hcascade : i = I8259_IRQ_CASCADE
    · -- The slave has a request, or the master would not have selected its line.
      have htrue := List.find?_some hselect
      simp only [Bool.and_eq_true,Machine.masterRequests,if_pos hcascade] at htrue
      obtain ⟨j,hslave⟩ := Option.isSome_iff_exists.mp htrue.1.1
      have hj : j < 8 := List.mem_range.mp (List.mem_of_find?_eq_some hslave)
      rw [if_pos hcascade,hslave,Option.map_some] at hnext
      have hslave' : (m.setInService .master i true).selects .slave
          ((m.setInService .master i true).requests .slave) = some j := hslave
      refine .inr ⟨i,hi,j,hj,hnext,?_⟩
      dsimp only
      rw [if_pos (hwire.mpr hcascade),Machine.acknowledgeSlave,if_neg (by decide),hslave']
      rfl
    · rw [if_neg hcascade] at hnext
      refine .inl ⟨i,hi,hnext,?_⟩
      dsimp only
      rw [if_neg fun hbit => hcascade (hwire.mp hbit)]

/-- An interrupt is that of the next request, and nothing is in service after it. -/
theorem interrupt (h : Rel m sp) (gone : Option PicId) :
    ∃ m' sp',m.step (.interrupt gone) = some m' ∧ sp.step (.interrupt gone) = some sp' ∧ Rel m' sp' := by
  cases gone with
  | some id =>
    cases id with
    | master =>
      obtain ⟨m',hm',hrel⟩ := h.spurious
      exact ⟨m',_,hm',rfl,hrel⟩
    | slave =>
      obtain ⟨m',hm',hrel⟩ := h.spurious_slave
      exact ⟨m',_,hm',rfl,hrel⟩
  | none =>
    unfold Machine.step Spec.step
    dsimp only
    rcases h.acknowledge_eq with ⟨hnext,hack⟩ | ⟨i,hi,hnext,hack⟩ | ⟨i,hi,j,hj,hnext,hack⟩
    · obtain ⟨m',hm',hrel⟩ := h.spurious
      rw [hnext,hack]
      exact ⟨m',_,hm',rfl,hrel⟩
    · obtain ⟨m',hm',hrel⟩ := h.deliver_master hi
      rw [hnext,hack]
      exact ⟨m',_,hm',rfl,hrel⟩
    · obtain ⟨m',hm',hrel⟩ := h.deliver_slave hi hj
      rw [hnext,hack]
      exact ⟨m',_,hm',rfl,hrel⟩

theorem called (h : Rel m sp) (c : Call) (hirq : c.irq < 16) {level : Bool}
    (hlevel : level = true ↔ c = .enable c.irq) :
    ∃ driver,c.run m.driver = some driver ∧ Rel { m with driver := driver } (sp.setEnabled c.irq level) := by
  obtain ⟨calls,hinv,henabled⟩ := h.wired
  obtain ⟨driver,hrun,hinv'⟩ : ∃ driver,c.run m.driver = some driver ∧ Inv driver (calls ++ [c]) := by
    cases c with
    | enable irq => exact hinv.enable hirq
    | disable irq => exact hinv.disable hirq
  refine ⟨driver,hrun,⟨calls ++ [c],hinv',fun n hn => ?_⟩,fun id => ?_,h.requests,h.idle,h.handlers,h.log⟩
  · rw [enabled_append]
    unfold Spec.setEnabled
    dsimp only
    by_cases hsame : n = c.irq
    · rw [hsame,Function.update_self,if_pos rfl]
      exact hlevel
    · rw [Function.update_of_ne hsame,if_neg hsame]
      exact henabled n hn
  · have hports := call_ports hrun id
    rw [hports.1,hports.2]
    exact h.ports id

/-- One step of the machine is one step of the single controller, and fails when that one does. -/
theorem step (h : Rel m sp) (event : Event H) :
    match sp.step event with
    | none => m.step event = none
    | some sp' => ∃ m',m.step event = some m' ∧ Rel m' sp' := by
  cases event with
  | raise irq =>
    unfold Spec.step Machine.step
    dsimp only
    by_cases hirq : irq < 16 ∧ irq ≠ I8259_IRQ_CASCADE
    · rw [if_pos hirq,if_pos hirq]
      exact ⟨_,rfl,h.setRequest irq true⟩
    · rw [if_neg hirq,if_neg hirq]
      exact ⟨m,rfl,h⟩
  | withdraw irq =>
    unfold Spec.step Machine.step
    dsimp only
    by_cases hirq : irq < 16 ∧ irq ≠ I8259_IRQ_CASCADE
    · rw [if_pos hirq,if_pos hirq]
      exact ⟨_,rfl,h.setRequest irq false⟩
    · rw [if_neg hirq,if_neg hirq]
      exact ⟨m,rfl,h⟩
  | register irq handler =>
    unfold Spec.step Machine.step Machine.cpuIrqRegister
    dsimp only
    rw [← h.handlers]
    by_cases hirq : irq < 16
    · have hrange : (guard (irq < 16) : Option Unit) = some () := if_pos hirq
      by_cases hfree : (m.handlers irq).isNone = true
      · obtain ⟨driver,hrun,hrel⟩ := h.called (.enable irq) hirq (iff_of_true rfl rfl)
        have henable : i8259IrqEnable m.driver irq = some driver := hrun
        rw [if_pos ⟨hirq,hfree⟩,henable]
        refine ⟨{ m with driver := driver, handlers := Function.update m.handlers irq (some handler) },?_,
          ⟨hrel.wired,hrel.ports,hrel.requests,hrel.idle,rfl,hrel.log⟩⟩
        have hunset : (guard ((m.handlers irq).isNone = true) : Option Unit) = some () := if_pos hfree
        rw [hrange,hunset]
        rfl
      · have hset : (guard ((m.handlers irq).isNone = true) : Option Unit) = none := if_neg hfree
        rw [if_neg fun hboth => hfree hboth.2,hrange,hset]
        rfl
    · have hrange : (guard (irq < 16) : Option Unit) = none := if_neg hirq
      rw [if_neg fun hboth => hirq hboth.1,hrange]
      rfl
  | call c =>
    by_cases hirq : c.irq < 16
    · obtain ⟨level,hlevel,hspec⟩ : ∃ level : Bool,(level = true ↔ c = .enable c.irq) ∧
          sp.step (.call c) = some (sp.setEnabled c.irq level) := by
        cases c with
        | enable irq => exact ⟨true,iff_of_true rfl rfl,if_pos hirq⟩
        | disable irq => exact ⟨false,iff_of_false (by simp) (by simp),if_pos hirq⟩
      obtain ⟨driver,hrun,hrel⟩ := h.called c hirq hlevel
      rw [hspec]
      refine ⟨{ m with driver := driver },?_,hrel⟩
      unfold Machine.step
      dsimp only
      rw [hrun]
      rfl
    · have hconvert : i8259ConvertGlobalIrq c.irq = none := by
        unfold i8259ConvertGlobalIrq I8259_NR_IRQS I8259_NR_PICS
        rw [if_neg (by omega),if_neg (by omega)]
      have hrun : c.run m.driver = none := by
        cases c with
        | enable irq =>
          change (i8259ConvertGlobalIrq irq).bind _ = none
          rw [show i8259ConvertGlobalIrq irq = none from hconvert]
          rfl
        | disable irq =>
          change (i8259ConvertGlobalIrq irq).bind _ = none
          rw [show i8259ConvertGlobalIrq irq = none from hconvert]
          rfl
      have hstep : m.step (.call c) = none := by
        unfold Machine.step
        dsimp only
        rw [hrun]
        rfl
      have hspec : sp.step (.call c) = none := by
        cases c with
        | enable irq => exact if_neg hirq
        | disable irq => exact if_neg hirq
      rw [hspec]
      exact hstep
  | interrupt gone =>
    obtain ⟨m',sp',hm',hsp',hrel⟩ := h.interrupt gone
    rw [hsp']
    exact ⟨m',hm',hrel⟩

theorem run (h : Rel m sp) (events : List (Event H)) :
    match sp.run events with
    | none => m.run events = none
    | some sp' => ∃ m',m.run events = some m' ∧ Rel m' sp' := by
  induction events generalizing m sp with
  | nil => exact ⟨m,rfl,h⟩
  | cons event events ih =>
    have hstep := h.step event
    unfold Spec.run Machine.run
    rw [List.foldlM_cons,List.foldlM_cons]
    cases hsp : sp.step event with
    | none =>
      rw [hsp] at hstep
      change m.step event = none at hstep
      rw [hstep]
      rfl
    | some sp' =>
      rw [hsp] at hstep
      obtain ⟨m',hm',hrel⟩ := hstep
      rw [hm']
      exact ih hrel

end Rel

end

/-- Whatever is requested, withdrawn, registered, enabled, disabled and acknowledged, in any order, the two
controllers with their driver and `cpu_intr_main` are one controller that takes the request of the highest
priority among those that are enabled and calls the handler that was registered for it. After every interrupt
nothing is in service, so that no request is held up, also after an interrupt whose request was gone. -/
theorem interrupts_dispatched (H : Type) (chips : PicId → Chip) (events : List (Event H)) :
    ∃ m₀,Machine.boot H chips = some m₀ ∧
      match (Spec.start H).run events with
      | none => m₀.run events = none
      | some sp => ∃ m,m₀.run events = some m ∧ m.log = sp.log ∧ m.inService = (fun _ _ => false) ∧
        ∀ irq < 16,irq ≠ I8259_IRQ_CASCADE → m.requests (line irq).1 (line irq).2 = sp.pending irq := by
  obtain ⟨s,hsetup,hinv⟩ := setup_inv chips
  have hboot : Machine.boot H chips = some ⟨s,fun _ _ => false,fun _ _ => false,fun _ => none,[]⟩ := by
    unfold Machine.boot
    rw [hsetup]
    rfl
  have hstart : Rel (⟨s,fun _ _ => false,fun _ _ => false,fun _ => none,[]⟩ : Machine H) (Spec.start H) := by
    refine ⟨⟨[],hinv,fun irq _ => ?_⟩,fun id => ?_,fun _ _ _ => rfl,rfl,rfl,rfl⟩
    · unfold Spec.start Enabled lastCall
      by_cases hirq : irq = I8259_IRQ_CASCADE
      · simp [hirq]
      · simp [hirq]
    · have hs := (setup_eq chips).symm.trans hsetup
      cases hs
      cases id with
      | master => exact ⟨rfl,rfl⟩
      | slave => exact ⟨rfl,rfl⟩
  refine ⟨_,hboot,?_⟩
  have hrun := hstart.run events
  cases hsp : (Spec.start H).run events with
  | none =>
    rw [hsp] at hrun
    exact hrun
  | some sp =>
    rw [hsp] at hrun
    obtain ⟨m,hm,hrel⟩ := hrun
    exact ⟨m,hm,hrel.log,hrel.idle,hrel.requests⟩

end X1.I8259
