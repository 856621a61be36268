import Mathlib.Data.List.Basic
import Mathlib.Logic.Function.Basic

/-! # The interrupt controllers of i8259.c

The driver writes to the ports of two chips. A chip that has been sent its first
initialization word takes the next writes to its data port for the other ones, and every
later write to that port for its mask register. `none` is a failed assertion.
-/
namespace X1.I8259

def I8259_IRQ_CASCADE : ℕ := 2
def I8259_NR_IRQS : ℕ := 8
def I8259_NR_PICS : ℕ := 2

def I8259_ICW1_ICW4 : BitVec 8 := 0x01
def I8259_ICW1_INIT : BitVec 8 := 0x10
def I8259_ICW4_8086 : BitVec 8 := 0x01

def CPU_IDT_VECT_PIC_MASTER : BitVec 8 := 32
def CPU_IDT_VECT_PIC_SLAVE : BitVec 8 := CPU_IDT_VECT_PIC_MASTER + 8

/-! ## The chips -/

/-- What the next byte at the data port is. -/
inductive Expects where
  | icw2 | icw3 | icw4 | mask
  deriving DecidableEq

/-- `withIcw4` and `single` are bits of the first initialization word. -/
structure Chip where
  expects : Expects
  withIcw4 : Bool
  single : Bool
  icw2 : BitVec 8
  icw3 : BitVec 8
  icw4 : BitVec 8
  mask : BitVec 8
  deriving DecidableEq

namespace Chip

/-- A byte with bit 4 is the first initialization word, which clears the mask. -/
def writeCmd (c : Chip) (byte : BitVec 8) : Chip :=
  if byte.getLsbD 4 then
    { c with expects := .icw2, withIcw4 := byte.getLsbD 0, single := byte.getLsbD 1, mask := 0 }
  else c

/-- What comes after the third word, or after the second if there is no third. -/
def afterIcw3 (c : Chip) : Expects := if c.withIcw4 then .icw4 else .mask

def writeData (c : Chip) (byte : BitVec 8) : Chip :=
  match c.expects with
  | .icw2 => { c with icw2 := byte, expects := if c.single then c.afterIcw3 else .icw3 }
  | .icw3 => { c with icw3 := byte, expects := c.afterIcw3 }
  | .icw4 => { c with icw4 := byte, expects := .mask }
  | .mask => { c with mask := byte }

end Chip

/-! ## The driver -/

inductive PicId where
  | master | slave
  deriving DecidableEq

/-- `struct i8259_pic` -/
structure Pic where
  cmdPort : ℕ
  dataPort : ℕ
  imr : BitVec 8
  master : Bool

/-- The static instances. -/
def i8259Pics : PicId → Pic
  | .master => ⟨0x20,0x21,0xff,true⟩
  | .slave => ⟨0xa0,0xa1,0xff,false⟩

structure State where
  pics : PicId → Pic
  chips : PicId → Chip

def State.onChip (s : State) (id : PicId) (f : Chip → Chip) : State :=
  { s with chips := Function.update s.chips id (f (s.chips id)) }

/-- `io_write`: the ports to which the chips are wired. -/
def ioWrite (s : State) (port : ℕ) (byte : BitVec 8) : State :=
  match port with
  | 0x20 => s.onChip .master fun c => c.writeCmd byte
  | 0x21 => s.onChip .master fun c => c.writeData byte
  | 0xa0 => s.onChip .slave fun c => c.writeCmd byte
  | 0xa1 => s.onChip .slave fun c => c.writeData byte
  | _ => s

/-- The controller of a logical IRQ, and its line there. -/
def i8259ConvertGlobalIrq (irq : ℕ) : Option (PicId × ℕ) :=
  if irq < I8259_NR_IRQS then some (.master,irq)
  else if irq < I8259_NR_IRQS * I8259_NR_PICS then some (.slave,irq - I8259_NR_IRQS)
  else none

def i8259PicWriteCmd (s : State) (id : PicId) (byte : BitVec 8) : State := ioWrite s (s.pics id).cmdPort byte

def i8259PicWriteData (s : State) (id : PicId) (byte : BitVec 8) : State := ioWrite s (s.pics id).dataPort byte

def i8259PicApplyImr (s : State) (id : PicId) : State := ioWrite s (s.pics id).dataPort (s.pics id).imr

def State.setImr (s : State) (id : PicId) (imr : BitVec 8) : State :=
  { s with pics := Function.update s.pics id { s.pics id with imr := imr } }

def i8259PicEnableIrq (s : State) (id : PicId) (irq : ℕ) : Option State := do
  guard (irq < I8259_NR_IRQS)
  return i8259PicApplyImr (s.setImr id ((s.pics id).imr &&& ~~~(1#8 <<< irq))) id

def i8259PicDisableIrq (s : State) (id : PicId) (irq : ℕ) : Option State := do
  guard (irq < I8259_NR_IRQS)
  return i8259PicApplyImr (s.setImr id ((s.pics id).imr ||| 1#8 <<< irq)) id

def i8259Setup (s : State) : Option State := do
  let s := i8259PicWriteCmd s .master (I8259_ICW1_INIT ||| I8259_ICW1_ICW4)
  let s := i8259PicWriteCmd s .slave (I8259_ICW1_INIT ||| I8259_ICW1_ICW4)
  let s := i8259PicWriteData s .master CPU_IDT_VECT_PIC_MASTER
  let s := i8259PicWriteData s .slave CPU_IDT_VECT_PIC_SLAVE
  let s := i8259PicWriteData s .master (1#8 <<< I8259_IRQ_CASCADE)
  let s := i8259PicWriteData s .slave (.ofNat 8 I8259_IRQ_CASCADE)
  let s := i8259PicWriteData s .master I8259_ICW4_8086
  let s := i8259PicWriteData s .slave I8259_ICW4_8086
  let s ← i8259PicEnableIrq s .master I8259_IRQ_CASCADE
  return i8259PicApplyImr (i8259PicApplyImr s .master) .slave

def i8259IrqEnable (s : State) (irq : ℕ) : Option State := do
  let (id,localIrq) ← i8259ConvertGlobalIrq irq
  i8259PicEnableIrq s id localIrq

def i8259IrqDisable (s : State) (irq : ℕ) : Option State := do
  let (id,localIrq) ← i8259ConvertGlobalIrq irq
  i8259PicDisableIrq s id localIrq

/-! ## Runs -/

inductive Call where
  | enable (irq : ℕ)
  | disable (irq : ℕ)
  deriving DecidableEq

def Call.irq : Call → ℕ
  | enable irq => irq
  | disable irq => irq

def Call.run (s : State) : Call → Option State
  | .enable irq => i8259IrqEnable s irq
  | .disable irq => i8259IrqDisable s irq

/-- `i8259_setup` on chips in any state, and then the calls. -/
def boot (chips : PicId → Chip) (calls : List Call) : Option State := do
  calls.foldlM Call.run (← i8259Setup ⟨i8259Pics,chips⟩)

/-- The last call that names the IRQ. -/
def lastCall (calls : List Call) (irq : ℕ) : Option Call := (calls.filter fun c => c.irq = irq).getLast?

/-- A request at the line reaches the processor: it is not masked, nor is the line on which the master
receives those of the slave. -/
def Deliverable (s : State) (irq : ℕ) : Prop :=
  if irq < 8 then (s.chips .master).mask.getLsbD irq = false
  else (s.chips .slave).mask.getLsbD (irq - 8) = false ∧ (s.chips .master).mask.getLsbD 2 = false

instance (s : State) (irq : ℕ) : Decidable (Deliverable s irq) := by
  unfold Deliverable
  infer_instance

/-- The chips are initialised, with their vectors and the cascade, and the driver knows their masks. -/
structure Wired (s : State) : Prop where
  ready : ∀ id, (s.chips id).expects = .mask
  mask : ∀ id, (s.chips id).mask = (s.pics id).imr
  vectors : (s.chips .master).icw2 = 32 ∧ (s.chips .slave).icw2 = 40
  cascade : (s.chips .master).icw3 = 1#8 <<< 2 ∧ (s.chips .slave).icw3 = 2

/-- An IRQ other than that of the cascade is delivered when it was enabled last. -/
def Follows (s : State) (calls : List Call) : Prop :=
  ∀ irq < 16, irq ≠ I8259_IRQ_CASCADE → (Deliverable s irq ↔ lastCall calls irq = some (.enable irq))

end X1.I8259
