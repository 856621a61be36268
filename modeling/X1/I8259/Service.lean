import X1.I8259.Contract

/-! # Interrupts and their handlers

The controllers in service: a device raises a line, the processor acknowledges the request of
the highest priority, and `cpu_intr_main` sends the commands that end it and calls the handler
that `cpu_irq_register` has set. Interrupts are disabled from the acknowledgement to these commands,
so that both are one step here. `none` is a failed assertion.
-/
namespace X1.I8259

def I8259_OCW2_EOI : BitVec 8 := 0x20

/-- The chips with their request and in-service registers, and `cpu_irq_handlers`. The log has the IRQs for which
`cpu_intr_main` was called, with the handler that it called if there is one. -/
structure Machine (H : Type) where
  driver : State
  requests : PicId → ℕ → Bool
  inService : PicId → ℕ → Bool
  handlers : ℕ → Option H
  log : List (ℕ × Option H)

/-- What happens. A request may be gone when the processor acknowledges it, at the master or at the slave. -/
inductive Event (H : Type) where
  | raise (irq : ℕ)
  | withdraw (irq : ℕ)
  | register (irq : ℕ) (handler : H)
  | call (c : Call)
  | interrupt (gone : Option PicId)

namespace Machine
variable {H : Type} (m : Machine H)

/-! ## The chips -/

def setRequest (id : PicId) (i : ℕ) (level : Bool) : Machine H :=
  { m with requests := Function.update m.requests id (Function.update (m.requests id) i level) }

def setInService (id : PicId) (i : ℕ) (level : Bool) : Machine H :=
  { m with inService := Function.update m.inService id (Function.update (m.inService id) i level) }

/-- The request of the highest priority that is not masked, nor held up by a line in service. -/
def selects (id : PicId) (requests : ℕ → Bool) : Option ℕ :=
  (List.range 8).find? fun i => requests i && !(m.driver.chips id).mask.getLsbD i &&
    (List.range (i + 1)).all fun j => !m.inService id j

/-- The slave is wired to a line of the master. -/
def masterRequests (i : ℕ) : Bool :=
  if i = I8259_IRQ_CASCADE then (m.selects .slave (m.requests .slave)).isSome else m.requests .master i

def serve (id : PicId) (i : ℕ) : Machine H := (m.setRequest id i false).setInService id i true

theorem serve_inService (id : PicId) (i : ℕ) : (m.serve id i).inService =
    Function.update m.inService id (Function.update (m.inService id) i true) := rfl

/-- The vector of a line. -/
def vector (id : PicId) (i : ℕ) : ℕ := ((m.driver.chips id).icw2 &&& 0xf8).toNat + i

/-- The slave gives the vector, that of its last line when the request is gone. -/
def acknowledgeSlave (gone : Bool) : ℕ × Machine H :=
  match if gone then none else m.selects .slave (m.requests .slave) with
  | none => (m.vector .slave 7,m)
  | some j => (m.vector .slave j,m.serve .slave j)

def acknowledge : Option PicId → ℕ × Machine H
  | some .master => (m.vector .master 7,m)
  | some .slave =>
    (m.setInService .master I8259_IRQ_CASCADE true).acknowledgeSlave true
  | none =>
    match m.selects .master m.masterRequests with
    | none => (m.vector .master 7,m)
    | some i =>
      if (m.driver.chips .master).icw3.getLsbD i then
        (m.setInService .master i true).acknowledgeSlave false
      else (m.vector .master i,m.serve .master i)

/-- The command without a line ends the interrupt of the highest priority. -/
def endOfInterrupt (id : PicId) : Machine H :=
  match (List.range 8).find? (m.inService id) with
  | none => m
  | some i => m.setInService id i false

/-- `io_write` of a byte to a command port. -/
def writeCmd (port : ℕ) (byte : BitVec 8) : Machine H :=
  let m' : Machine H := { m with driver := ioWrite m.driver port byte }
  if byte = I8259_OCW2_EOI then
    match port with
    | 0x20 => m'.endOfInterrupt .master
    | 0xa0 => m'.endOfInterrupt .slave
    | _ => m'
  else m'

/-! ## The driver -/

def i8259PicEoi (id : PicId) : Machine H := m.writeCmd (m.driver.pics id).cmdPort I8259_OCW2_EOI

def i8259IrqEoi (irq : ℕ) : Option (Machine H) := do
  let (id,_) ← i8259ConvertGlobalIrq irq
  let m := if (m.driver.pics id).master = false then m.i8259PicEoi .master else m
  return m.i8259PicEoi id

/-- `cpu_irq_register`, with the assertions of `cpu_lookup_irq_handler` and `cpu_irq_handler_set_fn`. -/
def cpuIrqRegister (irq : ℕ) (handler : H) : Option (Machine H) := do
  guard (irq < 16)
  guard (m.handlers irq).isNone
  let driver ← i8259IrqEnable m.driver irq
  return { m with driver := driver, handlers := Function.update m.handlers irq (some handler) }

/-- `cpu_intr_main`. Without a handler it prints an error. -/
def cpuIntrMain (vector : ℕ) : Option (Machine H) :=
  if vector < 32 then some m
  else do
    let irq := vector - 32
    let m ← m.i8259IrqEoi irq
    guard (irq < 16)
    return { m with log := m.log ++ [(irq,m.handlers irq)] }

def step : Event H → Option (Machine H)
  | .raise irq =>
    if irq < 16 ∧ irq ≠ I8259_IRQ_CASCADE then some (m.setRequest (line irq).1 (line irq).2 true) else some m
  | .withdraw irq =>
    if irq < 16 ∧ irq ≠ I8259_IRQ_CASCADE then some (m.setRequest (line irq).1 (line irq).2 false) else some m
  | .register irq handler => m.cpuIrqRegister irq handler
  | .call c => (c.run m.driver).map fun driver => { m with driver := driver }
  | .interrupt gone => (m.acknowledge gone).2.cpuIntrMain (m.acknowledge gone).1

def run (m : Machine H) (events : List (Event H)) : Option (Machine H) := events.foldlM step m

/-- After `cpu_setup` and `i8259_setup`. -/
def boot (H : Type) (chips : PicId → Chip) : Option (Machine H) :=
  (i8259Setup ⟨i8259Pics,chips⟩).map fun driver => ⟨driver,fun _ _ => false,fun _ _ => false,fun _ => none,[]⟩

end Machine

/-! ## One controller -/

/-- What the two controllers, the driver and the dispatch are for: one controller with lines in the order of
their priority. -/
structure Spec (H : Type) where
  pending : ℕ → Bool
  enabled : ℕ → Bool
  handlers : ℕ → Option H
  log : List (ℕ × Option H)

namespace Spec
variable {H : Type} (sp : Spec H)

/-- The lines of the slave come where it is wired. -/
def priorities : List ℕ := [0,1] ++ [8,9,10,11,12,13,14,15] ++ [3,4,5,6,7]

def deliverable (irq : ℕ) : Bool := sp.enabled irq && (decide (irq < 8) || sp.enabled I8259_IRQ_CASCADE)

def next : Option ℕ := priorities.find? fun irq => sp.pending irq && sp.deliverable irq

def setPending (irq : ℕ) (level : Bool) : Spec H := { sp with pending := Function.update sp.pending irq level }

def setEnabled (irq : ℕ) (level : Bool) : Spec H := { sp with enabled := Function.update sp.enabled irq level }

def call (irq : ℕ) : Spec H := { sp with log := sp.log ++ [(irq,sp.handlers irq)] }

def step : Event H → Option (Spec H)
  | .raise irq =>
    if irq < 16 ∧ irq ≠ I8259_IRQ_CASCADE then some (sp.setPending irq true) else some sp
  | .withdraw irq =>
    if irq < 16 ∧ irq ≠ I8259_IRQ_CASCADE then some (sp.setPending irq false) else some sp
  | .register irq handler =>
    if irq < 16 ∧ (sp.handlers irq).isNone then
      some { sp.setEnabled irq true with handlers := Function.update sp.handlers irq (some handler) }
    else none
  | .call (.enable irq) => if irq < 16 then some (sp.setEnabled irq true) else none
  | .call (.disable irq) => if irq < 16 then some (sp.setEnabled irq false) else none
  | .interrupt (some .master) => some (sp.call 7)
  | .interrupt (some .slave) => some (sp.call 15)
  | .interrupt none =>
    match sp.next with
    | none => some (sp.call 7)
    | some irq => some ((sp.setPending irq false).call irq)

def run (sp : Spec H) (events : List (Event H)) : Option (Spec H) := events.foldlM step sp

def start (H : Type) : Spec H := ⟨fun _ => false,fun irq => decide (irq = I8259_IRQ_CASCADE),fun _ => none,[]⟩

end Spec

end X1.I8259
