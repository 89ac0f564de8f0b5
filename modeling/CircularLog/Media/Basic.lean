import CircularLog.Device.Flash
import CircularLog.Media.Fault

/-!
# The media

Both memories behind their drivers, with the plan of faults that the driver calls go through and a
journal of the calls made. Every access of the address space is one of the six calls here:
`eepromRead`, `eepromWrite`, `eepromPoll`, `flashRead`, `flashProgram` and `flashErase`. A call is
written into the journal, then the plan is asked for a lapse, and without one the call reaches the
memory.
-/

namespace CircularLog

/-- A driver call: what was asked of which memory, and for which cells. -/
structure Call where
  medium : Medium
  access : Access
  address : Nat
  length : Nat
  deriving DecidableEq

/-- The two memories, the faults to come and the calls so far. -/
structure Media (g : Geometry) where
  eeprom : Eeprom g.eepromBytes
  flash : Flash g
  /-- The faults that driver calls meet. -/
  faults : List Fault
  /-- The driver calls made, latest first. -/
  journal : List Call

namespace Media

variable {g : Geometry} {α : Type}

/-- Fresh memories, no faults and no calls. -/
def fresh (g : Geometry) : Media g := ⟨Eeprom.fresh g.eepromBytes, Flash.fresh g, [], []⟩

/-- Let the eeprom do something, its refusals reported as the driver does. -/
def onEeprom (x : Action DeviceError (Eeprom g.eepromBytes) α) :
    Action FailureKind (Media g) α := fun ⟨eeprom, flash, faults, journal⟩ =>
  match x.mapError DeviceError.kind eeprom with
  | .ok a eeprom => .ok a ⟨eeprom, flash, faults, journal⟩
  | .error e eeprom => .error e ⟨eeprom, flash, faults, journal⟩

/-- Let the flash do something, its refusals reported as the driver does. -/
def onFlash (x : Action DeviceError (Flash g) α) : Action FailureKind (Media g) α :=
  fun ⟨eeprom, flash, faults, journal⟩ =>
  match x.mapError DeviceError.kind flash with
  | .ok a flash => .ok a ⟨eeprom, flash, faults, journal⟩
  | .error e flash => .error e ⟨eeprom, flash, faults, journal⟩

/-- Write a call into the journal and ask the plan whether it is a lapse. -/
def submit (call : Call) : Action FailureKind (Media g) (Option Lapse) :=
  modifyGet fun ⟨eeprom, flash, faults, journal⟩ =>
    let (lapse, faults) := Fault.next call.medium call.access faults
    (lapse, ⟨eeprom, flash, faults, call :: journal⟩)

/-- What a lapse reports: its failure, or success. -/
def reported (lapse : Lapse) : Action FailureKind (Media g) Unit :=
  match lapse.report with
  | some kind => Action.fail kind
  | none => pure ()

/-- A reading call; a lapse that claims success flips bits of what was read. -/
def readThrough (call : Call) (read : Action FailureKind (Media g) Bytes) :
    Action FailureKind (Media g) Bytes := do
  match ← submit call with
  | none => read
  | some lapse =>
    reported lapse
    return (← read).flip lapse.mask

/-- A writing call; of a lapse only the first bytes reach the memory, in whole units. -/
def writeThrough (call : Call) (unit : Nat) (write : Bytes → Action FailureKind (Media g) Unit)
    (bytes : Bytes) : Action FailureKind (Media g) Unit := do
  match ← submit call with
  | none => write bytes
  | some lapse =>
    let part := bytes.take (min lapse.stored bytes.length / unit * unit)
    if part ≠ [] then
      write part
    reported lapse

/-! ## The driver calls -/

/-- Read from the eeprom. -/
def eepromRead (address length : Nat) : Action FailureKind (Media g) Bytes :=
  readThrough ⟨.eeprom, .read, address, length⟩ (onEeprom (Eeprom.read address length))

/-- Write to the eeprom. -/
def eepromWrite (address : Nat) (bytes : Bytes) : Action FailureKind (Media g) Unit :=
  writeThrough ⟨.eeprom, .write, address, bytes.length⟩ 1
    (fun part => onEeprom (Eeprom.write address part)) bytes

/-- Ask the eeprom whether it is busy. -/
def eepromPoll : Action FailureKind (Media g) Bool := do
  match ← submit ⟨.eeprom, .poll, 0, 0⟩ with
  | none => onEeprom Eeprom.poll
  | some lapse =>
    reported lapse
    return lapse.busy

/-- Read from the flash. -/
def flashRead (address length : Nat) : Action FailureKind (Media g) Bytes :=
  readThrough ⟨.flash, .read, address, length⟩ (onFlash (Flash.read address length))

/-- Program the flash. -/
def flashProgram (address : Nat) (bytes : Bytes) : Action FailureKind (Media g) Unit :=
  writeThrough ⟨.flash, .write, address, bytes.length⟩ g.wordBytes
    (fun part => onFlash (Flash.program address part)) bytes

/-- Erase the pages of the flash from `start` to `stop`. -/
def flashErase (start stop : Nat) : Action FailureKind (Media g) Unit := do
  match ← submit ⟨.flash, .erase, start, stop - start⟩ with
  | none => onFlash (Flash.erase start stop)
  | some lapse =>
    if stop - start ≤ lapse.stored then
      onFlash (Flash.erase start stop)
    reported lapse

end Media

end CircularLog
