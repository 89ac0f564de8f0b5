import CircularLog.Action
import CircularLog.Memory

/-!
# The eeprom

A simulated byte addressable memory. A write replaces bytes and keeps the memory busy for a number
of polls afterwards; one worn out cell may ignore what is written to it. Calls are counted, those
that fail for their range included.
-/

namespace CircularLog

/-- How a simulated memory refuses a call. -/
inductive DeviceError where
  | outOfBounds
  | notAligned
  /-- The call did not complete in time. -/
  | timeout
  deriving DecidableEq

/-- What the driver makes of a refusal. -/
def DeviceError.kind : DeviceError → FailureKind
  | outOfBounds => .outOfBounds
  | notAligned => .notAligned
  | timeout => .other

/-- An eeprom of `size` bytes. -/
structure Eeprom (size : Nat) where
  memory : Memory size
  reads : Nat
  writes : Nat
  /-- How many polls after a write are answered with busy. -/
  busyPolls : Nat
  /-- How many of them are still to come. -/
  busyLeft : Nat
  /-- The cell that ignores what is written to it. -/
  stuck : Option Nat

namespace Eeprom

variable {size : Nat}

/-- A fresh eeprom: every bit set, nothing counted, two busy polls after each write. -/
def fresh (size : Nat) : Eeprom size := ⟨Memory.erased size, 0, 0, 2, 0, none⟩

/-- A number of busy polls that never runs down. -/
def endless : Nat := 0x1_0000_0000 - 1

/-- What a cell holds after a write: the stuck cell keeps its byte, any other takes the new one. -/
def replace (stuck : Option Nat) (address : Nat) (old new : UInt8) : UInt8 :=
  if stuck = some address then old else new

/-- Read `length` bytes from `address` on. -/
def read (address length : Nat) : Action DeviceError (Eeprom size) Bytes := do
  modify fun device => { device with reads := device.reads + 1 }
  if address + length ≤ size then
    return (← get).memory.slice address length
  else
    Action.fail .outOfBounds

/-- Replace the bytes from `address` on; the memory is busy from then on. -/
def write (address : Nat) (bytes : Bytes) : Action DeviceError (Eeprom size) Unit := do
  modify fun device => { device with writes := device.writes + 1 }
  if address + bytes.length ≤ size then
    modify fun ⟨memory, reads, writes, busyPolls, _, stuck⟩ =>
      ⟨memory.combine (replace stuck) address bytes, reads, writes, busyPolls, busyPolls, stuck⟩
  else
    Action.fail .outOfBounds

/-- Ask whether the memory is busy; each busy answer uses up one of the polls left. -/
def poll : Action DeviceError (Eeprom size) Bool :=
  modifyGet fun device =>
    if device.busyLeft = 0 then (false, device)
    else if device.busyLeft = endless then (true, device)
    else (true, { device with busyLeft := device.busyLeft - 1 })

/-- Put bytes into the cells from `address` on, as no driver call could. -/
def poke (device : Eeprom size) (address : Nat) (bytes : Bytes) : Eeprom size :=
  { device with memory := device.memory.combine (fun _ _ new => new) address bytes }

end Eeprom

end CircularLog
