import CircularLog.Device.Eeprom
import CircularLog.Geometry

/-!
# The flash

A simulated paged memory. Programming clears bits in whole programming units, erasing sets every
bit of whole pages. A number of programming and erasing calls can be made to time out without
effect. Calls are counted before anything about them is checked.
-/

namespace CircularLog

/-- A flash of the geometry's size. -/
structure Flash (g : Geometry) where
  memory : Memory g.flashBytes
  reads : Nat
  writes : Nat
  erases : Nat
  /-- How many of the next programming and erasing calls time out. -/
  timeouts : Nat

namespace Flash

variable {g : Geometry}

/-- A fresh flash: every bit set, nothing counted. -/
def fresh (g : Geometry) : Flash g := ⟨Memory.erased g.flashBytes, 0, 0, 0, 0⟩

/-- A range of cells starts at a programming unit and ends inside the memory. -/
def checkRange (g : Geometry) (address length : Nat) : Except DeviceError Unit :=
  if address % g.wordBytes ≠ 0 then .error .notAligned
  else if g.flashBytes < address + length then .error .outOfBounds
  else .ok ()

/-- Let the call time out if it is one of those that do. -/
def takeTimeout : Action DeviceError (Flash g) Unit := do
  if (← get).timeouts ≠ 0 then
    modify fun device => { device with timeouts := device.timeouts - 1 }
    Action.fail .timeout

/-- Read `length` bytes from `address` on. -/
def read (address length : Nat) : Action DeviceError (Flash g) Bytes := do
  modify fun device => { device with reads := device.reads + 1 }
  Action.ensure (length % g.wordBytes = 0) .readNotWhole
  Action.ofExcept (checkRange g address length)
  return (← get).memory.slice address length

/-- Program the bytes from `address` on: a bit that is clear in the memory or in `bytes` is clear
afterwards. -/
def program (address : Nat) (bytes : Bytes) : Action DeviceError (Flash g) Unit := do
  modify fun device => { device with writes := device.writes + 1 }
  takeTimeout
  Action.ofExcept (checkRange g address bytes.length)
  Action.ensure (bytes.length % g.wordBytes = 0) .writeNotWhole
  modify fun ⟨memory, reads, writes, erases, timeouts⟩ =>
    ⟨memory.combine (fun _ old new => old &&& new) address bytes, reads, writes, erases, timeouts⟩

/-- Set every bit of the pages from `start` to `stop`. -/
def erase (start stop : Nat) : Action DeviceError (Flash g) Unit := do
  modify fun device => { device with erases := device.erases + 1 }
  takeTimeout
  Action.ensure (start ≤ stop) .eraseReversed
  if g.flashBytes < stop then
    Action.fail .outOfBounds
  if start % g.pageBytes ≠ 0 ∨ stop % g.pageBytes ≠ 0 then
    Action.fail .notAligned
  modify fun ⟨memory, reads, writes, erases, timeouts⟩ =>
    ⟨memory.combine (fun _ _ new => new) start (List.replicate (stop - start) 0xFF), reads, writes,
      erases, timeouts⟩

/-- Put bytes into the cells from `address` on, as no driver call could. -/
def poke (device : Flash g) (address : Nat) (bytes : Bytes) : Flash g :=
  { device with memory := device.memory.combine (fun _ _ new => new) address bytes }

end Flash

end CircularLog
