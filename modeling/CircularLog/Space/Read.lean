import CircularLog.Space.Basic

/-!
# Reading

A request is split at the boundary. The part in the eeprom is one driver call; the part in the
flash is split at the ends of the pages, and each piece is cut out of the whole words that hold it.
Addresses are 32-bit machine words, and lengths of buffers 64-bit ones.
-/

namespace CircularLog

namespace Space

variable {g : Geometry}

/-- The whole words that hold `length` bytes at a cell of the flash, and the cell they start at.
They are read into the front of the scratch buffer. -/
def readWords (address length : Nat) : Action Error (Media g) (Nat × Bytes) := do
  let start ← roundDown g.wordSize address
  let stop ← roundUp g.wordSize (← Action.sum 0x1_0000_0000 address length)
  let size ← Action.difference stop start
  Action.front g.scratchBytes size
  return (start, ← driver .flash (Media.flashRead start size))

/-- Read `length` bytes that lie in one page of the flash. -/
def readPiece (address length : Nat) : Action Error (Media g) Bytes := do
  let (start, words) ← readWords address length
  let head ← Action.difference address start
  Action.part words head (← Action.sum 0x1_0000_0000_0000_0000 head length)

/-- Read `length` bytes from a cell of the flash on, page by page, from so many pages at most. -/
def readPages (address length : Nat) : Nat → Action Error (Media g) Bytes
  | 0 => pure []
  | pages + 1 => do
    if length = 0 then
      return []
    let near ← g.pagePart address length
    let far ← Action.cut length near
    let piece ← readPiece address near
    return piece ++ (← readPages (← Action.sum 0x1_0000_0000 address near) far pages)

variable (space : Space g)

/-- How many bytes of a request lie in the eeprom. -/
def eepromPart (address length : Nat) : Nat := min (space.boundary - address) length

/-- The cell of the flash behind an address that is not below the boundary. -/
def flashCell (address : Nat) : Nat := space.start + (address - space.boundary)

/-- That cell in machine words. -/
def locate (address : Nat) : Action Error (Media g) Nat := do
  Action.sum 0x1_0000_0000 space.start (← Action.difference address space.boundary)

/-- To find a cell is settled. -/
theorem settled_locate (address : Nat) :
    (space.locate address : Action Error (Media g) Nat).Settled :=
  (Action.settled_difference _ _).bind fun _ => Action.settled_sum _ _ _

/-- Read `length` bytes from `address` on. A request for nothing succeeds wherever it is. -/
def read (address length : Nat) : Action Error (Media g) Bytes := do
  if length = 0 then
    return []
  space.require address length
  let near := space.eepromPart address length
  let far ← Action.cut length near
  let front ← if near = 0 then pure [] else driver .eeprom (Media.eepromRead address near)
  if far = 0 then
    return front
  let cell ← space.locate (← Action.sum 0x1_0000_0000 address near)
  -- No page takes less than a byte of the request.
  return front ++ (← readPages cell far far)

end Space

end CircularLog
