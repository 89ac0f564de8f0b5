import CircularLog.Partition.Layout
import CircularLog.Partition.Row
import CircularLog.Space.Write

/-!
# The rows of a partition

Reading and erasing single rows of a partition's table, and the header that says that the table
has been set up. A row that is read must describe a payload inside the area; anything else means
that the memory does not hold what was written.
-/

namespace CircularLog

namespace Partition

variable {g : Geometry} (space : Space g) (p : Partition)

/-- The header of a partition whose table has been set up. -/
def magic : Bytes := Bytes.ofNat headerBytes 0xBADF5001

/-- Set up the table, if the header does not say that it is: no row holds an item. The header is
written last, so that it never stands before a table that is not set up. -/
def ensureFormatted : Action Error (Media g) Unit := do
  if (← space.read p.base headerBytes) = magic then
    return
  space.fill p.table p.tableLength 0xFF
  space.write p.base magic

/-- What a row of the table holds. -/
def readRow (row : Nat) : Action Error (Media g) (Option Row) := do
  match Row.decode (← space.read (← p.locateRow row) rowBytes) with
  | none => return none
  | some entry =>
    if entry.Fits p.areaLength then
      return some entry
    Action.fail .inconsistent

/-- A row that must hold an item. -/
def readStored (row : Nat) : Action Error (Media g) Row := do
  match ← p.readRow space row with
  | some entry => return entry
  | none => Action.fail .inconsistent

/-- Take the item out of a row. -/
def eraseRow (row : Nat) : Action Error (Media g) Unit := do
  space.write (← p.locateRow row) Row.erased

end Partition

end CircularLog
