import CircularLog.Store.Latch

/-!
# Reports

A partition's fill state and table as a text for people to read: a line for the partition, and one
for each row. Rows are shown as they are in the memory, whether they make sense or not.
-/

namespace CircularLog

/-- A number in hexadecimal, marked as such. -/
def hexText (n : Nat) : String := "0x" ++ String.ofList (Nat.toDigits 16 n)

/-- A number with blanks before it up to a width. -/
def padded (width n : Nat) : String :=
  let text := toString n
  String.ofList (List.replicate (width - text.length) ' ') ++ text

/-- The text of a fill state. -/
def Status.text (status : Status) : String :=
  s!"PartitionStatus \x7b oldest_row_index: {status.oldestRow}, " ++
    s!"num_stored_items: {status.stored}, filled_len: {status.filled} \x7d"

/-- The text of what a row holds. -/
def Row.text : Option Row → String
  | some entry => s!"id {entry.id}, start {entry.start}, len {entry.length}"
  | none => "erased"

namespace Partition

variable {g : Geometry} (space : Space g) (p : Partition)

/-- Go on with a report over so many rows from `row` on. -/
def reportRows (row : Nat) (text : String) : Nat → Action Error (Media g) String
  | 0 => return text
  | rows + 1 => do
    let entry := Row.decode (← space.read (← p.locateRow row) rowBytes)
    reportRows (row + 1) (text ++ "  " ++ padded 5 row ++ ": " ++ Row.text entry ++ "\n") rows

/-- The report on a partition. -/
def report (status : Status) : Action Error (Media g) String :=
  p.reportRows space 0 s!"Partition {p.id} at {hexText p.base}: {status.text}\n" p.maxItems

end Partition

/-- The report on a partition of the store; it neither asks nor sets the latch. -/
def Store.report {g : Geometry} (id : UInt8) : Action Error (Store g) String :=
  Action.alone <| Store.reading id fun space volume =>
    (volume.partition.report space volume.status).beside

end CircularLog
