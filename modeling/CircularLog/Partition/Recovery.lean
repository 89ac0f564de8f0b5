import CircularLog.Partition.Rows

/-!
# Recovery

The fill state of a partition is not stored; it is found again in the table. The oldest item is
the one with the smallest id, and the items are the run of consecutive ids from its row on. A row
behind the run that holds something is what a store that was cut off left behind, and is erased.
-/

namespace CircularLog

/-- How full a partition is. -/
structure Status where
  /-- The row of the oldest item. -/
  oldestRow : Nat
  /-- The number of items. -/
  stored : Nat
  /-- The number of bytes of the area that their payloads take. -/
  filled : Nat
  deriving DecidableEq

/-- Nothing is stored, and the first item goes into the first row. -/
def Status.empty : Status := ⟨0, 0, 0⟩

/-- What is known of the rows that have been looked at. -/
structure Survey where
  /-- How many of them hold an item. -/
  present : Nat
  /-- The first row among those with the smallest id, and that id. -/
  oldest : Option (Nat × UInt32)

/-- The survey with one more row that holds an item, so many rows behind `row`. -/
def Survey.note {ε σ : Type} (survey : Survey) (row offset : Nat) (entry : Row) :
    Action ε σ Survey := do
  let present ← Action.sum 0x1_0000 survey.present 1
  if survey.oldest.all (entry.id < ·.2) then
    return ⟨present, some (← Action.sum 0x1_0000 row offset, entry.id)⟩
  return ⟨present, survey.oldest⟩

/-- To add a row to a survey is settled. -/
theorem Survey.settled_note {ε σ : Type} (survey : Survey) (row offset : Nat) (entry : Row) :
    (survey.note row offset entry : Action ε σ Survey).Settled :=
  (Action.settled_sum _ _ _).bind fun _ =>
    .ite ((Action.settled_sum _ _ _).bind fun _ => .pure _) (.pure _)

namespace Partition

variable {g : Geometry} (space : Space g) (p : Partition)

/-- How many rows are read at a time. -/
def batchRows : Nat := 16

/-- Go on with a survey over the bytes of the rows from the one `offset` rows behind `row` on. -/
def noteRows (row offset : Nat) (survey : Survey) : List Bytes → Action Error (Media g) Survey
  | [] => pure survey
  | bytes :: rest =>
    match Row.decode bytes with
    | none => noteRows row (offset + 1) survey rest
    | some entry => do
      if ¬ entry.Fits p.areaLength then
        Action.fail .inconsistent
      noteRows row (offset + 1) (← survey.note row offset entry) rest

/-- Go on with a survey from `row` on, over so many batches at most. -/
def noteBatches (row : Nat) (survey : Survey) : Nat → Action Error (Media g) Survey
  | 0 => pure survey
  | batches + 1 => do
    if p.maxItems ≤ row then
      return survey
    let rows := min (← Action.difference p.maxItems row) batchRows
    let size ← Action.product 0x1_0000_0000_0000_0000 rows rowBytes
    Action.front (batchRows * rowBytes) size
    let bytes ← space.read (← p.locateRow row) size
    let survey ← p.noteRows row 0 survey (bytes.chunks rowBytes)
    noteBatches (← Action.sum 0x1_0000 row rows) survey batches

/-- Look at every row; a batch has one at least. -/
def survey : Action Error (Media g) Survey := p.noteBatches space 0 ⟨0, none⟩ p.maxItems

/-- The run of consecutive ids that goes on with `id` in `row`, over so many rows at most: the row
behind it, and the number of items and of their bytes, added to those before. -/
def followRun (row : Nat) (id : UInt32) (stored filled : Nat) :
    Nat → Action Error (Media g) (Nat × Nat × Nat)
  | 0 => pure (row, stored, filled)
  | rows + 1 => do
    match ← p.readRow space row with
    | none => return (row, stored, filled)
    | some entry =>
      if entry.id = id then
        let stored ← Action.sum 0x1_0000 stored 1
        let filled ← Action.sum 0x1_0000_0000 filled entry.length.toNat
        followRun (← p.stepRow row) (id + 1) stored filled rows
      else
        return (row, stored, filled)

/-- Erase whatever is in so many rows from `row` on. -/
def eraseRows (row : Nat) : Nat → Action Error (Media g) Unit
  | 0 => pure ()
  | rows + 1 => do
    if (← p.readRow space row).isSome then
      p.eraseRow space row
    eraseRows (← p.stepRow row) rows

/-- Find the fill state in the table, and erase what does not belong to it. -/
def recover : Action Error (Media g × Status) Unit := do
  let survey ← (p.survey space).beside
  match survey.oldest with
  | none => modify fun (media, _) => (media, Status.empty)
  | some (row, id) =>
    modify fun (media, status) => (media, { status with oldestRow := row })
    let (next, stored, filled) ← (p.followRun space row id 0 0 p.maxItems).beside
    if p.areaLength < filled then
      Action.fail .inconsistent
    -- With no more rows present than the run has, every row behind the run is empty already.
    if stored < survey.present then
      (p.eraseRows space next (p.maxItems - stored)).beside
    modify fun (media, status) => (media, { status with stored := stored, filled := filled })

end Partition

end CircularLog
