import CircularLog.Partition.Recovery

/-!
# Appending

A new item goes into the row behind the newest item, and its payload into the area behind the
newest payload, around the end if need be. The oldest items make room for it, as few as will do.
Its row is written before its payload, and is erased again if the payload cannot be written, so
that no row stands without its payload.
-/

namespace CircularLog

namespace Partition

variable {g : Geometry} (space : Space g) (p : Partition)

/-- The fill state. -/
def status : Action Error (Media g × Status) Status := return (← get).2

/-- Change the fill state. -/
def setStatus (status : Status) : Action Error (Media g × Status) Unit :=
  modify fun (media, _) => (media, status)

/-- Take out the oldest item. -/
def evict : Action Error (Media g × Status) Unit := do
  let before ← status
  if before.stored = 0 then
    Action.fail .inconsistent
  let entry ← (p.readStored space before.oldestRow).beside
  (p.eraseRow space before.oldestRow).beside
  let stored ← Action.difference before.stored 1
  setStatus { before with stored }
  if before.filled < entry.length.toNat then
    Action.fail .inconsistent
  setStatus ⟨← p.stepRow before.oldestRow, stored, before.filled - entry.length.toNat⟩

/-- Take out the oldest items, so many at most, until so many more bytes fit into the area. -/
def makeRoom (length : Nat) : Nat → Action Error (Media g × Status) Unit
  | 0 => Action.fail .inconsistent
  | items + 1 => do
    if p.areaLength < (← Action.sum 0x1_0000_0000 (← status).filled length) then
      p.evict space
      makeRoom length items

/-- Where the payload behind that of an entry starts. -/
def startBehind {ε σ : Type} (entry : Row) : Action ε σ Nat := do
  let _ ← Action.sum 0x1_0000_0000_0000_0000 entry.start.toNat entry.length.toNat
  return (entry.stopWord (UInt32.ofNat p.areaLength)).toNat

/-- It starts where the other one stops, going round the area. -/
theorem startBehind_eq {ε σ : Type} (entry : Row) :
    (p.startBehind entry : Action ε σ Nat) = pure (entry.stop p.areaLength) := by
  have hstart : entry.start.toNat < 2 ^ 32 := entry.start.toNat_lt
  have hlength : entry.length.toNat < 2 ^ 16 := entry.length.toNat_lt
  have hword : (UInt32.ofNat p.areaLength).toNat = p.areaLength :=
    UInt32.toNat_ofNat_of_lt' p.areaLength_lt
  rw [startBehind, Action.sum_eq (by omega), pure_bind,
    Row.toNat_stopWord _ (by rw [hword]; exact p.areaLength_pos), hword]

/-- Where the next item goes: its row, its id and the start of its payload. They follow those of
the newest item. -/
def vacancy (status : Status) : Action Error (Media g) (Nat × UInt32 × Nat) := do
  if status.stored = 0 then
    return (status.oldestRow, 0, 0)
  let newest ← p.newestRow status.oldestRow status.stored
  let next ← p.stepRow newest
  let entry ← p.readStored space newest
  return (next, entry.id + 1, ← p.startBehind entry)

/-- Write the row of an item and its payload, in two parts if it goes around the end. -/
def writeItem (row : Nat) (entry : Row) (payload : Bytes) : Action Error (Media g) Unit := do
  space.write (← p.locateRow row) entry.encode
  let first := min payload.length (← Action.difference p.areaLength entry.start.toNat)
  let _ ← Action.cut payload.length first
  space.write (← Action.sum 0x1_0000_0000 p.area entry.start.toNat) (payload.take first)
  space.write p.area (payload.drop first)

/-- Append an item: the row and the id that it got. -/
def appendOnce (payload : Bytes) : Action Error (Media g × Status) (Nat × UInt32) := do
  if p.areaLength < payload.length ∨ 0x1_0000 ≤ payload.length then
    Action.fail .outOfRoom
  -- The newest row is read before anything is taken out, so that the ids go on even where this item
  -- pushes out every other.
  let (row, id, start) ← (p.vacancy space (← status)).beside
  p.makeRoom space payload.length ((← status).stored + 1)
  if (← status).stored = p.maxItems then
    p.evict space
  let entry : Row := ⟨id, UInt32.ofNat start, UInt16.ofNat payload.length⟩
  -- A row without its payload must not be taken for an item.
  ((p.writeItem space row entry payload).rescue fun error => do
    (p.eraseRow space row).mapError fun _ => .inconsistent
    Action.fail error).beside
  let room ← status
  let stored ← Action.sum 0x1_0000 room.stored 1
  let filled ← Action.sum 0x1_0000_0000 room.filled payload.length
  setStatus ⟨if room.stored = 0 then row else room.oldestRow, stored, filled⟩
  return (row, id)

/-- Append an item. Where the memories fail, the fill state is found again in the table before the
error is told; the item is not stored then, but some of the oldest may be gone. -/
def append (payload : Bytes) : Action Error (Media g × Status) (Nat × UInt32) :=
  (p.appendOnce space payload).rescue fun error => do
    if error.isInterruption then
      (p.recover space).mapError fun _ => .inconsistent
    Action.fail error

end Partition

end CircularLog
