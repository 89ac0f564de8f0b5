import CircularLog.Partition.Recovery

/-!
# Looking up items

A key names an item by its partition, its row and its id. When a newer item has taken the row, or
the item was taken out, the key is stale: it finds nothing any more, and its successor is whatever
is the oldest item then. Everything here reads, and nothing changes the fill state.
-/

namespace CircularLog

/-- The name of an item. -/
structure Key where
  partition : UInt8
  row : Nat
  id : UInt32
  deriving DecidableEq

namespace Partition

variable {g : Geometry} {π : Type} (space : Space g) (p : Partition)

/-- The key of the oldest item. -/
def oldestKey (status : Status) : Action Error (Media g) Key := do
  if status.stored = 0 then
    Action.fail .notFound
  let entry ← p.readStored space status.oldestRow
  return ⟨p.id, status.oldestRow, entry.id⟩

/-- Refuse a key for a row that the partition does not have. -/
def requireRow (key : Key) : Action Error (Media g) Unit :=
  if key.row < p.maxItems then pure () else Action.fail .invalidRange

/-- The row of a key, if its item is still there. -/
def current (key : Key) : Action Error (Media g) (Option Row) :=
  return (← p.readRow space key.row).filter (·.id = key.id)

/-- The row of the item that a key names. -/
def entryOf (key : Key) : Action Error (Media g) Row := do
  p.requireRow key
  match ← p.current space key with
  | some entry => return entry
  | none => Action.fail .notFound

/-- The length of the item that a key names. -/
def itemLength (key : Key) : Action Error (Media g) Nat :=
  return (← p.entryOf space key).length.toNat

/-- The key of the next newer item, or of the oldest one if the key is stale. -/
def successor (status : Status) (key : Key) : Action Error (Media g) Key := do
  p.requireRow key
  if (← p.current space key).isNone then
    return ← p.oldestKey space status
  let next : Key := ⟨key.partition, ← p.stepRow key.row, key.id + 1⟩
  if (← p.current space next).isNone then
    Action.fail .notFound
  return next

/-- The payload of an item, in two parts if it goes around the end of the area. -/
def payload (entry : Row) : Action Error (Media g) Bytes := do
  let length := entry.length.toNat
  let first := min length (← Action.difference p.areaLength entry.start.toNat)
  let rest ← Action.cut length first
  let front ← space.read (← Action.sum 0x1_0000_0000 p.area entry.start.toNat) first
  let back ← space.read p.area rest
  return front ++ back

/-- The payload of the item that a key names, which a buffer of so many bytes must hold. -/
def fetch (key : Key) (capacity : Nat) : Action Error (Media g) Bytes := do
  let entry ← p.entryOf space key
  if capacity < entry.length.toNat then
    Action.fail (.bufferTooSmall entry.length.toNat)
  Action.front capacity entry.length.toNat
  p.payload space entry

/-- The payload of an item, or none if the item is not there any more. -/
def fetch? (key : Key) (capacity : Nat) : Action Error (Media g) (Option Bytes) :=
  (some <$> p.fetch space key capacity).rescue fun error =>
    if error = .notFound then pure none else Action.fail error

/-- Copy the payload of an item to the front of a buffer: its length, or none if the item is not
there any more. -/
def load? (key : Key) : Action Error (Media g × Bytes × π) (Option Nat) := do
  match ← (p.fetch? space key (← get).2.1.length).beside with
  | none => return none
  | some payload =>
    modify fun (media, buffer, state) => (media, buffer.overlay 0 payload, state)
    return some payload.length

/-- Put the front of the buffer, where so many bytes are those of an item, to a test that has a
state of its own. -/
def judged (test : Bytes → StateM π Bool) : Option Nat → Action Error (Media g × Bytes × π) Bool
  | none => return false
  | some length => do
    let bytes ← Action.part (← get).2.1 0 length
    modifyGet fun (media, buffer, state) =>
      let (verdict, state) := test bytes state
      (verdict, media, buffer, state)

/-- The first key from `key` on whose item passes the test, over so many items at most. -/
def seekFrom (status : Status) (test : Bytes → StateM π Bool) (key : Key) :
    Nat → Action Error (Media g × Bytes × π) Key
  | 0 => Action.fail .notFound
  | items + 1 => do
    if ← judged test (← p.load? space key) then
      return key
    seekFrom status test (← (p.successor space status key).beside) items

/-- The key of the oldest item that passes the test, each item being loaded into the buffer that the
caller lends for it; no item is tested twice. -/
def seek (status : Status) (test : Bytes → StateM π Bool) :
    Action Error (Media g × Bytes × π) Key := do
  p.seekFrom space status test (← (p.oldestKey space status).beside) p.maxItems

end Partition

end CircularLog
