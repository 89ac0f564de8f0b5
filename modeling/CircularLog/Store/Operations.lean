import CircularLog.Partition.Append
import CircularLog.Partition.Lookup
import CircularLog.Store.Latch

/-!
# Operations

What a caller does with a store: `append` items, get the `oldestKey` of a partition and the
`successor` of a key, ask for the `itemLength` and `fetch` the payload of an item, and `find` the
first item that passes a test, or `seek` it with a buffer of one's own. `advance` and `load` are
`successor` and `fetch` with the answer put into the key or the buffer that the caller holds.
-/

namespace CircularLog

namespace Store

open CircularLog.Action (alone owning)

variable {g : Geometry} {π : Type}

/-- Store an item in a partition, at the expense of the oldest ones there. -/
def append (id : UInt8) (payload : Bytes) : Action Error (Store g) Key :=
  alone <| latched <| changing id fun space p => do
    let (row, item) ← p.append space payload
    return ⟨p.id, row, item⟩

/-- The key of the oldest item of a partition. -/
def oldestKey (id : UInt8) : Action Error (Store g) Key :=
  alone <| latched <| reading id fun space volume =>
    (volume.partition.oldestKey space volume.status).beside

/-- The key of the next newer item, or of the oldest one if the key is stale. -/
def successor (key : Key) : Action Error (Store g) Key :=
  alone <| latched <| reading key.partition fun space volume =>
    (volume.partition.successor space volume.status key).beside

/-- The length of the item that a key names. -/
def itemLength (key : Key) : Action Error (Store g) Nat :=
  alone <| latched <| reading key.partition fun space volume =>
    (volume.partition.itemLength space key).beside

/-- The payload of the item that a key names, if it has at most so many bytes. -/
def fetch (key : Key) (capacity : Nat) : Action Error (Store g) Bytes :=
  alone <| latched <| reading key.partition fun space volume =>
    (volume.partition.fetch space key capacity).beside

/-- The key of the oldest item of a partition that passes a test, which may keep a state. Each
payload is loaded into a buffer of the caller's, which it must fit. -/
def seek (id : UInt8) (test : Bytes → StateM π Bool) : Action Error (Store g × Bytes × π) Key :=
  latched <| reading id fun space volume => volume.partition.seek space volume.status test

/-- The same with a buffer of so many bytes that is made for the search. -/
def find (id : UInt8) (capacity : Nat) (test : Bytes → StateM π Bool) :
    Action Error (Store g × π) Key :=
  owning (List.replicate capacity 0) (seek id test)

/-- Move a key to the next newer item; it stays where it is if there is none. -/
def advance : Action Error (Store g × Key) Unit := do
  let next ← (successor (← get).2).beside
  modify fun (store, _) => (store, next)

/-- Copy the item that a key names to the front of a buffer, and tell its length. -/
def load (key : Key) : Action Error (Store g × Bytes) Nat := do
  let payload ← (fetch key (← get).2.length).beside
  modify fun (store, buffer) => (store, buffer.overlay 0 payload)
  return payload.length

end Store

end CircularLog
