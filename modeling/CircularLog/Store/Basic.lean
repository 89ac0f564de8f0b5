import CircularLog.Partition.Recovery

/-!
# The store

A store keeps a partition for each layout it was mounted with, and finds them by their ids. To
mount it is to place the partitions, to set up those that are new, and to find the fill state of
each. What the store knows without the memories, how full a partition is and where it lies, can be
asked at any time.
-/

namespace CircularLog

/-- A partition and how full it is. -/
structure Volume where
  partition : Partition
  status : Status

/-- A mounted store. -/
structure Store (g : Geometry) where
  space : Space g
  media : Media g
  /-- The partitions, in the order of their layouts. -/
  volumes : List Volume
  /-- An inconsistency has been found. -/
  faulted : Bool

/-- The volume of a partition id. -/
def Volume.lookup (id : UInt8) (volumes : List Volume) : Option Volume :=
  volumes.find? (·.partition.id == id)

/-- The volumes with a new fill state for a partition id. -/
def Volume.update (id : UInt8) (status : Status) (volumes : List Volume) : List Volume :=
  volumes.map fun volume => if volume.partition.id == id then { volume with status } else volume

namespace Store

variable {g : Geometry}

/-! ## Mounting -/

/-- Set up each partition if it is new, and find its fill state. -/
def mountEach (space : Space g) : List Partition → Action Error (Media g) (List Volume)
  | [] => pure []
  | p :: rest => do
    p.ensureFormatted space
    let status ← (p.recover space).startingFrom Status.empty
    return ⟨p, status⟩ :: (← mountEach space rest)

/-- Make a store of the memories; where that fails, the memories as they are then. The layouts are
placed from an address on before anything is read or written. -/
def mount (space : Space g) (slots base : Nat) (layouts : List Layout) (media : Media g) :
    Except (Stop Error × Media g) (Store g) :=
  match (do mountEach space (← Action.ofStop (space.plan slots base layouts))) media with
  | .ok volumes media => .ok ⟨space, media, volumes, false⟩
  | .error stop media => .error (stop, media)

/-! ## Asking without the memories -/

/-- The volume of a partition id, which must be one of the store's. -/
def volume (store : Store g) (id : UInt8) : Except Error Volume :=
  match Volume.lookup id store.volumes with
  | some volume => .ok volume
  | none => .error .invalidRange

/-- How full a partition is. -/
def status (store : Store g) (id : UInt8) : Except Error Status :=
  return (← store.volume id).status

/-- Where a partition is. -/
def partition (store : Store g) (id : UInt8) : Except Error Partition :=
  return (← store.volume id).partition

end Store

end CircularLog
