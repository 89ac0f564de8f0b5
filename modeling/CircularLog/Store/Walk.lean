import CircularLog.Store.Operations

/-!
# Walking

All items of a partition from the oldest to the newest, found as a caller finds them: by the key
of the oldest item, and then from key to key until there is no next one.
-/

namespace CircularLog

namespace Store

variable {g : Geometry} {α : Type}

/-- The largest payload that an item can have. -/
def payloadLimit : Nat := 0x1_0000 - 1

/-- The answer of an action, or none if what it looks for is not there. -/
def whereFound (x : Action Error (Store g) α) : Action Error (Store g) (Option α) :=
  (some <$> x).rescue fun error =>
    if error = .notFound then pure none else Action.fail error

/-- The items from a key on, so many at most, behind those seen before (latest first). -/
def walkFrom (key : Key) (seen : List (Key × Bytes)) :
    Nat → Action Error (Store g) (List (Key × Bytes))
  | 0 => return seen.reverse
  | items + 1 => do
    let payload ← fetch key payloadLimit
    match ← whereFound (successor key) with
    | none => return ((key, payload) :: seen).reverse
    | some next => walkFrom next ((key, payload) :: seen) items

/-- The items of a partition with their keys, oldest first, so many at most. -/
def walk (id : UInt8) (limit : Nat) : Action Error (Store g) (List (Key × Bytes)) := do
  match ← whereFound (oldestKey id) with
  | none => return []
  | some key => walkFrom key [] limit

end Store

end CircularLog
