import CircularLog.Bytes

/-!
# Queries

Tests that a search puts payloads to. A test may count how often it was asked, so it works on a
state: the lengths of the payloads it was given so far.
-/

namespace CircularLog

/-- What a search looks for. -/
inductive Query where
  | any
  | none
  /-- A payload of this length. -/
  | length (n : Nat)
  /-- A payload of at least this length. -/
  | minLength (n : Nat)
  /-- The payload that is tested as the `n`-th one. -/
  | nth (n : Nat)
  | startsWith (front : Bytes)
  | equals (payload : Bytes)
  /-- A payload with these bytes in a row somewhere. -/
  | contains (part : Bytes)

namespace Query

/-- Do the bytes of `part` stand in a row somewhere in the other bytes? -/
def occursIn (part : Bytes) : Bytes → Bool
  | [] => part.isEmpty
  | byte :: bytes => part.isPrefixOf (byte :: bytes) || occursIn part bytes

/-- Does a payload answer the query, when it is tested as the `count`-th one? -/
def holds (count : Nat) (bytes : Bytes) : Query → Bool
  | any => true
  | none => false
  | length n => bytes.length == n
  | minLength n => n ≤ bytes.length
  | nth n => count == n
  | startsWith front => front.isPrefixOf bytes
  | equals payload => bytes == payload
  | contains part => occursIn part bytes

/-- Test a payload and note its length. -/
def test (query : Query) (bytes : Bytes) : StateM (Array Nat) Bool :=
  modifyGet fun seen => (query.holds (seen.size + 1) bytes, seen.push bytes.length)

end Query

end CircularLog
