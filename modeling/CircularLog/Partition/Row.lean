import CircularLog.Bytes

/-!
# Rows

A row of a table describes one item: its id, where its payload starts in the area, and how long it
is. It is stored as twelve bytes, little endian:

```text
0            4               8        10        12
| id         | start         | length | marker  |
```

The marker of a row that was written is zero. Erased memory is all ones, and writing goes from the
first byte to the last, so a row that was cut off keeps a set bit in its marker and is not taken
for an item.
-/

namespace CircularLog

/-- What the table knows of an item. -/
structure Row where
  id : UInt32
  /-- Where in the area its payload starts. -/
  start : UInt32
  length : UInt16
  deriving DecidableEq

namespace Row

/-- The bytes of a row that holds no item. -/
def erased : Bytes := List.replicate 12 0xFF

/-- The bytes of a row. -/
def encode (row : Row) : Bytes :=
  Bytes.ofNat 4 row.id.toNat ++ Bytes.ofNat 4 row.start.toNat ++ Bytes.ofNat 2 row.length.toNat ++
    Bytes.ofNat 2 0

/-- The row that the bytes spell, if its marker is there. -/
def decode (bytes : Bytes) : Option Row :=
  if (bytes.slice 10 2).toNat = 0 then
    some {
      id := UInt32.ofNat (bytes.slice 0 4).toNat
      start := UInt32.ofNat (bytes.slice 4 4).toNat
      length := UInt16.ofNat (bytes.slice 8 2).toNat }
  else
    none

/-- The payload of the row can lie in an area of so many bytes. -/
def Fits (row : Row) (areaLength : Nat) : Prop :=
  row.start.toNat < areaLength ∧ row.length.toNat ≤ areaLength

instance (row : Row) (areaLength : Nat) : Decidable (row.Fits areaLength) :=
  inferInstanceAs (Decidable (_ ∧ _))

/-- Where in a circular area of so many bytes the next payload starts. -/
def stop (row : Row) (areaLength : Nat) : Nat :=
  (row.start.toNat + row.length.toNat) % areaLength

/-- The same in machine words: the sum needs 64 bits, and its remainder fits into 32 again. -/
def stopWord (row : Row) (areaLength : UInt32) : UInt32 :=
  ((row.start.toUInt64 + row.length.toUInt64) % areaLength.toUInt64).toUInt32

/-- A row takes twelve bytes. -/
@[simp] theorem length_encode (row : Row) : row.encode.length = 12 := by
  simp [encode]

/-- What was written is read back. -/
theorem decode_encode (row : Row) : decode row.encode = some row := by
  have e (w n : Nat) : (Bytes.ofNat w n).length = w := Bytes.length_ofNat w n
  have hid : row.encode.slice 0 4 = Bytes.ofNat 4 row.id.toNat := by
    simp [encode, Bytes.slice, e]
  have hstart : row.encode.slice 4 4 = Bytes.ofNat 4 row.start.toNat := by
    simp [encode, Bytes.slice, e]
  have hlength : row.encode.slice 8 2 = Bytes.ofNat 2 row.length.toNat := by
    simp [encode, Bytes.slice, List.drop_append, List.drop_eq_nil_of_le, e]
  have hmarker : row.encode.slice 10 2 = Bytes.ofNat 2 0 := by
    simp [encode, Bytes.slice, List.drop_append, List.drop_eq_nil_of_le, List.take_of_length_le, e]
  have hi : row.id.toNat < Bytes.span 4 := row.id.toNat_lt
  have hs : row.start.toNat < Bytes.span 4 := row.start.toNat_lt
  have hl : row.length.toNat < Bytes.span 2 := row.length.toNat_lt
  rw [decode, hid, hstart, hlength, hmarker]
  simp only [Bytes.toNat_ofNat]
  rw [Nat.mod_eq_of_lt hi, Nat.mod_eq_of_lt hs, Nat.mod_eq_of_lt hl]
  simp

/-- Erased memory holds no item. -/
theorem decode_erased : decode erased = none := by decide

/-- The next payload starts inside the area. -/
theorem stop_lt (row : Row) {areaLength : Nat} (h : 0 < areaLength) :
    row.stop areaLength < areaLength := Nat.mod_lt _ h

/-- Counting in words loses nothing. -/
theorem toNat_stopWord (row : Row) {areaLength : UInt32} (h : 0 < areaLength.toNat) :
    (row.stopWord areaLength).toNat = row.stop areaLength.toNat := by
  have hstart : row.start.toNat < 2 ^ 32 := row.start.toNat_lt
  have hlength : row.length.toNat < 2 ^ 16 := row.length.toNat_lt
  have hsum : (row.start.toUInt64 + row.length.toUInt64).toNat =
      row.start.toNat + row.length.toNat := by
    rw [UInt64.toNat_add, UInt32.toNat_toUInt64, UInt16.toNat_toUInt64, Nat.mod_eq_of_lt (by omega)]
  have hstop : row.stop areaLength.toNat < 2 ^ 32 :=
    Nat.lt_trans (row.stop_lt h) areaLength.toNat_lt
  calc (row.stopWord areaLength).toNat
      = (row.start.toUInt64 + row.length.toUInt64).toNat % areaLength.toNat % 2 ^ 32 := by
        rw [stopWord, UInt64.toNat_toUInt32, UInt64.toNat_mod, UInt32.toNat_toUInt64]
    _ = row.stop areaLength.toNat % 2 ^ 32 := by rw [hsum, stop]
    _ = row.stop areaLength.toNat := Nat.mod_eq_of_lt hstop

end Row

end CircularLog
