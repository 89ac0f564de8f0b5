import CircularLog.Space.Basic

/-!
# Layouts and partitions

A layout asks for a partition: an id, a size and a number of rows. A plan places the partitions of
a list of layouts one behind the other. Each is a header of four bytes, a table of rows and, in
what is left of the size, the area for the payloads:

```text
base      base + 4                    base + 4 + 12 * rows          base + size
| header  | table (one row per item)  | area (payloads, circular)   |
```
-/

namespace CircularLog

/-- Bytes in the header of a partition. -/
def headerBytes : Nat := 4

/-- Bytes in a row of the table. -/
def rowBytes : Nat := 12

/-- What a partition should be like. -/
structure Layout where
  id : UInt8
  /-- The size of the whole partition. -/
  sizeBytes : UInt32
  /-- The number of rows, and so the largest number of items. -/
  maxItems : UInt16

/-- The size of a partition with so many rows and such an area; it must be a 32-bit number. -/
def Layout.requiredBytes (maxItems : UInt16) (areaLength : UInt32) : Except Defect UInt32 :=
  let size := headerBytes + maxItems.toNat * rowBytes + areaLength.toNat
  if size < 0x1_0000_0000 then .ok (UInt32.ofNat size) else .error .sumTooLarge

/-- A partition in its place. -/
structure Partition where
  id : UInt8
  /-- The first address. -/
  base : Nat
  /-- The number of rows. -/
  maxItems : Nat
  /-- The number of bytes for payloads. -/
  areaLength : Nat
  maxItems_pos : 0 < maxItems
  maxItems_lt : maxItems < 0x1_0000
  areaLength_pos : 0 < areaLength
  stop_lt : base + headerBytes + maxItems * rowBytes + areaLength < 0x1_0000_0000

namespace Partition

variable (p : Partition)

/-- The address of the first row. -/
def table : Nat := p.base + headerBytes

/-- Bytes in the table. -/
def tableLength : Nat := p.maxItems * rowBytes

/-- The address of the first payload byte. -/
def area : Nat := p.table + p.tableLength

/-- The first address behind the partition. -/
def stop : Nat := p.area + p.areaLength

/-- The address of a row. -/
def rowAddress (row : Nat) : Nat := p.table + row * rowBytes

/-- The row behind a row; the first follows the last. -/
def nextRow (row : Nat) : Nat := (row + 1) % p.maxItems

/-- The row that is `count` rows behind `row`, going round the table. -/
def rowBehind (row count : Nat) : Nat := (row + count) % p.maxItems

/-- The next row is a row. -/
theorem nextRow_lt (row : Nat) : p.nextRow row < p.maxItems := Nat.mod_lt _ p.maxItems_pos

/-- A row behind a row is a row. -/
theorem rowBehind_lt (row count : Nat) : p.rowBehind row count < p.maxItems :=
  Nat.mod_lt _ p.maxItems_pos

/-- Going on from a row behind `row` is going one row further behind it. -/
theorem nextRow_rowBehind (row count : Nat) :
    p.nextRow (p.rowBehind row count) = p.rowBehind row (count + 1) := by
  simp only [nextRow, rowBehind, Nat.mod_add_mod, Nat.add_assoc]

/-- The area is not larger than the numbers of a machine word. -/
theorem areaLength_lt : p.areaLength < 0x1_0000_0000 :=
  Nat.lt_of_le_of_lt (Nat.le_add_left _ _) p.stop_lt

/-! ## In machine words -/

variable {ε σ : Type}

/-- The address of a row, in machine words. -/
def locateRow (row : Nat) : Action ε σ Nat := do
  Action.sum 0x1_0000_0000 p.table (← Action.product 0x1_0000_0000 row rowBytes)

/-- The row behind a row, in machine words. -/
def stepRow (row : Nat) : Action ε σ Nat := return (← Action.sum 0x1_0000_0000 row 1) % p.maxItems

/-- The row of the newest of so many items, of which the oldest is in `oldest`, in machine words. -/
def newestRow (oldest stored : Nat) : Action ε σ Nat := do
  let next ← Action.sum 0x1_0000_0000 oldest stored
  return (← Action.difference next 1) % p.maxItems

variable {p} {row : Nat}

/-- The address of a row of the table is a machine word. -/
theorem locateRow_eq (h : row < p.maxItems) :
    (p.locateRow row : Action ε σ Nat) = pure (p.rowAddress row) := by
  have hstop := p.stop_lt
  have hrow : row * rowBytes ≤ p.maxItems * rowBytes := Nat.mul_le_mul_right _ (Nat.le_of_lt h)
  have htable : p.table = p.base + headerBytes := rfl
  rw [locateRow, Action.product_eq (by omega), pure_bind, Action.sum_eq (by omega), rowAddress]

/-- The row behind a row of the table is the next one. -/
theorem stepRow_eq (h : row < p.maxItems) :
    (p.stepRow row : Action ε σ Nat) = pure (p.nextRow row) := by
  have hrows := p.maxItems_lt
  rw [stepRow, Action.sum_eq (by omega), pure_bind, nextRow]

/-- The newest item is in the last of the rows behind the oldest. -/
theorem newestRow_eq {stored : Nat} (h : row < p.maxItems) (some : 0 < stored)
    (fits : stored ≤ p.maxItems) :
    (p.newestRow row stored : Action ε σ Nat) = pure (p.rowBehind row (stored - 1)) := by
  have hrows := p.maxItems_lt
  rw [newestRow, Action.sum_eq (by omega), pure_bind, Action.difference_eq (by omega), pure_bind,
    Nat.add_sub_assoc some, rowBehind]

/-- To find the address of a row is settled. -/
theorem settled_locateRow (p : Partition) (row : Nat) :
    (p.locateRow row : Action ε σ Nat).Settled :=
  (Action.settled_product _ _ _).bind fun _ => Action.settled_sum _ _ _

/-- To find the next row is settled. -/
theorem settled_stepRow (p : Partition) (row : Nat) : (p.stepRow row : Action ε σ Nat).Settled :=
  (Action.settled_sum _ _ _).bind fun _ => .pure _

/-- To find the newest row is settled. -/
theorem settled_newestRow (p : Partition) (oldest stored : Nat) :
    (p.newestRow oldest stored : Action ε σ Nat).Settled :=
  (Action.settled_sum _ _ _).bind fun _ => (Action.settled_difference _ _).bind fun _ => .pure _

end Partition

/-- The partition that a layout asks for, at an address. It needs a row, and an area behind the rows
that ends at a machine word. -/
def Layout.place (layout : Layout) (base : Nat) : Except (Stop Error) Partition :=
  if rows : layout.maxItems.toNat = 0 then
    .error (.error .invalidRange)
  else if size : layout.sizeBytes.toNat ≤ headerBytes + layout.maxItems.toNat * rowBytes then
    .error (.error .invalidRange)
  else if stop : 0x1_0000_0000 ≤ base + layout.sizeBytes.toNat then
    .error (.defect .sumTooLarge)
  else
    .ok {
      id := layout.id
      base := base
      maxItems := layout.maxItems.toNat
      areaLength := layout.sizeBytes.toNat - (headerBytes + layout.maxItems.toNat * rowBytes)
      maxItems_pos := Nat.pos_of_ne_zero rows
      maxItems_lt := layout.maxItems.toNat_lt
      areaLength_pos := Nat.sub_pos_of_lt (Nat.lt_of_not_le size)
      stop_lt := by omega }

/-- A partition that was placed ends where the size of its layout says. -/
theorem Layout.stop_place {layout : Layout} {base : Nat} {p : Partition}
    (h : layout.place base = .ok p) : p.stop = base + layout.sizeBytes.toNat := by
  unfold Layout.place at h
  split at h
  · simp at h
  · split at h
    · simp at h
    · split at h
      · simp at h
      · obtain rfl := Except.ok.inj h
        simp only [Partition.stop, Partition.area, Partition.table, Partition.tableLength]
        omega

namespace Space

variable {g : Geometry} (space : Space g)

/-- Place the layouts one behind the other from an address on, behind partitions that are in place
already. The first layout with a fault decides the error: its id is taken, it does not fit into
the space, it has no row or no area, its area lies on both memories, or no slot is left. -/
def planBehind (slots : Nat) (placed : List Partition) (address : Nat) :
    List Layout → Except (Stop Error) (List Partition)
  | [] => .ok []
  | layout :: layouts => do
    if placed.any (·.id == layout.id) then
      throw (.error .invalidRange)
    if space.total < address + layout.sizeBytes.toNat then
      throw (.error .outOfRoom)
    let p ← layout.place address
    if space.mediumOf p.area ≠ space.mediumOf (p.stop - 1) then
      throw (.error .invalidRange)
    if slots ≤ placed.length then
      throw (.error .outOfRoom)
    return p :: (← planBehind slots (placed ++ [p]) (address + layout.sizeBytes.toNat) layouts)

/-- The partitions of a list of layouts from an address on, at most `slots` of them. -/
def plan (slots base : Nat) (layouts : List Layout) : Except (Stop Error) (List Partition) :=
  space.planBehind slots [] base layouts

end Space

end CircularLog
