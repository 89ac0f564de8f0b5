import CircularLog.Bytes

/-!
# Memories

A memory is a fixed number of cells of one byte. A reading takes a slice; a writing walks over the
cells from an address on and combines what is there with what is written, by a rule that the kind
of memory brings: an eeprom replaces, flash clears bits. `toBytes` is the view that statements are
made in, and `slice_eq` and `getElem?_toBytes_combine` say what the two do to it.
-/

namespace CircularLog

/-- The cells of a memory. -/
structure Memory (size : Nat) where
  cells : Vector UInt8 size

namespace Memory

variable {size : Nat}

/-- A memory in which every bit is set. -/
def erased (size : Nat) : Memory size := ⟨Vector.replicate size 0xFF⟩

/-- The contents, lowest address first. -/
def toBytes (memory : Memory size) : Bytes := memory.cells.toList

/-- The `length` bytes from `address` on. -/
def slice (memory : Memory size) (address length : Nat) : Bytes :=
  (memory.cells.toArray.extract address (address + length)).toList

/-- The cell at `address` becomes what `f` makes of it; an address behind the end names no cell. -/
def modify (memory : Memory size) (address : Nat) (f : UInt8 → UInt8) : Memory size :=
  ⟨⟨memory.cells.toArray.modify address f, by simp⟩⟩

/-- Each cell from `address` on becomes what `f` makes of its address, its byte and the byte
written to it. -/
def combine (f : Nat → UInt8 → UInt8 → UInt8) (memory : Memory size) (address : Nat) :
    Bytes → Memory size
  | [] => memory
  | byte :: bytes =>
    combine f (memory.modify address fun old => f address old byte) (address + 1) bytes

/-- The memory has one byte for every cell. -/
@[simp] theorem length_toBytes (memory : Memory size) : memory.toBytes.length = size := by
  simp [toBytes]

/-- A memory is what it shows. -/
theorem eq_of_toBytes {a b : Memory size} (h : a.toBytes = b.toBytes) : a = b := by
  obtain ⟨a⟩ := a
  obtain ⟨b⟩ := b
  exact congrArg Memory.mk (Vector.toList_inj.mp h)

/-- A slice of the memory is that slice of its contents. -/
theorem slice_eq (memory : Memory size) (address length : Nat) :
    memory.slice address length = memory.toBytes.slice address length := by
  simp [slice, toBytes, Bytes.slice, Array.toList_extract, List.extract_eq_take_drop,
    Vector.toList]

/-- Changing one cell changes that byte of the contents and no other. -/
theorem toBytes_modify (memory : Memory size) (address : Nat) (f : UInt8 → UInt8) :
    (memory.modify address f).toBytes = memory.toBytes.modify address f := by
  simp [modify, toBytes, Vector.toList]

/-- The byte at `address` after a writing from `start` on: combined if it was written, and
otherwise as before. -/
theorem getElem?_toBytes_combine (f : Nat → UInt8 → UInt8 → UInt8) (memory : Memory size)
    (start : Nat) (bytes : Bytes) (address : Nat) :
    (memory.combine f start bytes).toBytes[address]? =
      if start ≤ address then
        match bytes[address - start]? with
        | some byte => memory.toBytes[address]?.map fun old => f address old byte
        | none => memory.toBytes[address]?
      else memory.toBytes[address]? := by
  induction bytes generalizing memory start with
  | nil => simp [combine]
  | cons byte bytes ih =>
    rw [combine, ih, toBytes_modify, List.getElem?_modify]
    rcases Nat.lt_trichotomy start address with h | h | h
    · have e : address - start = address - (start + 1) + 1 := by omega
      have hne : start ≠ address := by omega
      have hle : start + 1 ≤ address := by omega
      simp [e, hne, hle, Nat.le_of_lt h]
    · subst h
      have hle : ¬ start + 1 ≤ start := by omega
      simp [hle]
    · have hne : start ≠ address := by omega
      have hle : ¬ start + 1 ≤ address := by omega
      simp [hne, hle, Nat.not_le.mpr h]

/-- A writing that replaces bytes, inside the memory, lays them over its contents. -/
theorem toBytes_combine_replace (memory : Memory size) {address : Nat} {bytes : Bytes}
    (h : address + bytes.length ≤ size) :
    (memory.combine (fun _ _ new => new) address bytes).toBytes =
      memory.toBytes.overlay address bytes := by
  have hlen := memory.length_toBytes
  refine List.ext_getElem? fun i => ?_
  rw [getElem?_toBytes_combine, Bytes.getElem?_overlay (by omega)]
  by_cases hle : address ≤ i
  · rw [if_pos hle, if_pos hle]
    cases hb : bytes[i - address]? with
    | none => rfl
    | some byte =>
      have hi := (List.getElem?_eq_some_iff.mp hb).1
      have hsome : i < memory.toBytes.length := by omega
      simp [List.getElem?_eq_getElem hsome]
  · rw [if_neg hle, if_neg hle]

end Memory

end CircularLog
