import CircularLog.Partition.Recovery
import CircularLog.Proofs.Partition.Ring

/-!
# What a partition holds

A `Log` is what a partition is for: a list of items, with the place in the table and in the area
where the oldest of them lies. `Partition.Holds` ties it to the image: the header is there, each
row of the table says what `entryAt` says, and the payloads follow each other in the ring. The
operations of a partition do three things to a log, each by a few bytes of the image: the oldest
item is taken out by erasing its row (`Holds.pop`), a new item is put behind the others by writing
its row (`Holds.push`), with whatever bytes the area has there, and its payload is put in its place
(`Holds.fill`). All other bytes of the image do not matter (`Holds.congr`).
-/

namespace CircularLog

/-- The items of a partition and where they lie. -/
structure Log where
  /-- The row of the oldest item, or of the first one to come. -/
  row : Nat
  /-- The id of that item. -/
  id : Nat
  /-- Where its payload starts in the area. -/
  start : Nat
  /-- The payloads, oldest first. -/
  items : List Bytes

namespace Log

/-- The log of a partition that nothing was ever stored in. -/
def empty : Log := ⟨0, 0, 0, []⟩

/-- If there is no item, nothing was ever stored. -/
def Settled (log : Log) : Prop := log.items = [] → log = empty

/-- The log that recovery finds. -/
def found (log : Log) : Log :=
  match log.items with
  | [] => empty
  | _ :: _ => log

/-- The found log has items, or is the empty one. -/
theorem settled_found (log : Log) : log.found.Settled := by
  unfold Settled found
  cases hitems : log.items with
  | nil => exact fun _ => rfl
  | cons item items =>
    intro hnil
    rw [hitems] at hnil
    contradiction

/-- The found log has the same items. -/
theorem items_found (log : Log) : log.found.items = log.items := by
  unfold found
  cases hitems : log.items with
  | nil => rfl
  | cons item items => exact hitems

/-- The found log has used up no more ids. -/
theorem ids_found_le (log : Log) :
    log.found.id + log.found.items.length ≤ log.id + log.items.length := by
  unfold found
  split
  · exact Nat.zero_le _
  · exact Nat.le_refl _

/-- A settled log is found as it is. -/
theorem Settled.found_eq {log : Log} (h : log.Settled) : log.found = log := by
  unfold found
  cases hitems : log.items with
  | nil => exact (h hitems).symm
  | cons item items => rfl

/-- The bytes that the payloads take. -/
def size (log : Log) : Nat := log.items.flatten.length

/-- The fill state. -/
def status (log : Log) : Status := ⟨log.row, log.items.length, log.size⟩

/-- The log with one more item behind the others. -/
def push (log : Log) (payload : Bytes) : Log := { log with items := log.items ++ [payload] }

/-- One more item takes its bytes. -/
@[simp] theorem size_push (log : Log) (payload : Bytes) :
    (log.push payload).size = log.size + payload.length := by
  simp [size, push]

/-- The id of the oldest item does not depend on newer ones. -/
@[simp] theorem id_push (log : Log) (payload : Bytes) : (log.push payload).id = log.id := rfl

/-- One more item is counted. -/
@[simp] theorem length_items_push (log : Log) (payload : Bytes) :
    (log.push payload).items.length = log.items.length + 1 := by
  simp [push]

/-- The items of a longer log have a property if the older ones and the new one do. -/
theorem forall_mem_push {motive : Bytes → Prop} {log : Log} {payload : Bytes}
    (old : ∀ item ∈ log.items, motive item) (new : motive payload) :
    ∀ item ∈ (log.push payload).items, motive item :=
  List.forall_mem_append.mpr ⟨old, List.forall_mem_singleton.mpr new⟩

end Log

namespace Partition

variable {p : Partition} {image image' : Bytes} {log : Log}

/-! ## Rows -/

/-- The bytes that the image has in a row. -/
def rowCells (p : Partition) (image : Bytes) (row : Nat) : Bytes :=
  image.slice (p.rowAddress row) rowBytes

/-- What the image has in a row. -/
def rowAt (p : Partition) (image : Bytes) (row : Nat) : Option Row :=
  Row.decode (p.rowCells image row)

/-- A row lies in the table. -/
theorem rowAddress_mem {row : Nat} (h : row < p.maxItems) :
    p.base + headerBytes ≤ p.rowAddress row ∧ p.rowAddress row + rowBytes ≤ p.area := by
  simp only [rowAddress, area, tableLength, table, rowBytes]
  omega

/-- Rows lie apart from each other. -/
theorem rowAddress_disjoint (p : Partition) {row other : Nat} (h : row ≠ other) :
    p.rowAddress row + rowBytes ≤ p.rowAddress other ∨
      p.rowAddress other + rowBytes ≤ p.rowAddress row := by
  simp only [rowAddress, rowBytes]
  omega

/-- Going round the table once. -/
theorem rowBehind_eq {row count : Nat} (hrow : row < p.maxItems) (hcount : count ≤ p.maxItems) :
    p.rowBehind row count =
      if row + count < p.maxItems then row + count else row + count - p.maxItems := by
  unfold rowBehind
  split
  · next h => exact Nat.mod_eq_of_lt h
  · next h => rw [Nat.mod_eq_sub_mod (by omega), Nat.mod_eq_of_lt (by omega)]

/-- The row behind a row that is none behind it. -/
theorem rowBehind_zero {row : Nat} (hrow : row < p.maxItems) : p.rowBehind row 0 = row :=
  Nat.mod_eq_of_lt hrow

/-- Rows that lie differently far behind a row are different. -/
theorem rowBehind_ne {row i j : Nat} (hrow : row < p.maxItems) (hi : i < p.maxItems)
    (hj : j < p.maxItems) (h : i ≠ j) : p.rowBehind row i ≠ p.rowBehind row j := by
  rw [rowBehind_eq hrow (by omega), rowBehind_eq hrow (by omega)]
  split <;> split <;> omega

/-- Every row lies somewhere behind a row. -/
theorem exists_rowBehind {row other : Nat} (hrow : row < p.maxItems) (hother : other < p.maxItems) :
    ∃ j, j < p.maxItems ∧ other = p.rowBehind row j := by
  by_cases h : row ≤ other
  · refine ⟨other - row, by omega, ?_⟩
    rw [rowBehind_eq hrow (by omega), if_pos (by omega)]
    omega
  · refine ⟨other + p.maxItems - row, by omega, ?_⟩
    rw [rowBehind_eq hrow (by omega), if_neg (by omega)]
    omega

/-- Going on from the next row. -/
theorem rowBehind_nextRow (p : Partition) (row count : Nat) :
    p.rowBehind (p.nextRow row) count = p.rowBehind row (count + 1) := by
  rw [rowBehind, nextRow, rowBehind, Nat.mod_add_mod]
  congr 1
  omega

/-- Going on from a row behind a row. -/
theorem rowBehind_rowBehind (p : Partition) (row i j : Nat) :
    p.rowBehind (p.rowBehind row i) j = p.rowBehind row (i + j) := by
  rw [rowBehind, rowBehind, Nat.mod_add_mod, Nat.add_assoc, rowBehind]

/-! ## Entries -/

/-- What the row of an item says: its id, where its payload starts, and how long it is. -/
def entry (id start length : Nat) : Row :=
  ⟨UInt32.ofNat id, UInt32.ofNat start, UInt16.ofNat length⟩

/-- Where the payload starts that comes behind the first `count` items. -/
def startOf (p : Partition) (log : Log) (count : Nat) : Nat :=
  (log.start + (log.items.take count).flatten.length) % p.areaLength

/-- What the rows of a log say, counted from that of the oldest item. -/
def entryAt (p : Partition) (log : Log) (count : Nat) : Option Row :=
  log.items[count]?.map fun item => entry (log.id + count) (p.startOf log count) item.length

/-- The row that the next item gets. -/
def freeRow (p : Partition) (log : Log) : Nat := p.rowBehind log.row log.items.length

/-- Where the payload of the next item starts. -/
def freeStart (p : Partition) (log : Log) : Nat := (log.start + log.size) % p.areaLength

/-- The log without its oldest item. -/
def pop (p : Partition) (log : Log) : Log :=
  match log.items with
  | [] => log
  | item :: items =>
    ⟨p.nextRow log.row, log.id + 1, (log.start + item.length) % p.areaLength, items⟩

/-- Every payload starts inside the area. -/
theorem startOf_lt (p : Partition) (log : Log) (count : Nat) :
    p.startOf log count < p.areaLength := p.add_mod_lt _

/-- So does that of the next item. -/
theorem freeStart_lt (p : Partition) (log : Log) : p.freeStart log < p.areaLength := p.add_mod_lt _

/-- The payload of the next item starts where that of this one stops. -/
theorem startOf_succ (p : Partition) {count : Nat} {item : Bytes}
    (hitem : log.items[count]? = some item) :
    p.startOf log (count + 1) = (p.startOf log count + item.length) % p.areaLength := by
  obtain ⟨hlt, rfl⟩ := List.getElem?_eq_some_iff.mp hitem
  simp only [startOf, Nat.mod_add_mod, List.take_succ_eq_append_getElem hlt, List.flatten_append,
    List.flatten_singleton, List.length_append, Nat.add_assoc]

/-- Without the oldest item, the others are one closer to the front. -/
theorem entryAt_pop {item : Bytes} {items : List Bytes} (hitems : log.items = item :: items)
    (count : Nat) : p.entryAt (p.pop log) count = p.entryAt log (count + 1) := by
  unfold entryAt pop startOf
  rw [hitems]
  simp only [List.getElem?_cons_succ, List.take_succ_cons, List.flatten_cons, List.length_append,
    Nat.mod_add_mod]
  rw [show log.id + 1 + count = log.id + (count + 1) by omega, Nat.add_assoc]

/-- The next item is the same one, whether the oldest is taken out first or not. -/
theorem free_pop (p : Partition) (log : Log) :
    p.freeRow (p.pop log) = p.freeRow log ∧
      (p.pop log).id + (p.pop log).items.length = log.id + log.items.length ∧
      p.freeStart (p.pop log) = p.freeStart log := by
  unfold freeRow freeStart pop Log.size
  split
  · exact ⟨rfl, rfl, rfl⟩
  · next item items hitems =>
    simp only [hitems, List.length_cons, List.flatten_cons, List.length_append, rowBehind_nextRow,
      Nat.mod_add_mod, Nat.add_assoc]
    refine ⟨trivial, by omega, trivial⟩

/-- Behind the items of a log comes the new one. -/
theorem entryAt_push (p : Partition) (log : Log) (payload : Bytes) (count : Nat) :
    p.entryAt (log.push payload) count =
      if count = log.items.length then
        some (entry (log.id + log.items.length) (p.freeStart log) payload.length)
      else p.entryAt log count := by
  unfold entryAt startOf freeStart Log.push Log.size
  rcases Nat.lt_trichotomy count log.items.length with h | h | h
  · rw [if_neg (by omega), List.getElem?_append_left h, List.take_append_of_le_length (by omega)]
  · subst h
    simp
  · rw [if_neg (by omega), List.getElem?_append_right (by omega),
      List.getElem?_eq_none (by simp; omega), List.getElem?_eq_none (by omega)]
    rfl

/-- The log without so many of its oldest items. -/
def popMany (p : Partition) : Nat → Log → Log
  | 0, log => log
  | count + 1, log => p.popMany count (p.pop log)

/-- Taking out the oldest item drops it from the front. -/
theorem items_pop (p : Partition) (log : Log) : (p.pop log).items = log.items.drop 1 := by
  unfold pop
  split <;> simp_all

/-- Taking out the oldest items drops them from the front. -/
theorem items_popMany (p : Partition) (count : Nat) (log : Log) :
    (p.popMany count log).items = log.items.drop count := by
  induction count generalizing log with
  | zero => rfl
  | succ count ih => rw [popMany, ih, items_pop, List.drop_drop, Nat.add_comm]

/-- The item that is taken out last may be named apart. -/
theorem pop_popMany (p : Partition) (count : Nat) (log : Log) :
    p.pop (p.popMany count log) = p.popMany (count + 1) log := by
  induction count generalizing log with
  | zero => rfl
  | succ count ih => exact ih (p.pop log)

/-- The next item is the same one, however many of the oldest are taken out first. -/
theorem free_popMany (p : Partition) (count : Nat) (log : Log) :
    p.freeRow (p.popMany count log) = p.freeRow log ∧
      (p.popMany count log).id + (p.popMany count log).items.length =
        log.id + log.items.length ∧
      p.freeStart (p.popMany count log) = p.freeStart log := by
  induction count generalizing log with
  | zero => exact ⟨rfl, rfl, rfl⟩
  | succ count ih =>
    obtain ⟨hrow, hid, hstart⟩ := ih (p.pop log)
    obtain ⟨hrow', hid', hstart'⟩ := p.free_pop log
    exact ⟨hrow.trans hrow', hid.trans hid', hstart.trans hstart'⟩

/-! ## The invariant -/

/-- The image has this log in the place of the partition. -/
structure Holds (p : Partition) (image : Bytes) (log : Log) : Prop where
  header : image.slice p.base headerBytes = magic
  row_lt : log.row < p.maxItems
  start_lt : log.start < p.areaLength
  count_le : log.items.length ≤ p.maxItems
  size_le : log.size ≤ p.areaLength
  length_lt : ∀ item ∈ log.items, item.length < 0x1_0000
  id_le : log.id + log.items.length ≤ 0x1_0000_0000
  /-- A row that lies so many rows behind that of the oldest item says what it should. -/
  rows : ∀ count, count < p.maxItems →
    p.rowAt image (p.rowBehind log.row count) = p.entryAt log count
  /-- The payloads follow each other around the area. -/
  payloads : p.ring image log.start log.size = log.items.flatten

/-- Where the bytes of the partition are the same, it holds the same. -/
theorem Holds.congr (h : p.Holds image log) (fits : p.stop ≤ image.length)
    (fits' : p.stop ≤ image'.length)
    (same : ∀ i, p.base ≤ i → i < p.stop → image'[i]? = image[i]?) : p.Holds image' log where
  header := by
    have hstop : p.stop = p.area + p.areaLength := rfl
    have harea : p.area = p.base + headerBytes + p.tableLength := rfl
    rw [← h.header]
    exact Bytes.slice_congr fun i hi => same _ (by omega) (by omega)
  row_lt := h.row_lt
  start_lt := h.start_lt
  count_le := h.count_le
  size_le := h.size_le
  length_lt := h.length_lt
  id_le := h.id_le
  rows count hcount := by
    have hstop : p.stop = p.area + p.areaLength := rfl
    have hrow := rowAddress_mem (p.rowBehind_lt log.row count)
    rw [← h.rows count hcount, rowAt, rowAt]
    congr 1
    exact Bytes.slice_congr fun i hi => same _ (by omega) (by omega)
  payloads := by
    rw [← h.payloads]
    refine ring_congr fits fits' h.start_lt fun i hi => ?_
    have hcell := cell_mem h.start_lt (Nat.lt_of_lt_of_le hi h.size_le)
    have harea : p.area = p.base + headerBytes + p.tableLength := rfl
    exact same _ (by omega) (by omega)

/-- The parts of the partition lie inside it. -/
theorem parts (p : Partition) : p.stop = p.area + p.areaLength ∧
    p.area = p.base + headerBytes + p.tableLength ∧ p.table = p.base + headerBytes :=
  ⟨rfl, rfl, rfl⟩

/-- What a row says after bytes were laid over another part of the image. -/
theorem rowAt_overlay {address row : Nat} {bytes : Bytes}
    (fits : address + bytes.length ≤ image.length)
    (apart : p.rowAddress row + rowBytes ≤ address ∨ address + bytes.length ≤ p.rowAddress row) :
    p.rowAt (image.overlay address bytes) row = p.rowAt image row := by
  rw [rowAt, rowAt, rowCells, rowCells, Bytes.slice_overlay_of_disjoint fits (by omega)]

/-- What a row says after it was written. -/
theorem rowAt_overlay_self {row : Nat} {bytes : Bytes} (hbytes : bytes.length = rowBytes)
    (fits : p.rowAddress row + rowBytes ≤ image.length) :
    p.rowAt (image.overlay (p.rowAddress row) bytes) row = Row.decode bytes := by
  have h := Bytes.slice_overlay (hbytes.symm ▸ fits)
  rw [hbytes] at h
  rw [rowAt, rowCells, h]

/-- Bytes laid over a row leave the header as it is. -/
theorem header_overlay {row : Nat} {bytes : Bytes} (hbytes : bytes.length = rowBytes)
    (hrow : row < p.maxItems) (fits : p.stop ≤ image.length) :
    (image.overlay (p.rowAddress row) bytes).slice p.base headerBytes =
      image.slice p.base headerBytes := by
  have hmem := rowAddress_mem hrow
  have hparts := p.parts
  exact Bytes.slice_overlay_of_disjoint (by omega) (by omega)

/-- Bytes laid over a row leave the area as it is. -/
theorem ring_overlay {row start length : Nat} {bytes : Bytes} (hbytes : bytes.length = rowBytes)
    (hrow : row < p.maxItems) (fits : p.stop ≤ image.length) (hs : start < p.areaLength)
    (hlen : length ≤ p.areaLength) :
    p.ring (image.overlay (p.rowAddress row) bytes) start length = p.ring image start length := by
  have hmem := rowAddress_mem hrow
  have hparts := p.parts
  refine ring_congr fits (by rw [Bytes.length_overlay (by omega)]; exact fits) hs fun i hi => ?_
  have hcell := cell_mem hs (Nat.lt_of_lt_of_le hi hlen)
  rw [Bytes.getElem?_overlay_eq (by omega), if_neg (by omega)]

/-- Erasing the row of the oldest item takes it out, and so does anything that is no row. -/
theorem Holds.pop (h : p.Holds image log) (fits : p.stop ≤ image.length) (some : log.items ≠ [])
    {bytes : Bytes} (hbytes : bytes.length = rowBytes) (erased : Row.decode bytes = none) :
    p.Holds (image.overlay (p.rowAddress log.row) bytes) (p.pop log) := by
  obtain ⟨item, items, hitems⟩ := List.exists_cons_of_ne_nil some
  have hparts := p.parts
  have hmem := rowAddress_mem h.row_lt
  have hcount := h.count_le
  have hsize := h.size_le
  have hid := h.id_le
  have hpop : p.pop log = ⟨p.nextRow log.row, log.id + 1, (log.start + item.length) % p.areaLength,
    items⟩ := by rw [Partition.pop, hitems]
  have hlog : log.size = item.length + items.flatten.length := by
    rw [Log.size, hitems, List.flatten_cons, List.length_append]
  -- Counted from the new oldest item, the row that is free now is the last one.
  have hrow (count : Nat) (hlt : count < p.maxItems) :
      p.rowAt (image.overlay (p.rowAddress log.row) bytes)
        (p.rowBehind (p.nextRow log.row) count) = p.entryAt log (count + 1) := by
    rw [rowBehind_nextRow]
    by_cases hlast : count + 1 = p.maxItems
    · have hself : p.rowBehind log.row (count + 1) = log.row := by
        rw [rowBehind_eq h.row_lt (by omega), if_neg (by omega)]
        omega
      rw [hself, rowAt_overlay_self hbytes (by omega), erased, entryAt,
        List.getElem?_eq_none (by omega)]
      rfl
    · have hne : p.rowBehind log.row 0 ≠ p.rowBehind log.row (count + 1) :=
        rowBehind_ne h.row_lt p.maxItems_pos (by omega) (by omega)
      rw [rowBehind_zero h.row_lt] at hne
      rw [rowAt_overlay (by omega) (by have := p.rowAddress_disjoint hne; omega),
        h.rows _ (by omega)]
  rw [hitems, List.length_cons] at hcount hid
  constructor
  case header => rw [header_overlay hbytes h.row_lt fits, h.header]
  case row_lt => rw [hpop]; exact p.nextRow_lt _
  case start_lt => rw [hpop]; exact p.add_mod_lt _
  case count_le => rw [hpop]; simp only; omega
  case size_le => rw [hpop, Log.size]; simp only; omega
  case length_lt =>
    rw [hpop]
    exact fun other hother => h.length_lt other (hitems ▸ List.mem_cons_of_mem item hother)
  case id_le => rw [hpop]; simp only; omega
  case rows =>
    intro count hlt
    rw [entryAt_pop hitems, hpop]
    exact hrow count hlt
  case payloads =>
    have hring := h.payloads
    rw [hlog, ring_append fits h.start_lt (by omega), hitems, List.flatten_cons] at hring
    have hlen := length_ring fits h.start_lt (by omega : item.length ≤ p.areaLength)
    rw [hpop]
    show p.ring _ ((log.start + item.length) % p.areaLength) items.flatten.length = items.flatten
    rw [ring_overlay hbytes h.row_lt fits (p.add_mod_lt _) (by omega)]
    exact (List.append_inj hring hlen).2

/-- What is no row in the place of the next item leaves the items as they are. -/
theorem Holds.smudge (h : p.Holds image log) (fits : p.stop ≤ image.length)
    (free : log.items.length < p.maxItems) {bytes : Bytes} (hbytes : bytes.length = rowBytes)
    (none : Row.decode bytes = none) :
    p.Holds (image.overlay (p.rowAddress (p.freeRow log)) bytes) log := by
  have hparts := p.parts
  have hfree := p.rowBehind_lt log.row log.items.length
  have hmem := rowAddress_mem hfree
  constructor
  case header => rw [freeRow, header_overlay hbytes hfree fits, h.header]
  case row_lt => exact h.row_lt
  case start_lt => exact h.start_lt
  case count_le => exact h.count_le
  case size_le => exact h.size_le
  case length_lt => exact h.length_lt
  case id_le => exact h.id_le
  case rows =>
    intro count hlt
    -- Behind the items no row holds one, and so it is with the new bytes.
    by_cases hself : count = log.items.length
    · rw [hself, freeRow, rowAt_overlay_self hbytes (by omega), none, entryAt,
        List.getElem?_eq_none (Nat.le_refl _)]
      rfl
    · have hne : p.freeRow log ≠ p.rowBehind log.row count :=
        rowBehind_ne h.row_lt free hlt (Ne.symm hself)
      rw [← h.rows count hlt]
      rw [freeRow] at hne ⊢
      exact rowAt_overlay (by omega) (by have := p.rowAddress_disjoint hne; omega)
  case payloads => rw [freeRow, ring_overlay hbytes hfree fits h.start_lt h.size_le, h.payloads]

/-- Writing a row behind the others adds an item, with the bytes that the area has there. -/
theorem Holds.push (h : p.Holds image log) (fits : p.stop ≤ image.length) {length : Nat}
    (room : log.size + length ≤ p.areaLength) (free : log.items.length < p.maxItems)
    (short : length < 0x1_0000) (ids : log.id + log.items.length < 0x1_0000_0000) :
    p.Holds (image.overlay (p.rowAddress (p.freeRow log))
        (entry (log.id + log.items.length) (p.freeStart log) length).encode)
      (log.push (p.ring image (p.freeStart log) length)) := by
  have hparts := p.parts
  have hfree := p.rowBehind_lt log.row log.items.length
  have hmem := rowAddress_mem hfree
  have hlen := length_ring fits (p.freeStart_lt log) (by omega : length ≤ p.areaLength)
  have hsize : (log.push (p.ring image (p.freeStart log) length)).size = log.size + length := by
    rw [Log.size_push, hlen]
  generalize hentry : (entry (log.id + log.items.length) (p.freeStart log) length).encode = bytes
  have hbytes : bytes.length = rowBytes := by rw [← hentry, Row.length_encode]; rfl
  constructor
  case header => rw [freeRow, header_overlay hbytes hfree fits, h.header]
  case row_lt => exact h.row_lt
  case start_lt => exact h.start_lt
  case count_le => rwa [Log.length_items_push]
  case size_le => omega
  case length_lt => exact Log.forall_mem_push h.length_lt (by rwa [hlen])
  case id_le => rwa [Log.length_items_push]
  case rows =>
    intro count hlt
    rw [entryAt_push, hlen]
    -- The new row has the entry of the new item; the other rows are where they were.
    by_cases hnew : count = log.items.length
    · rw [if_pos hnew, hnew]
      show p.rowAt _ (p.freeRow log) = _
      rw [freeRow, rowAt_overlay_self hbytes (by omega), ← hentry, Row.decode_encode]
    · have hne : p.freeRow log ≠ p.rowBehind log.row count :=
        rowBehind_ne h.row_lt (by omega) hlt (by omega)
      rw [if_neg hnew, ← h.rows count hlt]
      show p.rowAt _ (p.rowBehind log.row count) = _
      rw [freeRow] at hne ⊢
      exact rowAt_overlay (by omega) (by have := p.rowAddress_disjoint hne; omega)
  case payloads =>
    -- The new payload is what lies behind the others already.
    rw [hsize]
    show p.ring (image.overlay (p.rowAddress (p.rowBehind log.row log.items.length)) bytes)
      log.start (log.size + length) = _
    rw [ring_overlay hbytes hfree fits h.start_lt room, ring_append fits h.start_lt room,
      h.payloads]
    simp [Log.push, freeStart]

/-- The payload of the newest item lies behind those of the others. -/
theorem Holds.ring_push {payload : Bytes} (h : p.Holds image (log.push payload))
    (fits : p.stop ≤ image.length) : p.ring image log.start log.size = log.items.flatten ∧
      p.ring image (p.freeStart log) payload.length = payload := by
  have hroom := h.size_le
  have hring := h.payloads
  rw [Log.size_push] at hroom hring
  have hstart : log.start < p.areaLength := h.start_lt
  change p.ring image log.start (log.size + payload.length) = _ at hring
  rw [ring_append fits hstart hroom] at hring
  simp only [Log.push, List.flatten_append, List.flatten_singleton] at hring
  exact List.append_inj hring (by rw [length_ring fits hstart (by omega), Log.size])

/-- Putting bytes where the payload of the newest item lies changes that payload. -/
theorem Holds.fill {payload bytes : Bytes} (h : p.Holds image (log.push payload))
    (fits : p.stop ≤ image.length) (short : bytes.length ≤ payload.length) :
    p.Holds (p.ringPut image (p.freeStart log) bytes)
      (log.push (bytes ++ payload.drop bytes.length)) := by
  have hparts := p.parts
  have hlen : (bytes ++ payload.drop bytes.length).length = payload.length := by
    rw [List.length_append, List.length_drop]
    omega
  have hsize : (log.push (bytes ++ payload.drop bytes.length)).size =
      log.size + payload.length := by rw [Log.size_push, hlen]
  have hroom := h.size_le
  rw [Log.size_push] at hroom
  have hs := p.freeStart_lt log
  have hput := length_ringPut fits hs (by omega : bytes.length ≤ p.areaLength)
  have hstart : log.start < p.areaLength := h.start_lt
  -- Header and table lie in front of the area, and only the area changes.
  have outside {i : Nat} (hi : i < p.area) : (p.ringPut image (p.freeStart log) bytes)[i]? =
      image[i]? := getElem?_ringPut_of_outside fits hs (by omega) (.inl hi)
  constructor
  case header =>
    rw [← h.header]
    exact Bytes.slice_congr fun i hi => outside (by omega)
  case row_lt => exact h.row_lt
  case start_lt => exact hstart
  case count_le => simpa using h.count_le
  case size_le => omega
  case length_lt =>
    obtain ⟨hold, hnew⟩ := List.forall_mem_append.mp h.length_lt
    have hpayload := hnew payload (List.mem_singleton_self payload)
    exact Log.forall_mem_push hold (by rwa [hlen])
  case id_le => simpa using h.id_le
  case rows =>
    intro count hlt
    have hold := h.rows count hlt
    have hmem := rowAddress_mem (p.rowBehind_lt log.row count)
    rw [entryAt_push] at hold ⊢
    rw [hlen, ← hold]
    show Row.decode _ = Row.decode _
    congr 1
    exact Bytes.slice_congr fun i hi => outside (Nat.lt_of_lt_of_le
      (Nat.add_lt_add_left hi _) hmem.2)
  case payloads =>
    obtain ⟨hold, hnew⟩ := h.ring_push fits
    have hbehind : p.ring (p.ringPut image (p.freeStart log) bytes) log.start log.size =
        log.items.flatten := (ring_ringPut_behind fits hstart (by omega)).trans hold
    have hfilled := ring_ringPut fits hs short (by omega : payload.length ≤ p.areaLength)
    rw [hnew] at hfilled
    rw [hsize]
    show p.ring _ log.start (log.size + payload.length) = _
    rw [ring_append (by omega) hstart hroom, hbehind]
    show log.items.flatten ++ p.ring _ (p.freeStart log) payload.length = _
    rw [hfilled]
    simp [Log.push]

/-! ## What can be read of it -/

/-- An entry names a payload inside the area. -/
theorem Holds.fits_entryAt (h : p.Holds image log) {count : Nat} {row : Row}
    (hrow : p.entryAt log count = some row) : row.Fits p.areaLength := by
  obtain ⟨item, hitem, rfl⟩ := Option.map_eq_some_iff.mp hrow
  have hlt := h.length_lt item (List.mem_of_getElem? hitem)
  have hstart := p.startOf_lt log count
  have harea := p.areaLength_lt
  have hsize : item.length ≤ log.size :=
    (List.sublist_flatten_of_mem (List.mem_of_getElem? hitem)).length_le
  have hle := h.size_le
  simp only [Row.Fits, entry, UInt32.toNat_ofNat', UInt16.toNat_ofNat']
  rw [Nat.mod_eq_of_lt (by omega), Nat.mod_eq_of_lt (by omega)]
  omega

/-- What is in a row names a payload inside the area. -/
theorem Holds.fits_rowAt (h : p.Holds image log) {row : Nat} (hlt : row < p.maxItems) {entry : Row}
    (hrow : p.rowAt image row = some entry) : entry.Fits p.areaLength := by
  obtain ⟨count, hcount, rfl⟩ := exists_rowBehind h.row_lt hlt
  rw [h.rows count hcount] at hrow
  exact h.fits_entryAt hrow

/-- What the rows hold are the items of the log. -/
theorem Holds.exists_of_rowAt (h : p.Holds image log) {row : Nat} {entry : Row}
    (hrow : row < p.maxItems) (hentry : p.rowAt image row = some entry) :
    ∃ count, count < log.items.length ∧ row = p.rowBehind log.row count ∧
      entry.id = UInt32.ofNat (log.id + count) := by
  obtain ⟨count, hcount, rfl⟩ := exists_rowBehind h.row_lt hrow
  rw [h.rows count hcount] at hentry
  obtain ⟨item, hitem, rfl⟩ := Option.map_eq_some_iff.mp hentry
  exact ⟨count, (List.getElem?_eq_some_iff.mp hitem).1, rfl, rfl⟩

/-- Ids are ordered as the numbers that they have been made of. -/
theorem id_lt_iff {a b : Nat} (ha : a < 0x1_0000_0000) (hb : b < 0x1_0000_0000) :
    UInt32.ofNat a < UInt32.ofNat b ↔ a < b := UInt32.ofNat_lt_iff_lt ha hb

/-- They are ordered so with equality, too. -/
theorem id_le_iff {a b : Nat} (ha : a < 0x1_0000_0000) (hb : b < 0x1_0000_0000) :
    UInt32.ofNat a ≤ UInt32.ofNat b ↔ a ≤ b := UInt32.ofNat_le_iff_le ha hb

/-- The row of an item. -/
theorem entryAt_of_getElem? {count : Nat} {item : Bytes} (h : log.items[count]? = some item) :
    p.entryAt log count = some (entry (log.id + count) (p.startOf log count) item.length) := by
  rw [entryAt, h]
  rfl

/-- The length in the row of an item. -/
theorem Holds.length_entry (h : p.Holds image log) {count : Nat} {item : Bytes}
    (hitem : log.items[count]? = some item) (id start : Nat) :
    (entry id start item.length).length.toNat = item.length := by
  have hlt := h.length_lt item (List.mem_of_getElem? hitem)
  simp only [entry, UInt16.toNat_ofNat']
  exact Nat.mod_eq_of_lt (by omega)

/-- The start of a payload in the row of an item. -/
theorem start_entry {start : Nat} (h : start < p.areaLength) (id length : Nat) :
    (entry id start length).start.toNat = start := by
  have harea := p.areaLength_lt
  simp only [entry, UInt32.toNat_ofNat']
  exact Nat.mod_eq_of_lt (by omega)

/-- The payload of an item, read from where its row says. -/
theorem Holds.ring_item (h : p.Holds image log) (fits : p.stop ≤ image.length) {count : Nat}
    {item : Bytes} (hitem : log.items[count]? = some item) :
    p.ring image (p.startOf log count) item.length = item := by
  obtain ⟨hlt, hget⟩ := List.getElem?_eq_some_iff.mp hitem
  obtain ⟨front, back, hfront, hsplit⟩ : ∃ front back, log.items.take count = front ∧
      log.items = front ++ item :: back := by
    refine ⟨_, log.items.drop (count + 1), rfl, ?_⟩
    rw [← hget, ← List.drop_eq_getElem_cons hlt, List.take_append_drop]
  have hflat : log.items.flatten = front.flatten ++ (item ++ back.flatten) := by
    rw [hsplit, List.flatten_append, List.flatten_cons]
  have hsize : log.size = front.flatten.length + (item.length + back.flatten.length) := by
    rw [Log.size, hflat, List.length_append, List.length_append]
  have hle := h.size_le
  have hring := h.payloads
  rw [hsize] at hle
  rw [hsize, ring_append fits h.start_lt hle, ring_append fits (p.add_mod_lt _) (by omega),
    hflat] at hring
  have hbehind := (List.append_inj hring (length_ring fits h.start_lt (by omega))).2
  rw [startOf, hfront]
  exact (List.append_inj hbehind (length_ring fits (p.add_mod_lt _) (by omega))).1

/-- Where no item is left, nothing was ever stored as far as the image tells. -/
theorem Holds.empty_of_nil (h : p.Holds image log) (none : log.items = []) :
    p.Holds image Log.empty where
  header := h.header
  row_lt := p.maxItems_pos
  start_lt := p.areaLength_pos
  count_le := Nat.zero_le _
  size_le := Nat.zero_le _
  length_lt := nofun
  id_le := Nat.zero_le _
  rows count hcount := by
    obtain ⟨other, hother, hrow⟩ := exists_rowBehind h.row_lt (p.rowBehind_lt 0 count)
    show p.rowAt image (p.rowBehind 0 count) = _
    rw [hrow, h.rows other hother]
    simp [entryAt, none, Log.empty]
  payloads := by simp [ring, Log.empty, Log.size]

/-- The image that holds a log holds the found one. -/
theorem Holds.found (h : p.Holds image log) : p.Holds image log.found := by
  unfold Log.found
  cases hitems : log.items with
  | nil => exact h.empty_of_nil hitems
  | cons item items => exact h

/-- The bytes of the items are too few for a sum with the length of another to overflow. -/
theorem Holds.size_lt (h : p.Holds image log) : log.size + 0x1_0000 < 0x1_0000_0000 := by
  have hcount := h.count_le
  have hrows := p.maxItems_lt
  have hlength := h.length_lt
  have hsize : log.items.flatten.length ≤ log.items.length * (0x1_0000 - 1) := by
    generalize log.items = items at hlength
    clear hcount h
    induction items with
    | nil => simp
    | cons item items ih =>
      have hitem := hlength item (by simp)
      have hrest := ih fun other hother => hlength other (by simp [hother])
      rw [List.flatten_cons, List.length_append, List.length_cons]
      omega
  rw [Log.size]
  omega

/-! ## What lies around it -/

/-- Between two images, only bytes of the partition have changed. -/
structure Confined (p : Partition) (image image' : Bytes) : Prop where
  length : image'.length = image.length
  outside : ∀ i, i < p.base ∨ p.stop ≤ i → image'[i]? = image[i]?

/-- Where nothing has changed, nothing has outside the partition. -/
theorem Confined.refl (p : Partition) (image : Bytes) : p.Confined image image :=
  ⟨rfl, fun _ _ => rfl⟩

/-- Changes inside the partition may follow each other. -/
theorem Confined.trans {image'' : Bytes} (h : p.Confined image image')
    (h' : p.Confined image' image'') : p.Confined image image'' :=
  ⟨h'.length.trans h.length, fun i hi => (h'.outside i hi).trans (h.outside i hi)⟩

/-- Bytes laid over a part of the partition. -/
theorem confined_overlay {address : Nat} {bytes : Bytes} (fits : p.stop ≤ image.length)
    (lower : p.base ≤ address) (upper : address + bytes.length ≤ p.stop) :
    p.Confined image (image.overlay address bytes) where
  length := Bytes.length_overlay (by omega)
  outside i hi := by rw [Bytes.getElem?_overlay_eq (by omega), if_neg (by omega)]

/-- Bytes put into the area. -/
theorem confined_ringPut {start : Nat} {bytes : Bytes} (fits : p.stop ≤ image.length)
    (hs : start < p.areaLength) (hlen : bytes.length ≤ p.areaLength) :
    p.Confined image (p.ringPut image start bytes) := by
  have hparts := p.parts
  exact ⟨length_ringPut fits hs hlen,
    fun i hi => getElem?_ringPut_of_outside fits hs hlen (by omega)⟩

/-- Between two images, only bytes of the table have changed. -/
structure Retabled (p : Partition) (image image' : Bytes) : Prop where
  confined : p.Confined image image'
  area : ∀ i, p.area ≤ i → i < p.stop → image'[i]? = image[i]?

/-- Where nothing has changed, nothing has outside the table. -/
theorem Retabled.refl (p : Partition) (image : Bytes) : p.Retabled image image :=
  ⟨.refl p image, fun _ _ _ => rfl⟩

/-- Changes inside the table may follow each other. -/
theorem Retabled.trans {image'' : Bytes} (h : p.Retabled image image')
    (h' : p.Retabled image' image'') : p.Retabled image image'' :=
  ⟨h.confined.trans h'.confined, fun i hi hi' => (h'.area i hi hi').trans (h.area i hi hi')⟩

/-- Bytes laid over a row. -/
theorem retabled_row {row : Nat} {bytes : Bytes} (fits : p.stop ≤ image.length)
    (hbytes : bytes.length = rowBytes) (hrow : row < p.maxItems) :
    p.Retabled image (image.overlay (p.rowAddress row) bytes) := by
  have hmem := rowAddress_mem hrow
  have hparts := p.parts
  refine ⟨confined_overlay fits (by omega) (by omega), fun i hi _ => ?_⟩
  rw [Bytes.getElem?_overlay_eq (by omega), if_neg (by omega)]

/-- The ring does not depend on the table. -/
theorem Retabled.ring_eq (h : p.Retabled image image') (fits : p.stop ≤ image.length)
    {start length : Nat} (hs : start < p.areaLength) (hlen : length ≤ p.areaLength) :
    p.ring image' start length = p.ring image start length := by
  refine ring_congr fits (by rw [h.confined.length]; exact fits) hs fun i hi => ?_
  have hcell := cell_mem hs (Nat.lt_of_lt_of_le hi hlen)
  exact h.area _ hcell.1 hcell.2

/-- A partition that lies apart holds what it held. -/
theorem Confined.holds {q : Partition} (h : p.Confined image image')
    (apart : p.stop ≤ q.base ∨ q.stop ≤ p.base) (fits : q.stop ≤ image.length)
    (holds : q.Holds image log) : q.Holds image' log :=
  holds.congr fits (by rwa [h.length]) fun i _ _ => h.outside i (by omega)

/-- Only bytes of the partition have changed, and it holds one of these logs. -/
def Among (p : Partition) (image : Bytes) (logs : Log → Prop) (image' : Bytes) : Prop :=
  p.Confined image image' ∧ ∃ log, logs log ∧ p.Holds image' log

/-- There may be more logs that the partition may hold. -/
theorem Among.mono {logs logs' : Log → Prop} (h : p.Among image logs image')
    (weaker : ∀ log, logs log → logs' log) : p.Among image logs' image' :=
  ⟨h.1, h.2.imp fun log hlog => ⟨weaker log hlog.1, hlog.2⟩⟩

/-- Before, other bytes of the partition may have changed. -/
theorem Confined.among {image'' : Bytes} {logs : Log → Prop} (h : p.Confined image image')
    (h' : p.Among image' logs image'') : p.Among image logs image'' := ⟨h.trans h'.1, h'.2⟩

/-- What a partition holds is among the logs that it may hold. -/
theorem Holds.among {logs : Log → Prop} (h : p.Holds image log) (hlog : logs log) :
    p.Among image logs image := ⟨.refl p image, log, hlog, h⟩

end Partition

end CircularLog
