import CircularLog.Proofs.Partition.Run

/-!
# Which bytes an append changes

An append is known by its image: some rows are erased one after the other (`cleared`), and then an
entry is in the free row and a payload in the area (`put`), which is `lengthened` if they are those
of the next item of a run. So an append changes no byte but those of the rows that it erases, of the
row that it writes, and of the cells of the new payload (`Replaces`). Header and surroundings stay,
and so does every payload that has no cell in common with the new one (`Replaces.ring_eq`).
-/

namespace CircularLog

namespace Partition

variable {p : Partition} {image image' payload : Bytes} {run : Run} {entry : Row}
  {row count address : Nat}

/-- The address is one of the row. -/
def InRow (p : Partition) (row address : Nat) : Prop :=
  p.rowAddress row ≤ address ∧ address < p.rowAddress row + rowBytes

/-- Rows lie in the table. -/
theorem InRow.mem (h : p.InRow row address) (hrow : row < p.maxItems) :
    p.table ≤ address ∧ address < p.area := by
  have hmem := rowAddress_mem hrow
  have hparts := p.parts
  exact ⟨Nat.le_trans (by omega) h.1, Nat.lt_of_lt_of_le h.2 hmem.2⟩

/-- Bytes that are laid over a row change no other byte. -/
theorem getElem?_overlay_row {bytes : Bytes} (fits : p.stop ≤ image.length)
    (hrow : row < p.maxItems) (hbytes : bytes.length = rowBytes) (hout : ¬ p.InRow row address) :
    (image.overlay (p.rowAddress row) bytes)[address]? = image[address]? := by
  have hmem := rowAddress_mem hrow
  have hparts := p.parts
  rw [Bytes.getElem?_overlay_eq (by omega), hbytes]
  exact if_neg hout

/-- The image stays as long as it is. -/
theorem length_overlay_row {bytes : Bytes} (fits : p.stop ≤ image.length) (hrow : row < p.maxItems)
    (hbytes : bytes.length = rowBytes) :
    (image.overlay (p.rowAddress row) bytes).length = image.length := by
  have hmem := rowAddress_mem hrow
  have hparts := p.parts
  exact Bytes.length_overlay (by omega)

/-! ## Erased rows -/

/-- The image with so many rows erased, from a row on. -/
def cleared (p : Partition) (image : Bytes) (row : Nat) : Nat → Bytes
  | 0 => image
  | rows + 1 => p.cleared (image.overlay (p.rowAddress row) Row.erased) (p.nextRow row) rows

/-- One row more is erased behind the others. -/
theorem cleared_succ (hrow : row < p.maxItems) (count : Nat) :
    p.cleared image row (count + 1) =
      (p.cleared image row count).overlay (p.rowAddress (p.rowBehind row count)) Row.erased := by
  induction count generalizing image row with
  | zero => rw [rowBehind_zero hrow]; rfl
  | succ count ih =>
    rw [cleared, ih (p.nextRow_lt row), rowBehind_nextRow]
    rfl

/-- Erasing rows leaves the length of the image. -/
theorem length_cleared (fits : p.stop ≤ image.length) (hrow : row < p.maxItems) (count : Nat) :
    (p.cleared image row count).length = image.length := by
  induction count generalizing image row with
  | zero => rfl
  | succ count ih =>
    have hlen := length_overlay_row fits hrow (rfl : Row.erased.length = rowBytes)
    rw [cleared, ih (by omega) (p.nextRow_lt row), hlen]

/-- No other byte is erased. -/
theorem getElem?_cleared (fits : p.stop ≤ image.length) (hrow : row < p.maxItems)
    (outside : ∀ k, k < count → ¬ p.InRow (p.rowBehind row k) address) :
    (p.cleared image row count)[address]? = image[address]? := by
  induction count with
  | zero => rfl
  | succ count ih =>
    have hlen := length_cleared fits hrow count
    rw [cleared_succ hrow, getElem?_overlay_row (by omega) (p.rowBehind_lt _ _) rfl
      (outside count (Nat.lt_succ_self _)), ih fun k hk => outside k (Nat.lt_succ_of_lt hk)]

/-! ## The new item -/

/-- The image with an item: its entry in a row, and its payload in the area. -/
def put (p : Partition) (image : Bytes) (row : Nat) (entry : Row) (payload : Bytes) : Bytes :=
  p.ringPut (image.overlay (p.rowAddress row) entry.encode) entry.start.toNat payload

/-- Every address of the area is a cell behind a place in it. -/
theorem exists_cell {start : Nat} (hs : start < p.areaLength) (lower : p.area ≤ address)
    (upper : address < p.stop) : ∃ i, i < p.areaLength ∧ address = p.cell start i := by
  have hparts := p.parts
  by_cases h : p.area + start ≤ address
  · exact ⟨address - (p.area + start), by omega, by unfold cell; split <;> omega⟩
  · exact ⟨p.areaLength - start + (address - p.area), by omega, by unfold cell; split <;> omega⟩

/-- No other byte is written. -/
theorem getElem?_put (fits : p.stop ≤ image.length) (hrow : row < p.maxItems)
    (hs : entry.start.toNat < p.areaLength) (hlen : payload.length ≤ p.areaLength)
    (hlength : entry.length.toNat = payload.length) (hout : ¬ p.InRow row address)
    (uncovered : ¬ p.Covers entry address) :
    (p.put image row entry payload)[address]? = image[address]? := by
  have hbytes : entry.encode.length = rowBytes := entry.length_encode
  have hrowed := getElem?_overlay_row fits hrow hbytes hout
  have hlen' := length_overlay_row fits hrow hbytes
  rw [put]
  by_cases harea : p.area ≤ address ∧ address < p.stop
  · -- An address of the area is a cell behind the payload.
    obtain ⟨i, hi, rfl⟩ := exists_cell hs harea.1 harea.2
    rw [getElem?_ringPut (by omega) hs hlen hi, if_neg, hrowed]
    exact fun hless => uncovered ⟨i, by omega, rfl⟩
  · rw [getElem?_ringPut_of_outside (by omega) hs hlen (by omega), hrowed]

/-! ## Appending -/

/-- The image with the next item of a run, in which so many of the oldest entries have been
erased. -/
def lengthened (p : Partition) (image : Bytes) (run : Run) (count : Nat)
    (payload : Bytes) : Bytes :=
  p.put (p.cleared image run.row count) (run.freeRow p) (run.nextEntry p payload.length) payload

/-- The next entry says how long its payload is. -/
theorem length_nextEntry (run : Run) (storable : p.Storable payload) :
    (run.nextEntry p payload.length).length.toNat = payload.length :=
  UInt16.toNat_ofNat_of_lt' storable.2

/-- The next payload lies in the area. -/
theorem fits_nextEntry (run : Run) (storable : p.Storable payload) :
    (run.nextEntry p payload.length).Fits p.areaLength := by
  have hstart := run.nextStart_lt p
  refine ⟨?_, (length_nextEntry run storable).trans_le storable.1⟩
  rwa [Run.nextEntry, UInt32.toNat_ofNat_of_lt' (Nat.lt_trans hstart p.areaLength_lt)]

/-- The images differ only in so many rows from the first one on, in one more row, and in the cells
of the newest payload. -/
structure Replaces (p : Partition) (image : Bytes) (first count row : Nat) (newest : Row)
    (image' : Bytes) : Prop where
  length : image'.length = image.length
  spares : ∀ i, (∀ k, k < count → ¬ p.InRow (p.rowBehind first k) i) → ¬ p.InRow row i →
    ¬ p.Covers newest i → image'[i]? = image[i]?

/-- An append changes nothing but what it erases and what it writes. -/
theorem replaces_lengthened (fits : p.stop ≤ image.length) (hrow : run.row < p.maxItems)
    (storable : p.Storable payload) :
    p.Replaces image run.row count (run.freeRow p) (run.nextEntry p payload.length)
      (p.lengthened image run count payload) := by
  have hs := (fits_nextEntry run storable).1
  have hfree : run.freeRow p < p.maxItems := p.rowBehind_lt _ _
  have hcleared := length_cleared fits hrow count
  have hbytes : (run.nextEntry p payload.length).encode.length = rowBytes := Row.length_encode _
  have hrowed := length_overlay_row (hcleared ▸ fits) hfree hbytes
  constructor
  case length => rw [lengthened, put, length_ringPut (by omega) hs storable.1, hrowed, hcleared]
  case spares =>
    intro i hrows hnew huncovered
    rw [lengthened,
      getElem?_put (by omega) hfree hs storable.1 (length_nextEntry run storable) hnew huncovered,
      getElem?_cleared fits hrow hrows]

section Replaces

variable {first : Nat} {newest : Row} (h : p.Replaces image first count row newest image')
  (hrow : row < p.maxItems)
include h hrow

/-- What lies in front of the table or behind the area is the same. -/
theorem Replaces.outside (hfits : newest.Fits p.areaLength) {i : Nat}
    (hi : i < p.table ∨ p.stop ≤ i) : image'[i]? = image[i]? := by
  have hparts := p.parts
  refine h.spares i (fun k _ hin => ?_) (fun hin => ?_) ?_
  · have hmem := hin.mem (p.rowBehind_lt first k)
    omega
  · have hmem := hin.mem hrow
    omega
  · rintro ⟨j, hj, rfl⟩
    have hcell := cell_mem hfits.1 (Nat.lt_of_lt_of_le hj hfits.2)
    omega

/-- A payload that has no cell in common with the newest one is the same. -/
theorem Replaces.ring_eq (fits : p.stop ≤ image.length) {older : Row}
    (hfits : older.Fits p.areaLength)
    (apart : ∀ address, ¬ (p.Covers older address ∧ p.Covers newest address)) :
    p.ring image' older.start.toNat older.length.toNat =
      p.ring image older.start.toNat older.length.toNat := by
  have hlen := h.length
  refine ring_congr fits (by omega) hfits.1 fun i hi => ?_
  have hcell := cell_mem hfits.1 (Nat.lt_of_lt_of_le hi hfits.2)
  refine h.spares _ (fun k _ hin => ?_) (fun hin => ?_) fun hnewest =>
    apart _ ⟨⟨i, hi, rfl⟩, hnewest⟩
  · have hmem := hin.mem (p.rowBehind_lt first k)
    omega
  · have hmem := hin.mem hrow
    omega

end Replaces

end Partition

end CircularLog
