import CircularLog.Proofs.Partition.Torn

/-!
# The twelve bytes of a row

Twelve bytes spell a row only if they are the bytes of that row (`Row.encode_of_decode`): the four
fields make them up (`Row.fields_append`), and there is one way to spell a number in the width of a
field. Over an erased row, the first bytes of a row without the last one of its marker spell nothing
(`Row.decode_torn_erased`), so a table in which the writing of a row was cut off reads as before
(`Partition.rowAt_torn`). `Row.encoding_exact` puts this together with where the payload of the next
item starts, which machine words count without a loss.
-/

namespace CircularLog

/-- The number that a slice spells has no other spelling of that length. -/
theorem Bytes.ofNat_toNat_slice {image : Bytes} {address length : Nat}
    (h : address + length ≤ image.length) :
    ofNat length (image.slice address length).toNat = image.slice address length := by
  have hspelled := ofNat_toNat (image.slice address length)
  rwa [length_slice h] at hspelled

/-- The number that a slice spells is one for its length. -/
theorem Bytes.toNat_slice_lt {image : Bytes} {address length : Nat}
    (h : address + length ≤ image.length) : (image.slice address length).toNat < span length := by
  have hspelled := toNat_lt (image.slice address length)
  rwa [length_slice h] at hspelled

namespace Row

/-! ## Whole rows -/

/-- The fields of a row are all of its bytes. -/
theorem fields_append {bytes : Bytes} (h : bytes.length = 12) :
    bytes.slice 0 4 ++ bytes.slice 4 4 ++ bytes.slice 8 2 ++ bytes.slice 10 2 = bytes := by
  calc bytes.slice 0 4 ++ bytes.slice 4 4 ++ bytes.slice 8 2 ++ bytes.slice 10 2
      = bytes.slice 0 (4 + 4 + 2 + 2) := by simp only [Bytes.slice_add, Nat.zero_add]
    _ = bytes := by rw [Bytes.slice, List.drop_zero, List.take_of_length_le (by omega)]

/-- What spells a row are the bytes of the row. -/
theorem encode_of_decode {row : Row} {bytes : Bytes} (h : bytes.length = 12)
    (spelled : decode bytes = some row) : row.encode = bytes := by
  unfold decode at spelled
  split at spelled
  · next marker =>
    obtain rfl := Option.some.inj spelled
    have hid : (bytes.slice 0 4).toNat < 2 ^ 32 := Bytes.toNat_slice_lt (by omega)
    have hstart : (bytes.slice 4 4).toNat < 2 ^ 32 := Bytes.toNat_slice_lt (by omega)
    have hlength : (bytes.slice 8 2).toNat < 2 ^ 16 := Bytes.toNat_slice_lt (by omega)
    have hmarker : Bytes.ofNat 2 0 = bytes.slice 10 2 := by
      rw [← marker]
      exact Bytes.ofNat_toNat_slice (by omega)
    unfold encode
    rw [UInt32.toNat_ofNat_of_lt' hid, UInt32.toNat_ofNat_of_lt' hstart,
      UInt16.toNat_ofNat_of_lt' hlength, hmarker, Bytes.ofNat_toNat_slice (by omega),
      Bytes.ofNat_toNat_slice (by omega), Bytes.ofNat_toNat_slice (by omega), fields_append h]
  · cases spelled

/-! ## Rows that were cut off -/

/-- The first bytes of a row, laid over an erased one. -/
theorem overlay_erased_take (row : Row) {n : Nat} (hn : n ≤ 12) :
    erased.overlay 0 (row.encode.take n) = row.encode.take n ++ List.replicate (12 - n) 0xFF := by
  have htake : (row.encode.take n).length = n := by
    rw [List.length_take, length_encode, Nat.min_eq_left hn]
  rw [Bytes.overlay, List.take_zero, List.nil_append, Nat.zero_add, htake, erased,
    List.drop_replicate]

/-- Over an erased row, nothing less than the whole row spells any. -/
theorem decode_torn_erased (row : Row) {n : Nat} (hn : n < 12) :
    decode (erased.overlay 0 (row.encode.take n)) = none := by
  rcases decode_torn row (rfl : erased.length = 12) decode_erased n with torn | whole
  · exact torn
  · -- The last byte is still erased, but in a whole row it is zero.
    rw [overlay_erased_take row (Nat.le_of_lt hn)] at whole
    have hlast := congrArg (·.getLast?) whole
    have herased : (List.replicate (12 - n) (0xFF : UInt8)).getLast? = some 0xFF := by
      rw [List.getLast?_replicate, if_neg (by omega)]
    have hzero : row.encode.getLast? = some 0 := by simp [encode, Bytes.ofNat]
    simp only [List.getLast?_append, herased, hzero, Option.some_or] at hlast
    cases Option.some.inj hlast

end Row

namespace Partition

variable {p : Partition} {image : Bytes}

/-- Where the writing of a row over an erased one was cut off, each row says what it said before. -/
theorem rowAt_torn (row : Row) {slot n : Nat} (hslot : slot < p.maxItems)
    (fits : p.stop ≤ image.length) (free : p.rowCells image slot = Row.erased) (hn : n < 12) :
    p.rowAt (image.overlay (p.rowAddress slot) (row.encode.take n)) slot = none ∧
      ∀ other, other ≠ slot →
        p.rowAt (image.overlay (p.rowAddress slot) (row.encode.take n)) other =
          p.rowAt image other := by
  have hmem := rowAddress_mem hslot
  have hparts := p.parts
  have htake : (row.encode.take n).length ≤ rowBytes := by
    rw [List.length_take, Row.length_encode]
    exact Nat.min_le_right n 12
  constructor
  · rw [rowAt, (rowCells_overlay_take row.length_encode hslot fits n).1, free]
    exact Row.decode_torn_erased row hn
  · intro other hother
    have hapart := p.rowAddress_disjoint hother
    exact rowAt_overlay (by omega) (by omega)

end Partition

/-- A row is read back from its bytes, and from no others. If only its first bytes have been written
over an erased row, they are not taken for an item, and the rest of the table says what it said. The
payload of a row that fits into its area stops inside of the area, as far behind its start as it is
long, going round the end. -/
theorem Row.encoding_exact (row : Row) :
    decode row.encode = some row ∧
    (∀ bytes : Bytes, bytes.length = 12 → decode bytes = some row → row.encode = bytes) ∧
    (∀ n, n < 12 → decode (row.encode.take n ++ List.replicate (12 - n) 0xFF) = none) ∧
    (∀ (p : Partition) (image : Bytes) (slot n : Nat), slot < p.maxItems →
      p.stop ≤ image.length → p.rowCells image slot = erased → n < 12 →
      p.rowAt (image.overlay (p.rowAddress slot) (row.encode.take n)) slot = none ∧
        ∀ other, other ≠ slot →
          p.rowAt (image.overlay (p.rowAddress slot) (row.encode.take n)) other =
            p.rowAt image other) ∧
    ∀ areaLength : UInt32, row.Fits areaLength.toNat →
      row.stopWord areaLength < areaLength ∧
        (row.stopWord areaLength).toNat =
          (row.start.toNat + row.length.toNat) % areaLength.toNat := by
  refine ⟨decode_encode row, fun bytes => encode_of_decode, ?_, ?_, ?_⟩
  · intro n hn
    rw [← overlay_erased_take row (Nat.le_of_lt hn)]
    exact decode_torn_erased row hn
  · intro p image slot n hslot fits free hn
    exact Partition.rowAt_torn row hslot fits free hn
  · intro areaLength fits
    -- An area that a row fits into is not empty.
    have hpos : 0 < areaLength.toNat := Nat.zero_lt_of_lt fits.1
    have hstop := row.toNat_stopWord hpos
    constructor
    · rw [UInt32.lt_iff_toNat_lt, hstop]
      exact row.stop_lt hpos
    · rw [hstop, stop]

/-- The row with the largest id, of a payload that ends behind what 32 bits can count. -/
def Row.largest : Row := ⟨0xFFFFFFFF, 0xFFFFFFFE, 0xFFFF⟩

/-- Three rows, and an area of five bytes. -/
def Partition.triple : Partition where
  id := 0
  base := 0
  maxItems := 3
  areaLength := 5
  maxItems_pos := by decide
  maxItems_lt := by decide
  areaLength_pos := by decide
  stop_lt := by decide

/-- Erased bytes but for the row in front. -/
def Bytes.oneRow : Bytes := List.replicate 4 0xFF ++ Row.largest.encode ++ List.replicate 29 0xFF

/-- The row has only one byte in front of its marker that is not erased. It is written once, and
once more, without its last byte, behind itself. -/
theorem Row.encoding_exact_largest :
    decode [0xFF, 0xFF, 0xFF, 0xFF, 0xFE, 0xFF, 0xFF, 0xFF, 0xFF, 0xFF, 0, 0] = some largest ∧
    largest.encode = [0xFF, 0xFF, 0xFF, 0xFF, 0xFE, 0xFF, 0xFF, 0xFF, 0xFF, 0xFF, 0, 0] ∧
    decode (largest.encode.take 11 ++ [0xFF]) = none ∧
    Partition.triple.rowCells Bytes.oneRow 1 = erased ∧
    Partition.triple.rowAt (Bytes.oneRow.overlay 16 (largest.encode.take 11)) 1 = none ∧
    Partition.triple.rowAt (Bytes.oneRow.overlay 16 (largest.encode.take 11)) 0 = some largest ∧
    largest.Fits 0xFFFFFFFF ∧ largest.stopWord 0xFFFFFFFF = 65534 := by
  obtain ⟨-, canonical, torn, slots, stops⟩ := encoding_exact largest
  have spelled :
      decode [0xFF, 0xFF, 0xFF, 0xFF, 0xFE, 0xFF, 0xFF, 0xFF, 0xFF, 0xFF, 0, 0] = some largest := by
    decide
  have free : Partition.triple.rowCells Bytes.oneRow 1 = erased := by decide
  have fits : largest.Fits 0xFFFFFFFF := by decide
  obtain ⟨none, before⟩ :=
    slots Partition.triple Bytes.oneRow 1 11 (by decide) (by decide) free (by decide)
  refine ⟨spelled, canonical _ rfl spelled, torn 11 (by decide), free, none, ?_, fits, ?_⟩
  · exact (before 0 (by decide)).trans (by decide)
  · exact UInt32.toNat_inj.mp (stops 0xFFFFFFFF fits).2

end CircularLog
