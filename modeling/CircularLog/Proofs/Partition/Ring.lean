import CircularLog.Partition.Layout
import CircularLog.Proofs.Bytes

/-!
# The area as a ring

The area of a partition is read and written around its end. `ring` is what is read from a place on,
`ringPut` what becomes of the image when bytes are put at a place, and `cell` the address that lies
a number of bytes behind a place. The two are known by their bytes (`getElem?_ring`,
`getElem?_ringPut`); from that, a part of the ring is two parts (`ring_append`), and bytes are put
behind a part without touching it (`ring_ringPut_behind`).
-/

namespace CircularLog

namespace Partition

variable {p : Partition} {image image' bytes : Bytes} {start length i : Nat}

/-- The bytes from a place in the area on, around its end. -/
def ring (p : Partition) (image : Bytes) (start length : Nat) : Bytes :=
  let first := min length (p.areaLength - start)
  image.slice (p.area + start) first ++ image.slice p.area (length - first)

/-- The image with bytes put into the area from a place on, around its end. -/
def ringPut (p : Partition) (image : Bytes) (start : Nat) (bytes : Bytes) : Bytes :=
  let first := min bytes.length (p.areaLength - start)
  (image.overlay (p.area + start) (bytes.take first)).overlay p.area (bytes.drop first)

/-- The address that lies `i` bytes behind a place in the area. -/
def cell (p : Partition) (start i : Nat) : Nat :=
  p.area + if start + i < p.areaLength then start + i else start + i - p.areaLength

/-- One round of the area at most is a remainder. -/
theorem add_mod_areaLength (hs : start < p.areaLength) (hi : i ≤ p.areaLength) :
    (start + i) % p.areaLength =
      if start + i < p.areaLength then start + i else start + i - p.areaLength := by
  split
  · next h => exact Nat.mod_eq_of_lt h
  · next h =>
    rw [Nat.mod_eq_sub_mod (by omega), Nat.mod_eq_of_lt (by omega)]

/-- A place that lies some bytes behind another is a place. -/
theorem add_mod_lt (p : Partition) (n : Nat) : n % p.areaLength < p.areaLength :=
  Nat.mod_lt _ p.areaLength_pos

/-- A cell behind a place behind a place. -/
theorem cell_cell {n : Nat} (hs : start < p.areaLength) (hn : n + i < p.areaLength) :
    p.cell ((start + n) % p.areaLength) i = p.cell start (n + i) := by
  rw [add_mod_areaLength hs (by omega)]
  unfold cell
  split <;> split <;> split <;> omega

/-- Cells lie in the area. -/
theorem cell_mem (hs : start < p.areaLength) (hi : i < p.areaLength) :
    p.area ≤ p.cell start i ∧ p.cell start i < p.stop := by
  unfold cell stop
  split <;> omega

/-- Within one round of the area, the cells behind a place are different. -/
theorem cell_inj {j : Nat} (hi : i < p.areaLength)
    (hj : j < p.areaLength) (h : p.cell start i = p.cell start j) : i = j := by
  unfold cell at h
  split at h <;> split at h <;> omega

/-- The bytes of a part of the ring. -/
theorem getElem?_ring (fits : p.stop ≤ image.length) (hs : start < p.areaLength) (i : Nat) :
    (p.ring image start length)[i]? = if i < length then image[p.cell start i]? else none := by
  have hstop : p.stop = p.area + p.areaLength := rfl
  have hfront : (image.slice (p.area + start) (min length (p.areaLength - start))).length =
      min length (p.areaLength - start) := Bytes.length_slice (by omega)
  rw [ring, List.getElem?_append, hfront, Bytes.getElem?_slice, Bytes.getElem?_slice]
  unfold cell
  grind

/-- A part of the ring has the length asked for. -/
theorem length_ring (fits : p.stop ≤ image.length) (hs : start < p.areaLength)
    (hlen : length ≤ p.areaLength) : (p.ring image start length).length = length := by
  have hstop : p.stop = p.area + p.areaLength := rfl
  rw [ring, List.length_append, Bytes.length_slice (by omega), Bytes.length_slice (by omega)]
  omega

/-- Where the area is the same, the ring is. -/
theorem ring_congr (fits : p.stop ≤ image.length) (fits' : p.stop ≤ image'.length)
    (hs : start < p.areaLength)
    (same : ∀ i, i < length → image'[p.cell start i]? = image[p.cell start i]?) :
    p.ring image' start length = p.ring image start length := by
  refine List.ext_getElem? fun i => ?_
  rw [getElem?_ring fits' hs, getElem?_ring fits hs]
  split
  · next hi => exact same i hi
  · rfl

/-- A part of the ring and the part behind it are one part. -/
theorem ring_append {front back : Nat} (fits : p.stop ≤ image.length) (hs : start < p.areaLength)
    (hlen : front + back ≤ p.areaLength) :
    p.ring image start (front + back) =
      p.ring image start front ++ p.ring image ((start + front) % p.areaLength) back := by
  refine List.ext_getElem? fun i => ?_
  rw [getElem?_ring fits hs, List.getElem?_append, length_ring fits hs (by omega),
    getElem?_ring fits hs, getElem?_ring fits (p.add_mod_lt _)]
  by_cases hfront : i < front
  · rw [if_pos (by omega), if_pos hfront, if_pos hfront]
  · rw [if_neg hfront]
    by_cases hback : i < front + back
    · rw [if_pos hback, if_pos (by omega), cell_cell hs (by omega), Nat.add_sub_cancel' (by omega)]
    · rw [if_neg hback, if_neg (by omega)]

/-- Putting bytes into the area changes no other byte. -/
theorem getElem?_ringPut_of_outside (fits : p.stop ≤ image.length) (hs : start < p.areaLength)
    (hlen : bytes.length ≤ p.areaLength) (outside : i < p.area ∨ p.stop ≤ i) :
    (p.ringPut image start bytes)[i]? = image[i]? := by
  have hstop : p.stop = p.area + p.areaLength := rfl
  have htake : (bytes.take (min bytes.length (p.areaLength - start))).length =
    min bytes.length (p.areaLength - start) := by rw [List.length_take]; omega
  have hdrop : (bytes.drop (min bytes.length (p.areaLength - start))).length =
    bytes.length - min bytes.length (p.areaLength - start) := List.length_drop
  rw [ringPut, Bytes.getElem?_overlay_eq (by rw [Bytes.length_overlay (by omega)]; omega),
    if_neg (by omega), Bytes.getElem?_overlay_eq (by omega), if_neg (by omega)]

/-- Putting bytes into the area keeps the length of the image. -/
theorem length_ringPut (fits : p.stop ≤ image.length) (hs : start < p.areaLength)
    (hlen : bytes.length ≤ p.areaLength) : (p.ringPut image start bytes).length = image.length := by
  have hstop : p.stop = p.area + p.areaLength := rfl
  have htake : (bytes.take (min bytes.length (p.areaLength - start))).length =
    min bytes.length (p.areaLength - start) := by rw [List.length_take]; omega
  have hdrop : (bytes.drop (min bytes.length (p.areaLength - start))).length =
    bytes.length - min bytes.length (p.areaLength - start) := List.length_drop
  rw [ringPut, Bytes.length_overlay (by rw [Bytes.length_overlay (by omega)]; omega),
    Bytes.length_overlay (by omega)]

/-- The cells behind a place after bytes were put there. -/
theorem getElem?_ringPut (fits : p.stop ≤ image.length) (hs : start < p.areaLength)
    (hlen : bytes.length ≤ p.areaLength) (hi : i < p.areaLength) :
    (p.ringPut image start bytes)[p.cell start i]? =
      if i < bytes.length then bytes[i]? else image[p.cell start i]? := by
  have hstop : p.stop = p.area + p.areaLength := rfl
  have htake : (bytes.take (min bytes.length (p.areaLength - start))).length =
    min bytes.length (p.areaLength - start) := by rw [List.length_take]; omega
  have hdrop : (bytes.drop (min bytes.length (p.areaLength - start))).length =
    bytes.length - min bytes.length (p.areaLength - start) := List.length_drop
  rw [ringPut, Bytes.getElem?_overlay_eq (by rw [Bytes.length_overlay (by omega)]; omega),
    Bytes.getElem?_overlay_eq (by omega), List.getElem?_take, List.getElem?_drop]
  unfold cell
  grind

/-- What was put into the area is read from there, and what lies behind it is as before. -/
theorem ring_ringPut (fits : p.stop ≤ image.length) (hs : start < p.areaLength)
    (hlen : bytes.length ≤ length) (harea : length ≤ p.areaLength) :
    p.ring (p.ringPut image start bytes) start length =
      bytes ++ (p.ring image start length).drop bytes.length := by
  refine List.ext_getElem? fun i => ?_
  have hput := length_ringPut fits hs (Nat.le_trans hlen harea)
  rw [getElem?_ring (by omega) hs, List.getElem?_append, List.getElem?_drop]
  by_cases hi : i < length
  · rw [if_pos hi, getElem?_ringPut fits hs (by omega) (by omega)]
    split
    · rfl
    · rw [getElem?_ring fits hs, if_pos (by omega), Nat.add_sub_cancel' (by omega)]
  · rw [if_neg hi, if_neg (by omega), getElem?_ring fits hs, if_neg (by omega)]

/-- What lies in front of the bytes that are put into the area is not touched. -/
theorem ring_ringPut_behind (fits : p.stop ≤ image.length) (hs : start < p.areaLength)
    (hlen : length + bytes.length ≤ p.areaLength) :
    p.ring (p.ringPut image ((start + length) % p.areaLength) bytes) start length =
      p.ring image start length := by
  have hput := length_ringPut fits (p.add_mod_lt (start + length))
    (by omega : bytes.length ≤ p.areaLength)
  refine ring_congr fits (by omega) hs fun i hi => ?_
  -- Seen from where the bytes are put, the cell lies behind them.
  have hcell : p.cell start i =
      p.cell ((start + length) % p.areaLength) (p.areaLength - length + i) := by
    rw [add_mod_areaLength hs (by omega)]
    unfold cell
    split <;> split <;> split <;> omega
  rw [hcell, getElem?_ringPut fits (p.add_mod_lt _) (by omega) (by omega), if_neg (by omega)]

/-- Putting no bytes into the area changes nothing. -/
@[simp] theorem ringPut_nil (p : Partition) (image : Bytes) (start : Nat) :
    p.ringPut image start [] = image := by simp [ringPut]

/-- Bytes put into the area that do not reach its end are one overlay. -/
theorem ringPut_front {n : Nat} (h : n ≤ min bytes.length (p.areaLength - start)) :
    p.ringPut image start (bytes.take n) = image.overlay (p.area + start) (bytes.take n) := by
  have hlen : (bytes.take n).length = n := by rw [List.length_take]; omega
  rw [ringPut, hlen, Nat.min_eq_left (by omega), List.take_of_length_le (Nat.le_of_eq hlen),
    List.drop_of_length_le (Nat.le_of_eq hlen), Bytes.overlay_nil]

/-- Bytes put into the area in two parts, of the second the first bytes only. -/
theorem ringPut_back {n : Nat} (h : n ≤ bytes.length - min bytes.length (p.areaLength - start)) :
    p.ringPut image start (bytes.take (min bytes.length (p.areaLength - start) + n)) =
      (image.overlay (p.area + start)
        (bytes.take (min bytes.length (p.areaLength - start)))).overlay p.area
          ((bytes.drop (min bytes.length (p.areaLength - start))).take n) := by
  generalize hfirst : min bytes.length (p.areaLength - start) = first at h ⊢
  have hlen : (bytes.take (first + n)).length = first + n := by rw [List.length_take]; omega
  by_cases hzero : n = 0
  · subst hzero
    rw [Nat.add_zero, List.take_zero, Bytes.overlay_nil]
    exact ringPut_front (by omega)
  · rw [ringPut, hlen, show min (first + n) (p.areaLength - start) = first by omega,
      List.take_take, Nat.min_eq_left (by omega), List.drop_take, Nat.add_sub_cancel_left]

end Partition

end CircularLog
