import CircularLog.Memory

/-!
# Slices and overlays

How slices and overlays of byte strings act on each other, byte by byte and as a whole: parts that
lie apart do not meet, neighbouring overlays join, and an overlay inside a slice that is put back
is an overlay of the whole. `Bytes.Mixed` is what is known of a memory after a call that may have
been carried out in part only.
-/

namespace CircularLog

namespace Bytes

variable {image data : Bytes} {address start length : Nat}

/-! ## Byte by byte -/

/-- The byte at `i` of a slice. -/
theorem getElem?_slice (image : Bytes) (address length i : Nat) :
    (image.slice address length)[i]? = if i < length then image[address + i]? else none := by
  rw [slice]
  split
  · rename_i h
    rw [List.getElem?_take_of_lt h, List.getElem?_drop]
  · rename_i h
    rw [List.getElem?_take, if_neg h]

/-- The byte at `i` after an overlay that fits: inside it from `data`, and outside as before. -/
theorem getElem?_overlay_eq (h : address + data.length ≤ image.length) (i : Nat) :
    (image.overlay address data)[i]? =
      if address ≤ i ∧ i < address + data.length then data[i - address]? else image[i]? := by
  rw [getElem?_overlay h]
  by_cases hle : address ≤ i
  · by_cases hlt : i < address + data.length
    · have hd : i - address < data.length := by omega
      rw [if_pos hle, if_pos ⟨hle, hlt⟩, List.getElem?_eq_getElem hd]
    · have hd : data.length ≤ i - address := by omega
      rw [if_pos hle, if_neg (by omega), List.getElem?_eq_none hd]
  · rw [if_neg hle, if_neg (by omega)]

/-! ## Slices -/

/-- A slice in two parts. -/
theorem slice_add (image : Bytes) (address first second : Nat) :
    image.slice address (first + second) =
      image.slice address first ++ image.slice (address + first) second := by
  rw [slice, List.take_add, List.drop_drop]
  rfl

/-- A slice of a slice is a slice of the whole. -/
theorem slice_slice {first count : Nat} (h : first + count ≤ length) :
    (image.slice address length).slice first count = image.slice (address + first) count := by
  refine List.ext_getElem? fun i => ?_
  rw [getElem?_slice, getElem?_slice, getElem?_slice]
  grind

/-- Where the bytes are the same, the slice is. -/
theorem slice_congr {image' : Bytes}
    (same : ∀ i, i < length → image'[address + i]? = image[address + i]?) :
    image'.slice address length = image.slice address length := by
  refine List.ext_getElem? fun i => ?_
  rw [getElem?_slice, getElem?_slice]
  split
  · next hi => exact same i hi
  · rfl

/-- A slice of no bytes. -/
@[simp] theorem slice_zero (image : Bytes) (address : Nat) : image.slice address 0 = [] :=
  List.take_zero

/-- A slice that lies beside an overlay is as before. -/
theorem slice_overlay_of_disjoint (h : address + data.length ≤ image.length)
    (apart : start + length ≤ address ∨ address + data.length ≤ start) :
    (image.overlay address data).slice start length = image.slice start length := by
  refine List.ext_getElem? fun i => ?_
  rw [getElem?_slice, getElem?_slice, getElem?_overlay_eq h]
  grind

/-- A slice that an overlay lies in has the overlay in it. -/
theorem slice_overlay_of_inside (h : start + length ≤ image.length) (hs : start ≤ address)
    (hd : address + data.length ≤ start + length) :
    (image.overlay address data).slice start length =
      (image.slice start length).overlay (address - start) data := by
  have hl : (image.slice start length).length = length := length_slice h
  refine List.ext_getElem? fun i => ?_
  rw [getElem?_slice, getElem?_overlay_eq (by omega), getElem?_overlay_eq (by omega),
    getElem?_slice]
  grind

/-! ## Overlays -/

/-- An overlay of nothing. -/
@[simp] theorem overlay_nil (image : Bytes) (address : Nat) : image.overlay address [] = image := by
  simp [overlay]

/-- An overlay right behind another one joins it. -/
theorem overlay_append {front back : Bytes} (h : address + (front ++ back).length ≤ image.length) :
    (image.overlay address front).overlay (address + front.length) back =
      image.overlay address (front ++ back) := by
  simp only [List.length_append] at h
  refine List.ext_getElem? fun i => ?_
  rw [getElem?_overlay_eq (by rw [length_overlay (by omega)]; omega),
    getElem?_overlay_eq (by omega), getElem?_overlay_eq (by simp; omega)]
  grind

/-- Laying bytes over where they are already changes nothing. -/
theorem overlay_of_slice_eq (h : address + data.length ≤ image.length)
    (same : image.slice address data.length = data) : image.overlay address data = image := by
  refine List.ext_getElem? fun i => ?_
  have hi := congrArg (·[i - address]?) same
  simp only [getElem?_slice] at hi
  rw [getElem?_overlay_eq h]
  grind

/-- A slice with an overlay in it, put back, is an overlay of the whole. -/
theorem overlay_overlay_slice (h : start + length ≤ image.length) (hs : start ≤ address)
    (hd : address + data.length ≤ start + length) :
    image.overlay start ((image.slice start length).overlay (address - start) data) =
      image.overlay address data := by
  have hl : (image.slice start length).length = length := length_slice h
  refine List.ext_getElem? fun i => ?_
  rw [getElem?_overlay_eq (by rw [length_overlay (by omega)]; omega),
    length_overlay (by omega), hl, getElem?_overlay_eq (by omega), getElem?_overlay_eq (by omega),
    getElem?_slice]
  grind

/-- Around an overlay inside a slice, the slice has the bytes of the whole. -/
theorem getElem?_overlay_slice (image : Bytes) (h : start + length ≤ image.length)
    (hs : start ≤ address) (hd : address + data.length ≤ start + length) (i : Nat)
    (outside : i < address ∨ address + data.length ≤ i) (hi : start ≤ i) :
    ((image.slice start length).overlay (address - start) data)[i - start]? =
      if i < start + length then image[i]? else none := by
  have hl : (image.slice start length).length = length := length_slice h
  have hin : i - start < length ↔ i < start + length := by omega
  rw [getElem?_overlay_eq (by omega), if_neg (by omega), getElem?_slice, Nat.add_sub_cancel' hi]
  simp only [hin]

/-- A string is an overlay of another if it has the bytes where they were to be laid, and the bytes
of the other around them. -/
theorem eq_overlay {image' : Bytes} (h : address + data.length ≤ image.length)
    (inside : image'.slice address data.length = data)
    (outside : ∀ i, i < address ∨ address + data.length ≤ i → image'[i]? = image[i]?) :
    image' = image.overlay address data := by
  refine List.ext_getElem? fun i => ?_
  have hi := congrArg (·[i - address]?) inside
  simp only [getElem?_slice] at hi
  rw [getElem?_overlay_eq h]
  grind

/-- Where the first bytes have been laid and all of them show, all of them have been laid. -/
theorem overlay_take_eq {n : Nat} (h : address + data.length ≤ image.length)
    (shows : (image.overlay address (data.take n)).slice address data.length = data) :
    image.overlay address (data.take n) = image.overlay address data := by
  have htake : (data.take n).length ≤ data.length := by
    rw [List.length_take]
    omega
  refine eq_overlay h shows fun i hi => ?_
  rw [getElem?_overlay_eq (by omega), if_neg (by omega)]

/-- Overlays at the same place of strings that are the same around it are the same. -/
theorem overlay_congr (image : Bytes) {image' : Bytes} (h : address + data.length ≤ image.length)
    (hlen : image'.length = image.length)
    (outside : ∀ i, i < address ∨ address + data.length ≤ i → image'[i]? = image[i]?) :
    image'.overlay address data = image.overlay address data := by
  refine List.ext_getElem? fun i => ?_
  rw [getElem?_overlay_eq h, getElem?_overlay_eq (by omega)]
  grind

/-! ## Pieces -/

/-- Pieces whose lengths add up to the string's have those lengths. -/
theorem map_length_cut {lengths : List Nat} {bytes : Bytes} (h : total lengths = bytes.length) :
    (cut lengths bytes).map List.length = lengths := by
  induction lengths generalizing bytes with
  | nil => rfl
  | cons length lengths ih =>
    rw [total_cons] at h
    rw [cut, List.map_cons, ih (by rw [List.length_drop]; omega), List.length_take,
      Nat.min_eq_left (by omega)]

/-- The lengths of some pieces add up to that of the pieces joined. -/
theorem total_map_length (pieces : List Bytes) :
    total (pieces.map List.length) = pieces.flatten.length := by
  induction pieces with
  | nil => rfl
  | cons piece pieces ih =>
    rw [List.map_cons, total_cons, ih, List.flatten_cons, List.length_append]

/-! ## Pieces of one size -/

section Pieces

variable {size whole : Nat}

/-- A piece has no more bytes than it may have. -/
theorem le_of_mem_pieces (pos : 0 < size) (h : length ∈ pieces size whole) : length ≤ size := by
  rcases List.mem_append.mp h with hfull | hrest
  · exact Nat.le_of_eq (List.eq_of_mem_replicate hfull)
  · split at hrest
    · simp at hrest
    · rw [List.mem_singleton.mp hrest]
      exact Nat.le_of_lt (Nat.mod_lt _ pos)

/-- The first piece is as large as it may be, and the others are the pieces of the rest. -/
theorem pieces_eq (pos : 0 < size) (some : whole ≠ 0) :
    pieces size whole = min size whole :: pieces size (whole - min size whole) := by
  unfold pieces
  by_cases hle : size ≤ whole
  · have hcount : whole / size = (whole - size) / size + 1 := Nat.div_eq_sub_div pos hle
    rw [Nat.min_eq_left hle, ← Nat.mod_eq_sub_mod hle, hcount, List.replicate_succ,
      List.cons_append]
  · have hlt : whole < size := Nat.lt_of_not_le hle
    rw [Nat.min_eq_right (Nat.le_of_lt hlt), Nat.sub_self, Nat.div_eq_of_lt hlt,
      Nat.mod_eq_of_lt hlt, if_neg some]
    simp

/-- Lengths of which none is above `size`, and none but the last is below. -/
def Even (size : Nat) : List Nat → Prop
  | [] => True
  | length :: lengths => length ≤ size ∧ (lengths ≠ [] → length = size) ∧ Even size lengths

/-- Pieces are even. -/
theorem even_pieces (pos : 0 < size) (whole : Nat) : Even size (pieces size whole) := by
  induction whole using Nat.strongRecOn with
  | ind whole ih =>
    by_cases hnone : whole = 0
    · simp [hnone, pieces, Even]
    · rw [pieces_eq pos hnone]
      refine ⟨Nat.min_le_left _ _, fun hmore => ?_, ih _ (by omega)⟩
      by_cases hle : size ≤ whole
      · exact Nat.min_eq_left hle
      · have hrest : whole - min size whole = 0 := by omega
        simp [hrest, pieces] at hmore

/-- The chunks of a string are even. -/
theorem even_chunks (pos : 0 < size) (bytes : Bytes) :
    Even size ((bytes.chunks size).map List.length) := by
  rw [chunks, map_length_cut (total_pieces size bytes.length)]
  exact even_pieces pos bytes.length

end Pieces

/-- Chunks of whole units are cut out of whole units. -/
theorem dvd_length_of_mem_chunks {unit size : Nat} {bytes chunk : Bytes} (hsize : unit ∣ size)
    (hbytes : unit ∣ bytes.length) (h : chunk ∈ bytes.chunks size) : unit ∣ chunk.length := by
  have hmem : chunk.length ∈ pieces size bytes.length := by
    rw [← map_length_cut (total_pieces size bytes.length)]
    exact List.mem_map_of_mem h
  rcases List.mem_append.mp hmem with hfull | hrest
  · rwa [List.eq_of_mem_replicate hfull]
  · split at hrest
    · simp at hrest
    · rw [List.mem_singleton.mp hrest]
      exact (Nat.dvd_mod_iff hsize).mpr hbytes

/-! ## Partial effects -/

/-- Each byte of `new` is as in `old` or as in `wanted`. -/
def Mixed (old wanted new : Bytes) : Prop :=
  ∀ i : Nat, new[i]? = old[i]? ∨ new[i]? = wanted[i]?

/-- Nothing of the wanted change. -/
theorem Mixed.refl (old wanted : Bytes) : Mixed old wanted old := fun _ => .inl rfl

/-- All of the wanted change. -/
theorem Mixed.all (old wanted : Bytes) : Mixed old wanted wanted := fun _ => .inr rfl

/-- A second attempt that wants the same as the first leaves a mixture as well. -/
theorem Mixed.trans {old wanted mid wanted' new : Bytes} (h : Mixed old wanted mid)
    (h' : Mixed mid wanted' new) (undone : ∀ i : Nat, mid[i]? = old[i]? → wanted'[i]? = wanted[i]?)
    (done : ∀ i : Nat, mid[i]? = wanted[i]? → wanted'[i]? = wanted[i]?) : Mixed old wanted new := by
  intro i
  rcases h' i with hnew | hnew
  · rw [hnew]
    exact h i
  · right
    rcases h i with hmid | hmid
    · rw [hnew, undone i hmid]
    · rw [hnew, done i hmid]

/-- Where no change is wanted, there is none. -/
theorem Mixed.getElem?_eq {old wanted new : Bytes} (h : Mixed old wanted new) {i : Nat}
    (same : wanted[i]? = old[i]?) : new[i]? = old[i]? := by
  rcases h i with hi | hi
  · exact hi
  · exact hi.trans same

end Bytes

namespace Memory

variable {size : Nat}

/-- What part of a writing leaves is a mixture of the memory before and after the whole of it. -/
theorem mixed_combine (f : Nat → UInt8 → UInt8 → UInt8) (memory : Memory size) (address : Nat)
    {part bytes : Bytes} (h : part <+: bytes) :
    Bytes.Mixed memory.toBytes (memory.combine f address bytes).toBytes
      (memory.combine f address part).toBytes := by
  intro i
  rw [getElem?_toBytes_combine, getElem?_toBytes_combine]
  split
  · cases hp : part[i - address]? with
    | none => exact .inl rfl
    | some byte =>
      obtain ⟨rest, rfl⟩ := h
      obtain ⟨hlt, -⟩ := List.getElem?_eq_some_iff.mp hp
      rw [List.getElem?_append_left hlt, hp]
      exact .inr rfl
  · exact .inl rfl

/-- A writing changes no byte outside of the range it is for. -/
theorem getElem?_toBytes_combine_of_outside (f : Nat → UInt8 → UInt8 → UInt8) (memory : Memory size)
    {start : Nat} {bytes : Bytes} {i : Nat} (h : i < start ∨ start + bytes.length ≤ i) :
    (memory.combine f start bytes).toBytes[i]? = memory.toBytes[i]? := by
  rw [getElem?_toBytes_combine]
  split
  · rw [List.getElem?_eq_none (by omega)]
  · rfl

end Memory

end CircularLog
