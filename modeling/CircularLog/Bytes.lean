/-!
# Byte strings

Payloads, table rows and the contents of memories are lists of bytes. This module holds the
operations on them that the rest of the library is written in: the part of a string from an
address on, one string laid over another, a string cut into pieces, and numbers as little-endian
bytes.
-/

namespace CircularLog

/-- A string of bytes, first byte first. -/
abbrev Bytes := List UInt8

namespace Bytes

/-! ## Parts -/

/-- The `length` bytes from `address` on, fewer where the string ends earlier. -/
def slice (image : Bytes) (address length : Nat) : Bytes :=
  (image.drop address).take length

/-- The string with `data` in the place of the bytes from `address` on. -/
def overlay (image : Bytes) (address : Nat) (data : Bytes) : Bytes :=
  image.take address ++ data ++ image.drop (address + data.length)

/-- A slice that lies inside the string has the length asked for. -/
theorem length_slice {image : Bytes} {address length : Nat} (h : address + length ≤ image.length) :
    (image.slice address length).length = length := by
  simp only [slice, List.length_take, List.length_drop]
  omega

/-- An overlay that fits keeps the length. -/
theorem length_overlay {image data : Bytes} {address : Nat}
    (h : address + data.length ≤ image.length) :
    (image.overlay address data).length = image.length := by
  simp only [overlay, List.length_append, List.length_take, List.length_drop]
  omega

/-- The byte at `i` after an overlay that fits: from `data` where `data` lies, and otherwise as
before. -/
theorem getElem?_overlay {image data : Bytes} {address : Nat}
    (h : address + data.length ≤ image.length) (i : Nat) :
    (image.overlay address data)[i]? =
      if address ≤ i then
        match data[i - address]? with
        | some byte => some byte
        | none => image[i]?
      else image[i]? := by
  have htake : (image.take address).length = address := by
    simp only [List.length_take]
    omega
  rw [overlay, List.append_assoc]
  rcases Nat.lt_or_ge i address with hlt | hge
  · rw [List.getElem?_append_left (by omega), List.getElem?_take_of_lt hlt, if_neg (by omega)]
  · rw [List.getElem?_append_right (by omega), htake, if_pos hge]
    rcases Nat.lt_or_ge (i - address) data.length with hin | hout
    · rw [List.getElem?_append_left hin, List.getElem?_eq_getElem hin]
    · rw [List.getElem?_append_right hout, List.getElem?_eq_none hout, List.getElem?_drop]
      congr 1
      omega

/-- What an overlay that fits has put down is read back from the same place. -/
theorem slice_overlay {image data : Bytes} {address : Nat}
    (h : address + data.length ≤ image.length) :
    (image.overlay address data).slice address data.length = data := by
  have hlen : (image.take address).length = address := by
    simp only [List.length_take]
    omega
  simp [slice, overlay, List.append_assoc, hlen]

/-! ## Bits -/

/-- Clearing bits is enough to turn the bytes `old` into the bytes `new`. -/
def clearsTo (old new : Bytes) : Bool :=
  (old.zip new).all fun (o, n) => o &&& n == n

/-- The string with the bits of `mask` flipped, byte by byte from the front. -/
def flip : Bytes → Bytes → Bytes
  | [], _ => []
  | bytes, [] => bytes
  | byte :: bytes, bits :: mask => (byte ^^^ bits) :: flip bytes mask

/-- An empty mask flips nothing. -/
@[simp] theorem flip_nil (bytes : Bytes) : bytes.flip [] = bytes := by
  cases bytes <;> rfl

/-! ## Pieces -/

/-- The lengths of the pieces of `whole` bytes: as many of `size` as there are, then the rest. -/
def pieces (size whole : Nat) : List Nat :=
  List.replicate (whole / size) size ++ if whole % size = 0 then [] else [whole % size]

/-- The string cut into pieces of the given lengths, from the front. -/
def cut : List Nat → Bytes → List Bytes
  | [], _ => []
  | length :: lengths, bytes => bytes.take length :: cut lengths (bytes.drop length)

/-- The string in pieces of `size` bytes, the last one shorter if need be. -/
def chunks (size : Nat) (bytes : Bytes) : List Bytes :=
  cut (pieces size bytes.length) bytes

/-- What some lengths add up to. -/
def total : List Nat → Nat
  | [] => 0
  | length :: lengths => length + total lengths

/-- No lengths come to nothing. -/
@[simp] theorem total_nil : total [] = 0 := rfl

/-- One more length is added. -/
@[simp] theorem total_cons (length : Nat) (lengths : List Nat) :
    total (length :: lengths) = length + total lengths := rfl

/-- The pieces add up to the whole. -/
theorem total_pieces (size whole : Nat) : total (pieces size whole) = whole := by
  have h := Nat.div_add_mod whole size
  have hfull (count : Nat) (rest : List Nat) :
      total (List.replicate count size ++ rest) = count * size + total rest := by
    induction count with
    | zero => simp
    | succ count ih =>
      rw [List.replicate_succ, List.cons_append, total_cons, ih, Nat.succ_mul]
      omega
  rw [Nat.mul_comm] at h
  rw [pieces, hfull]
  split <;> simp_all

/-- Pieces whose lengths add up to the string's give it back when joined. -/
theorem flatten_cut {lengths : List Nat} {bytes : Bytes} (h : total lengths = bytes.length) :
    (cut lengths bytes).flatten = bytes := by
  induction lengths generalizing bytes with
  | nil => simp [cut, List.eq_nil_of_length_eq_zero h.symm]
  | cons length lengths ih =>
    rw [total_cons] at h
    have hrest : total lengths = (bytes.drop length).length := by
      rw [List.length_drop]
      omega
    simp [cut, ih hrest]

/-- The chunks of a string, joined, are the string. -/
theorem flatten_chunks (size : Nat) (bytes : Bytes) : (bytes.chunks size).flatten = bytes :=
  flatten_cut (total_pieces size bytes.length)

/-! ## Numbers -/

/-- The `width` little-endian bytes of a number; what does not fit is dropped. -/
def ofNat : Nat → Nat → Bytes
  | 0, _ => []
  | width + 1, n => UInt8.ofNat (n % 256) :: ofNat width (n / 256)

/-- The number that the bytes spell, least significant byte first. -/
def toNat : Bytes → Nat
  | [] => 0
  | byte :: bytes => byte.toNat + 256 * toNat bytes

/-- How many numbers there are that so many bytes can spell. -/
def span : Nat → Nat
  | 0 => 1
  | width + 1 => 256 * span width

/-- A number takes as many bytes as it is given. -/
@[simp] theorem length_ofNat (width n : Nat) : (ofNat width n).length = width := by
  induction width generalizing n with
  | zero => rfl
  | succ width ih => simp [ofNat, ih]

/-- Reading a number back gives it modulo what its width can hold. -/
theorem toNat_ofNat (width n : Nat) : (ofNat width n).toNat = n % span width := by
  induction width generalizing n with
  | zero => simp [ofNat, toNat, span, Nat.mod_one]
  | succ width ih =>
    have h : (UInt8.ofNat (n % 256)).toNat = n % 256 := by
      rw [UInt8.toNat_ofNat']
      omega
    rw [ofNat, toNat, ih, h, span, Nat.mod_mul]

/-- A byte string is the spelling of the number it spells. -/
theorem ofNat_toNat (bytes : Bytes) : ofNat bytes.length bytes.toNat = bytes := by
  induction bytes with
  | nil => rfl
  | cons byte bytes ih =>
    have hb : byte.toNat < 256 := byte.toNat_lt
    rw [List.length_cons, ofNat, toNat]
    congr 1
    · rw [Nat.add_mul_mod_self_left, Nat.mod_eq_of_lt hb, UInt8.ofNat_toNat]
    · rw [Nat.add_mul_div_left _ _ (by omega), Nat.div_eq_of_lt hb, Nat.zero_add, ih]

/-- A string spells one of the numbers that so many bytes can spell. -/
theorem toNat_lt (bytes : Bytes) : bytes.toNat < span bytes.length := by
  induction bytes with
  | nil => simp [toNat, span]
  | cons byte bytes ih =>
    have hb : byte.toNat < 256 := byte.toNat_lt
    rw [toNat, List.length_cons, span]
    omega

end Bytes

end CircularLog
