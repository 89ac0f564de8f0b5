import CircularLog.Media.Basic

/-!
# The address space

One range of addresses over both memories: the eeprom from address 0 to the boundary, and behind
it the pages of the flash from `start` to `stop`. A space is the description of this range; the
memories are the state that its operations work on. `Space.create` makes one only if the pages,
the words and the sum of the sizes are such that every request inside the range can be served.
-/

namespace CircularLog

/-- The largest word that the address space can handle. -/
def wordLimit : Nat := 32

/-- How many bytes are filled or read back for comparison at a time. -/
def chunkBytes : Nat := 2 * wordLimit

/-- How many polls a write waits for the eeprom. -/
def pollLimit : Nat := 10000

/-- A range of addresses over the two memories. -/
structure Space (g : Geometry) where
  /-- The first address that lies in the flash. -/
  boundary : Nat
  /-- The cell of the flash at the boundary. -/
  start : Nat
  /-- The first cell of the flash behind the range. -/
  stop : Nat
  start_mod : start % g.pageBytes = 0
  stop_mod : stop % g.pageBytes = 0
  start_le_stop : start ≤ stop
  stop_lt : stop < 0x1_0000_0000
  page_le_scratch : g.pageBytes ≤ g.scratchBytes
  word_le_limit : g.wordSize ≤ wordLimit
  total_lt : boundary + (stop - start) < 0x1_0000_0000

namespace Space

variable {g : Geometry} {α : Type}

/-- The space over an eeprom and a flash with the given capacities and the given range of flash;
the first condition that fails is the defect. -/
def create (g : Geometry) (eepromCapacity flashCapacity : Nat) (start stop : UInt32) :
    Except Defect (Space g) :=
  if start_mod : start.toNat % g.pageBytes ≠ 0 then
    .error .rangeStartUnaligned
  else if stop_mod : stop.toNat % g.pageBytes ≠ 0 then
    .error .rangeEndUnaligned
  else if range : ¬ (start.toNat ≤ stop.toNat ∧ stop.toNat ≤ flashCapacity) then
    .error .rangeOutsideFlash
  else if page : g.scratchBytes < g.pageBytes then
    .error .scratchTooSmall
  else if word : wordLimit < g.wordSize then
    .error .wordTooWide
  else if 0x1_0000_0000_0000_0000 ≤ eepromCapacity + (stop.toNat - start.toNat) then
    .error .sumTooLarge
  else if total : 0x1_0000_0000 ≤ eepromCapacity + (stop.toNat - start.toNat) then
    .error .spaceTooLarge
  else
    .ok {
      boundary := eepromCapacity
      start := start.toNat
      stop := stop.toNat
      start_mod := Decidable.not_not.mp start_mod
      stop_mod := Decidable.not_not.mp stop_mod
      start_le_stop := (Decidable.not_not.mp range).1
      stop_lt := stop.toNat_lt
      page_le_scratch := Nat.le_of_not_lt page
      word_le_limit := Nat.le_of_not_lt word
      total_lt := Nat.lt_of_not_le total }

variable (space : Space g)

/-- The number of addresses. -/
def total : Nat := space.boundary + (space.stop - space.start)

/-- The memory behind an address. -/
def mediumOf (address : Nat) : Medium :=
  if address < space.boundary then .eeprom else .flash

/-- The capacities that the space was made for are those of the memories. -/
structure Truthful : Prop where
  boundary_eq : space.boundary = g.eepromBytes
  stop_le : space.stop ≤ g.flashBytes

/-- Refuse a request that does not lie inside the range. -/
def require (address length : Nat) : Action Error (Media g) Unit := do
  let total ← Action.sum 0x1_0000_0000 space.boundary (← Action.difference space.stop space.start)
  if total < address + length then
    Action.fail .invalidRange

/-- The number of addresses is a machine word. -/
theorem require_eq (address length : Nat) :
    (space.require address length : Action Error (Media g) Unit) =
      if space.total < address + length then Action.fail .invalidRange else pure () := by
  unfold require
  rw [Action.difference_eq space.start_le_stop, pure_bind, Action.sum_eq space.total_lt, pure_bind]
  rfl

/-- A driver call, its failure told together with the memory. -/
def driver (medium : Medium) (x : Action FailureKind (Media g) α) : Action Error (Media g) α :=
  x.mapError (Error.device medium)

/-- What the space shows: the eeprom, and behind it the range of the flash. -/
def image (media : Media g) : Bytes :=
  media.eeprom.memory.toBytes ++
    media.flash.memory.toBytes.slice space.start (space.stop - space.start)

/-- The image has one byte for every address. -/
theorem length_image (h : space.Truthful) (media : Media g) :
    (space.image media).length = space.total := by
  have hstop := h.stop_le
  have hstart := space.start_le_stop
  rw [image, List.length_append, Bytes.length_slice (by rw [Memory.length_toBytes]; omega),
    Memory.length_toBytes, total, h.boundary_eq]

end Space

end CircularLog
