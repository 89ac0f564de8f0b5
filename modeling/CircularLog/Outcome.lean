/-!
# Outcomes

How an operation can end other than with a value. An `Error` is an answer: the caller can act on
it and the store goes on. A `Defect` is a broken promise of the caller or of the configuration:
nothing can be answered and the run stops. `Medium` and `FailureKind` say where a device failed
and how.
-/

namespace CircularLog

/-- The two kinds of memory behind the address space. -/
inductive Medium where
  /-- The byte addressable memory at the low addresses. -/
  | eeprom
  /-- The paged memory behind it, whose bits are only cleared by programming. -/
  | flash
  deriving DecidableEq

/-- What the driver of a memory reports about a call that failed. -/
inductive FailureKind where
  | notAligned
  | outOfBounds
  /-- Any other cause, a call that did not complete in time above all. -/
  | other
  deriving DecidableEq

/-- Why an operation of the address space or of the store has no result. -/
inductive Error where
  /-- An address, a length, a partition or a layout lies outside what is allowed. -/
  | invalidRange
  /-- The item or the set of partitions does not fit. -/
  | outOfRoom
  /-- The partition is empty, the key went stale or nothing matched. -/
  | notFound
  /-- The eeprom kept reporting busy after a write. -/
  | busy
  /-- A write did not read back as written, or the stored structures contradict each other. -/
  | inconsistent
  /-- The buffer of the caller cannot hold the item, which has this many bytes. -/
  | bufferTooSmall (needed : Nat)
  /-- The driver of a memory failed. -/
  | device (medium : Medium) (kind : FailureKind)
  deriving DecidableEq

/-- The memories failed to do what they were asked, but what they hold may be sound. -/
def Error.isInterruption : Error → Bool
  | busy => true
  | device _ _ => true
  | _ => false

/-- Why a run stops without an answer. -/
inductive Defect where
  /-- A sum does not fit its machine word. -/
  | sumTooLarge
  /-- A difference would be negative. -/
  | differenceNegative
  /-- A product does not fit its machine word. -/
  | productTooLarge
  /-- A part of a buffer that ends behind the end of the buffer. -/
  | sliceTooLong (stop length : Nat)
  /-- A part of a buffer that ends in front of its start. -/
  | sliceReversed (start stop : Nat)
  /-- A buffer is cut in two behind its end. -/
  | cutTooFar
  /-- Bytes are copied to a part of a buffer that has another length. -/
  | copyUneven (source target : Nat)
  /-- A buffer is cut into chunks of no bytes. -/
  | chunkEmpty
  | rangeStartUnaligned
  | rangeEndUnaligned
  | rangeOutsideFlash
  | scratchTooSmall
  | wordTooWide
  | spaceTooLarge
  | readNotWhole
  | writeNotWhole
  | eraseReversed
  deriving DecidableEq

/-- The text a run stops with. -/
def Defect.message : Defect → String
  | sumTooLarge => "attempt to add with overflow"
  | differenceNegative => "attempt to subtract with overflow"
  | productTooLarge => "attempt to multiply with overflow"
  | sliceTooLong stop length =>
    s!"range end index {stop} out of range for slice of length {length}"
  | sliceReversed start stop => s!"slice index starts at {start} but ends at {stop}"
  | cutTooFar => "mid > len"
  | copyUneven source target =>
    s!"copy_from_slice: source slice length ({source}) " ++
      s!"does not match destination slice length ({target})"
  | chunkEmpty => "chunk size must be non-zero"
  | rangeStartUnaligned => "Flash range start must be aligned to a page"
  | rangeEndUnaligned => "Flash range end must be aligned to a page"
  | rangeOutsideFlash => "Flash range must lie within the flash"
  | scratchTooSmall => "The page buffer must be able to hold a full flash page"
  | wordTooWide => "Word size must be smaller (or equal) to the max supported word size"
  | spaceTooLarge => "The address space must be addressable with 32 bits"
  | readNotWhole => "any read must be a multiple of Self::READ_SIZE bytes"
  | writeNotWhole => "any write must be a multiple of Self::WRITE_SIZE bytes"
  | eraseReversed => "assertion failed: from <= to"

end CircularLog
